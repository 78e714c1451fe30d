/-
Phrases in capitals.  Keywords are read in any letter case and everything else in a
phrase is told apart by characters that have no case, so a recogniser reads in the
capitals of a text the capitals of what it reads in the text.  The headers of a text
and the sites of its tables therefore stand where they stood, and the clean form of
its capitals is its clean form in capitals.
-/
import DdlDiagram.Proofs.Capitals
import DdlDiagram.Proofs.HeaderPlace

namespace DdlDiagram

open Text Phrase

namespace Phrase

variable (text keyword : Text)

/-- A recogniser that reads in the capitals of a text what it reads in the text, in
capitals. -/
def CaseBlind {α : Type} (inCapitals : α → α) (recognise : Text → Option α) : Prop :=
  ∀ text, recognise (asciiUpper text) = (recognise text).map inCapitals

@[simp] theorem afterKeyword?_asciiUpper :
    afterKeyword? keyword (asciiUpper text) =
      (afterKeyword? keyword text).map asciiUpper := by
  induction keyword generalizing text with
  | nil => rfl
  | cons k keyword ih =>
      cases text with
      | nil => rfl
      | cons c text =>
          simp only [asciiUpper_cons, afterKeyword?, foldCapital_toUpper, ih]
          split <;> rfl

@[simp] theorem afterBlanks?_asciiUpper :
    afterBlanks? (asciiUpper text) = (afterBlanks? text).map asciiUpper := by
  cases text with
  | nil => rfl
  | cons c text =>
      simp only [asciiUpper_cons, afterBlanks?, isBlank_toUpper,
        trimStart_asciiUpper]
      split <;> rfl

theorem afterChar?_asciiUpper {sign : Char} (hsign : sign.isAlpha = false) :
    afterChar? sign (asciiUpper text) = (afterChar? sign text).map asciiUpper := by
  cases text with
  | nil => rfl
  | cons c text =>
      simp only [asciiUpper_cons, afterChar?, toUpper_eq_iff hsign]
      split <;> rfl

@[simp] theorem afterSpacedKeyword?_asciiUpper :
    afterSpacedKeyword? keyword (asciiUpper text) =
      (afterSpacedKeyword? keyword text).map asciiUpper := by
  simp only [afterSpacedKeyword?, afterKeyword?_asciiUpper, Option.bind_map,
    Option.map_bind, Function.comp_def, afterBlanks?_asciiUpper]

theorem dropOne_asciiUpper {belongs : Char → Bool}
    (hbelongs : ∀ c : Char, belongs c.toUpper = belongs c) :
    dropOne belongs (asciiUpper text) = asciiUpper (dropOne belongs text) := by
  cases text with
  | nil => rfl
  | cons c text =>
      simp only [asciiUpper_cons, dropOne, hbelongs]
      split <;> rfl

theorem opensName_toUpper (c : Char) : opensName c.toUpper = opensName c := by
  simp (disch := decide) only [opensName, toUpper_beq]

theorem closesName_toUpper (c : Char) : closesName c.toUpper = closesName c := by
  simp (disch := decide) only [closesName, toUpper_beq]

@[simp] theorem quotedWord?_asciiUpper :
    quotedWord? (asciiUpper text) =
      (quotedWord? text).map (Prod.map asciiUpper asciiUpper) := by
  simp only [quotedWord?, dropOne_asciiUpper _ opensName_toUpper,
    takeWhile_asciiUpper _ isWordChar_toUpper,
    dropWhile_asciiUpper _ isWordChar_toUpper,
    dropOne_asciiUpper _ closesName_toUpper, isEmpty_asciiUpper]
  split <;> rfl

@[simp] theorem nameBeforeBracket?_asciiUpper :
    nameBeforeBracket? (asciiUpper text) =
      (nameBeforeBracket? text).map (Prod.map asciiUpper asciiUpper) := by
  have hword : ∀ {text word rest : Text}, quotedWord? text = some (word, rest) →
      quotedWord? (asciiUpper text) = some (asciiUpper word, asciiUpper rest) := by
    intro text word rest h
    rw [quotedWord?_asciiUpper, h]
    rfl
  have htrim : ∀ {text rest : Text}, trimStart text = rest →
      trimStart (asciiUpper text) = asciiUpper rest := by
    intro text rest h
    rw [trimStart_asciiUpper, h]
  fun_induction nameBeforeBracket? text with
  | case1 text hnone =>
      apply nameBeforeBracket?_of_none
      rw [quotedWord?_asciiUpper, hnone]
      rfl
  | case2 text word rest hsome hempty =>
      rw [nameBeforeBracket?_of_word (hword hsome), htrim hempty]
      rfl
  | case3 text word rest hsome more hmore =>
      rw [nameBeforeBracket?_of_word (hword hsome), htrim hmore]
      rfl
  | case4 text word rest hsome more hmore hdot ih =>
      rw [nameBeforeBracket?_of_word (hword hsome), htrim hmore, ← ih,
        ← trimStart_asciiUpper]
      rfl
  | case5 text word rest hsome c more hmore hbracket hdot =>
      rw [nameBeforeBracket?_of_word (hword hsome), htrim hmore]
      simp (disch := decide) only [asciiUpper_cons, toUpper_eq_iff, hbracket, hdot,
        ↓reduceIte, Option.map_none]

@[simp] theorem upToBracket?_asciiUpper :
    upToBracket? (asciiUpper text) =
      (upToBracket? text).map (Prod.map asciiUpper asciiUpper) := by
  have hbracket : ∀ c : Char, (c.toUpper != ')') = (c != ')') := fun _ =>
    toUpper_bne (by decide)
  rw [upToBracket?, upToBracket?, takeWhile_asciiUpper (p := (· != ')')) _ hbracket,
    dropWhile_asciiUpper (p := (· != ')')) _ hbracket]
  rcases text.takeWhile (· != ')') with _ | ⟨c, inside⟩ <;>
    rcases text.dropWhile (· != ')') with _ | ⟨bracket, rest⟩ <;> rfl

theorem any_isWordChar_toUpper (previous : Option Char) :
    (previous.map Char.toUpper).any isWordChar = previous.any isWordChar := by
  cases previous with
  | none => rfl
  | some c => exact isWordChar_toUpper c

section search

variable {α : Type} {inCapitals : α → α} {recognise : Text → Option α}

/-- A search finds in the capitals of a text what it finds in the text. -/
theorem CaseBlind.search (h : CaseBlind inCapitals recognise) :
    CaseBlind inCapitals (Phrase.search recognise) := by
  intro text
  induction text with
  | nil => rfl
  | cons c rest ih =>
      have hhere := h (c :: rest)
      rw [asciiUpper_cons] at hhere
      rw [asciiUpper_cons, Phrase.search, Phrase.search, hhere, ih, Option.map_or]

theorem CaseBlind.searchAtWord (h : CaseBlind inCapitals recognise)
    (previous : Option Char) (text : Text) :
    Phrase.searchAtWord recognise (previous.map Char.toUpper) (asciiUpper text) =
      (Phrase.searchAtWord recognise previous text).map inCapitals := by
  induction text generalizing previous with
  | nil => rfl
  | cons c rest ih =>
      have hhere := h (c :: rest)
      have hrest := ih (some c)
      rw [asciiUpper_cons] at hhere
      rw [Option.map_some] at hrest
      simp only [asciiUpper_cons, Phrase.searchAtWord, any_isWordChar_toUpper, hhere,
        hrest]
      split
      · rfl
      · rw [Option.map_or]

end search

end Phrase

/-- A header with its name in capitals. -/
def Header.inCapitals (header : Header) : Header :=
  ⟨asciiUpper header.name, header.opening⟩

/-- A site with its name in capitals. -/
def TableSite.inCapitals (site : TableSite) : TableSite :=
  ⟨asciiUpper site.name, site.opening, site.closing⟩

namespace Header

variable (text : Text)

@[simp] theorem afterTemporary?_asciiUpper :
    afterTemporary? (asciiUpper text) = (afterTemporary? text).map asciiUpper := by
  simp only [afterTemporary?, afterSpacedKeyword?_asciiUpper, ← Option.map_or,
    Option.getD_map]

@[simp] theorem afterIfNotExists?_asciiUpper :
    afterIfNotExists? (asciiUpper text) =
      (afterIfNotExists? text).map asciiUpper := by
  simp only [afterIfNotExists?, Option.bind_eq_bind, afterSpacedKeyword?_asciiUpper,
    Option.bind_map, Option.map_bind, Function.comp_def]

@[simp] theorem read?_asciiUpper :
    read? (asciiUpper text) =
      (read? text).map (Prod.map asciiUpper asciiUpper) := by
  simp only [read?, Option.bind_eq_bind, afterSpacedKeyword?_asciiUpper,
    afterTemporary?_asciiUpper, afterIfNotExists?_asciiUpper, Option.getD_map,
    nameBeforeBracket?_asciiUpper, Option.bind_map, Option.map_bind, Function.comp_def]

/-- The headers of a text in capitals open where those of the text do. -/
theorem searchFrom_asciiUpper (previous : Option Char) (offset skip : Nat) :
    searchFrom (previous.map Char.toUpper) offset skip (asciiUpper text) =
      (searchFrom previous offset skip text).map inCapitals := by
  induction text generalizing previous offset skip with
  | nil => rfl
  | cons c rest ih =>
      have hnext := fun offset skip => ih (some c) offset skip
      simp only [Option.map_some] at hnext
      cases skip with
      | succ left =>
          simp only [asciiUpper_cons, searchFrom, utf8Size_toUpper, hnext]
      | zero =>
          have hhere : (if (previous.map Char.toUpper).any isWordChar then none
                else read? (asciiUpper (c :: rest))) =
              (if previous.any isWordChar then none else read? (c :: rest)).map
                (Prod.map asciiUpper asciiUpper) := by
            rw [any_isWordChar_toUpper, read?_asciiUpper]
            split <;> rfl
          rw [asciiUpper_cons] at hhere
          simp only [asciiUpper_cons, searchFrom, utf8Size_toUpper, hhere]
          cases (if previous.any isWordChar = true then none
              else read? (c :: rest)) with
          | none => exact hnext _ _
          | some found =>
              simp only [Option.map_some, Prod.map_fst, Prod.map_snd,
                ← asciiUpper_cons, length_asciiUpper, take_asciiUpper,
                byteLength_asciiUpper, hnext, List.map_cons]
              rfl

@[simp] theorem all_asciiUpper :
    all (asciiUpper text) = (all text).map inCapitals :=
  searchFrom_asciiUpper text none 0 0

end Header

@[simp] theorem TableSite.all_asciiUpper (lexis : Lexis) (text : Text) :
    all lexis (asciiUpper text) = (all lexis text).map inCapitals := by
  rw [all, all, Header.all_asciiUpper, Lexis.bracketPairs_asciiUpper,
    List.filterMap_map, List.map_filterMap]
  congr 1
  funext header
  simp only [Function.comp_apply, ofHeader?, Header.inCapitals, Option.map_map]
  rfl

@[simp] theorem TableSite.body_asciiUpper (text : Text) (opening closing : Nat) :
    body (asciiUpper text) opening closing =
      asciiUpper (body text opening closing) :=
  between_asciiUpper text _ _

namespace TableOption

variable (text : Text)

theorem afterAny?_asciiUpper (keywords : List Text) :
    afterAny? keywords (asciiUpper text) =
      (afterAny? keywords text).map asciiUpper := by
  simp only [afterAny?, List.map_findSome?, Function.comp_def, afterKeyword?_asciiUpper]

theorem afterName?_asciiUpper :
    afterName? (asciiUpper text) = (afterName? text).map asciiUpper := by
  have hcharset : ∀ text, afterCharset? (asciiUpper text) =
      (afterCharset? text).map asciiUpper := by
    intro text
    simp only [afterCharset?, afterAny?_asciiUpper, afterSpacedKeyword?_asciiUpper,
      afterKeyword?_asciiUpper, Option.bind_map, Option.map_bind, Function.comp_def,
      Option.map_or]
  rw [afterName?, afterName?, afterAny?_asciiUpper, afterSpacedKeyword?_asciiUpper,
    Option.getD_map, hcharset, Option.map_or]

theorem afterLiteral?_asciiUpper (fallback : Option Text) :
    afterLiteral? (fallback.map asciiUpper) (asciiUpper text) =
      (afterLiteral? fallback text).map asciiUpper := by
  fun_induction afterLiteral? fallback text with
  | case1 => rfl
  | case2 => simp [afterLiteral?]
  | case3 fallback c hc => simp [afterLiteral?, toUpper_eq_iff, hc]
  | case4 fallback rest ih => simpa [afterLiteral?] using ih
  | case5 fallback next rest hnext =>
      simp [afterLiteral?, toUpper_eq_iff, hnext]
  | case6 fallback rest => simp [afterLiteral?]
  | case7 fallback next rest hnext _ ih =>
      simpa [afterLiteral?, toUpper_eq_iff, hnext] using ih
  | case8 fallback c next rest hquote hback ih =>
      simpa [afterLiteral?, toUpper_eq_iff, hquote, hback] using ih

theorem afterValue?_asciiUpper :
    afterValue? (asciiUpper text) = (afterValue? text).map asciiUpper := by
  cases text with
  | nil => rfl
  | cons c rest =>
      have hliteral := afterLiteral?_asciiUpper rest none
      rw [Option.map_none] at hliteral
      simp (disch := decide) only [asciiUpper_cons, afterValue?, toUpper_eq_iff,
        isWordChar_toUpper, hliteral, dropWhile_asciiUpper _ isWordChar_toUpper]
      split
      · rfl
      · split <;> rfl

theorem after?_asciiUpper :
    after? (asciiUpper text) = (after? text).map asciiUpper := by
  have hcomma : ∀ text, dropOne (· == ',') (asciiUpper text) =
      asciiUpper (dropOne (· == ',') text) := fun text =>
    dropOne_asciiUpper text fun _ => toUpper_beq (by decide)
  have hequals : ∀ text, dropOne (· == '=') (asciiUpper text) =
      asciiUpper (dropOne (· == '=') text) := fun text =>
    dropOne_asciiUpper text fun _ => toUpper_beq (by decide)
  simp only [after?, Option.bind_eq_bind, trimStart_asciiUpper,
    hcomma, afterName?_asciiUpper, Option.bind_map,
    Option.map_bind]
  congr 1
  funext named
  simp only [Function.comp_apply, trimStart_asciiUpper, hequals,
    afterValue?_asciiUpper]

@[simp] theorem afterAll_asciiUpper :
    afterAll (asciiUpper text) = asciiUpper (afterAll text) := by
  fun_induction afterAll text with
  | case1 text hnone =>
      rw [afterAll.eq_def, after?_asciiUpper, hnone]
      rfl
  | case2 text rest hsome ih =>
      rw [afterAll.eq_def, after?_asciiUpper, hsome]
      exact ih

end TableOption

namespace CleanText

@[simp] theorem unquoteNames_asciiUpper (dialect : Dialect) (text : Text) :
    unquoteNames dialect (asciiUpper text) =
      asciiUpper (unquoteNames dialect text) := by
  have hquotes : ∀ c : Char, dialect.nameQuotes.contains c.toUpper =
      dialect.nameQuotes.contains c := by
    intro c
    cases dialect <;> simp [Dialect.nameQuotes, toUpper_eq_iff]
  rw [unquoteNames, unquoteNames, Lexis.trace_asciiUpper, List.filter_map,
    List.map_map, asciiUpper, List.map_map]
  congr 1
  apply List.filter_congr
  intro glyph _
  simp only [Function.comp_apply, Glyph.asciiUpper, hquotes]

@[simp] theorem isTerminated_asciiUpper (text : Text) :
    isTerminated (asciiUpper text) = isTerminated text := by
  rw [isTerminated, isTerminated, trimStart_asciiUpper]
  cases trimStart text with
  | nil => rfl
  | cons c rest =>
      simp only [asciiUpper_cons, List.head?_cons]
      exact toUpper_beq (by decide)

theorem terminateSites_asciiUpper (offset : Nat) (text : Text)
    (sites : List TableSite) :
    terminateSites offset (asciiUpper text) (sites.map TableSite.inCapitals) =
      asciiUpper (terminateSites offset text sites) := by
  induction sites generalizing offset text with
  | nil => rfl
  | cons site rest ih =>
      cases hclosing : site.closing with
      | none =>
          simp only [List.map_cons, terminateSites, TableSite.inCapitals, hclosing]
          exact ih offset text
      | some closing =>
          simp only [List.map_cons, terminateSites, TableSite.inCapitals, hclosing]
          split
          · exact ih offset text
          · rw [dropBytes_asciiUpper, TableOption.afterAll_asciiUpper,
              takeBytes_asciiUpper, byteLength_asciiUpper, byteLength_asciiUpper,
              isTerminated_asciiUpper, asciiUpper_append, asciiUpper_append]
            congr 1
            · congr 1
              split <;> rfl
            · exact ih _ _

/-- The clean form of a text in capitals is its clean form in capitals. -/
@[simp] theorem ofText_asciiUpper (dialect : Dialect) (text : Text) :
    ofText dialect (asciiUpper text) = asciiUpper (ofText dialect text) := by
  rw [ofText, ofText]
  split
  · rw [terminateTables, terminateTables, unquoteNames_asciiUpper,
      TableSite.all_asciiUpper, terminateSites_asciiUpper]
  · rfl

end CleanText

end DdlDiagram
