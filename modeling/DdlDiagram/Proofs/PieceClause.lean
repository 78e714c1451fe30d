/-
Clauses that are made up of the same pieces.  Their literals are not looked into but
in two places: the key of a table is searched for in the whole clause, and `VARYING` is
looked for at the word behind the type, which may begin in a literal.  Where these two
readings meet code only, the clauses are read alike; the others are read alike always.
-/
import DdlDiagram.Proofs.Blanking
import DdlDiagram.Proofs.KeyPlace

namespace DdlDiagram

open Text Phrase

/-- Whether the first thing that a search reads in a text begins in code and ends in
front of the next quote; so it is where nothing is read. -/
def Lexis.firstInCode {α : Type} (lexis : Lexis) (recognise : Text → Option α) :
    Mode → Text → Bool
  | _, [] => true
  | mode, c :: rest =>
      if (recognise (c :: rest)).isSome then
        mode.inCode && (recognise ((c :: rest).takeWhile (· != '\''))).isSome
      else lexis.firstInCode recognise (lexis.step mode c) rest

/-- The text up to the end of its first word. -/
def Text.uptoWord (text : Text) : Text :=
  text.takeWhile isBlank ++ firstWord text

namespace Clause

/-- Whether the key of a table that a clause may hold is read from code: the foreign
key that is found first, or else the primary key. -/
def keyInCode (lexis : Lexis) (clause : Text) : Bool :=
  !keyWords.contains (leadingWord clause) ||
    (lexis.firstInCode foreignKeyHere? .code clause &&
      ((foreignKey? clause).isSome || lexis.firstInCode primaryKeyHere? .code clause))

/-- Whether the word with the type of a column ends in code, where the next word
counts for the type. -/
def typeInCode (lexis : Lexis) (clause : Text) : Bool :=
  (plainlyDeclared? clause).all fun declared =>
    !isCharacter declared.2 ||
      (lexis.run .code (uptoWord clause ++ uptoWord (afterWord clause))).inCode

end Clause

namespace Piece

variable {α : Type} {lexis : Lexis} {mode : Mode} {pieces : List Piece}

/-- What is known up to a quote is the same in texts that are made up of the same
pieces. -/
theorem eq_of_stops {f : Text → α} (hf : StopsAtQuote f) (front : Text)
    (version other : Bool) :
    f (front ++ textOf version pieces) = f (front ++ textOf other pieces) := by
  induction pieces generalizing front with
  | nil => rfl
  | cons piece rest ih =>
      cases piece with
      | plain c =>
          have hnext := ih (front ++ [c])
          rw [List.append_assoc, List.append_assoc] at hnext
          exact hnext
      | literal contents =>
          rw [textOf_literal, textOf_literal]
          exact (hf.cut front _).trans (hf.cut front _).symm

section search

variable {recognise : Text → Option α}

/-- In a literal nothing is read when the first thing is read in code. -/
theorem search_append_of_solid (hnil : recognise [] = none) {front rest : Text}
    (hsolid : ∀ glyph ∈ lexis.trace mode front,
      glyph.mode.inLiteral = true ∨ glyph.char = '\'')
    (h : lexis.firstInCode recognise mode (front ++ rest) = true) :
    search recognise (front ++ rest) = search recognise rest ∧
      lexis.firstInCode recognise (lexis.run mode front) rest = true := by
  induction front generalizing mode with
  | nil => exact ⟨rfl, h⟩
  | cons c front ih =>
      obtain ⟨hc, hfront⟩ := List.forall_mem_cons.mp hsolid
      rw [List.cons_append, Lexis.firstInCode] at h
      split at h
      · rw [Bool.and_eq_true] at h
        rcases hc with hliteral | hquote
        · rw [Lexis.inLiteral_of_inCode h.1] at hliteral
          contradiction
        · have hc : c = '\'' := hquote
          have htaken : (c :: (front ++ rest)).takeWhile (· != '\'') = [] :=
            List.takeWhile_cons_of_neg (by simp [hc])
          rw [htaken, hnil] at h
          exact absurd h.2 Bool.false_ne_true
      · next hnone =>
          rw [Option.not_isSome_iff_eq_none] at hnone
          rw [List.cons_append, search, hnone, Option.none_or]
          exact ih hfront h

/-- Where the first thing that is read is read in code, the texts give the same. -/
theorem search_textOf (hnil : recognise [] = none)
    (hgrows : ∀ {text result}, recognise text = some result → ∀ behind,
      recognise (text ++ behind) = some result)
    (h : Sound lexis mode pieces)
    (hfirst : ∀ version, lexis.firstInCode recognise mode (textOf version pieces) = true)
    (version other : Bool) :
    search recognise (textOf version pieces) =
      search recognise (textOf other pieces) := by
  induction pieces generalizing mode with
  | nil => rfl
  | cons piece rest ih =>
      cases piece with
      | plain c =>
          -- What one of the texts reads here ends in front of the next quote, so every
          -- text has it; where none reads anything, all of them go on.
          by_cases hread : ∃ version, (recognise (c :: textOf version rest)).isSome = true
          · obtain ⟨reading, hread⟩ := hread
            have hcode := hfirst reading
            rw [textOf_plain, Lexis.firstInCode, if_pos hread, Bool.and_eq_true,
              Option.isSome_iff_exists] at hcode
            obtain ⟨result, hresult⟩ := hcode.2
            have htaken : StopsAtQuote fun text : Text => text.takeWhile (· != '\'') :=
              fun text hquote behind => takeWhile_append_of_mark (by decide) hquote behind
            have hsome : ∀ version, recognise (c :: textOf version rest) = some result := by
              intro version
              have hsame : (c :: textOf reading rest).takeWhile (· != '\'') =
                  (c :: textOf version rest).takeWhile (· != '\'') :=
                eq_of_stops htaken [c] reading version
              rw [hsame] at hresult
              have hgrown := hgrows hresult
                ((c :: textOf version rest).dropWhile (· != '\''))
              rw [List.takeWhile_append_dropWhile] at hgrown
              exact hgrown
            rw [textOf_plain, textOf_plain, search, search, hsome, hsome, Option.some_or,
              Option.some_or]
          · have hnone : ∀ version, recognise (c :: textOf version rest) = none := by
              intro version
              rw [← Option.not_isSome_iff_eq_none]
              exact fun hsome => hread ⟨version, hsome⟩
            rw [textOf_plain, textOf_plain, search, search, hnone, hnone, Option.none_or,
              Option.none_or]
            apply ih h
            intro version
            have hcode := hfirst version
            rw [textOf_plain, Lexis.firstInCode, hnone version] at hcode
            exact hcode
      | literal contents =>
          obtain ⟨hmode, hcontents, hrest⟩ := h
          have hskip := fun version =>
            search_append_of_solid hnil (solid_literal hmode (hcontents version))
              (hfirst version)
          have hlater : ∀ version,
              lexis.firstInCode recognise .closed (textOf version rest) = true := by
            intro version
            rw [← run_literal hmode (hcontents version)]
            exact (hskip version).2
          exact (hskip version).1.trans ((ih hrest hlater).trans (hskip other).1.symm)

end search

section words

variable {p : Char → Bool}

/-- What is dropped up to a literal is the same in texts that are made up of the same
pieces. -/
theorem exists_dropWhile (pieces : List Piece)
    (hquote : '\'' ∉ (textOf false pieces).takeWhile p) :
    ∃ taken rest, pieces = taken.map plain ++ rest ∧ ∀ version,
      (textOf version pieces).takeWhile p = taken ∧
        (textOf version pieces).dropWhile p = textOf version rest := by
  induction pieces with
  | nil => exact ⟨[], [], rfl, fun _ => ⟨rfl, rfl⟩⟩
  | cons piece rest ih =>
      cases piece with
      | plain c =>
          by_cases hc : p c = true
          · rw [textOf_plain, List.takeWhile_cons_of_pos hc, List.mem_cons, not_or]
              at hquote
            obtain ⟨taken, left, hpieces, htaken⟩ := ih hquote.2
            refine ⟨c :: taken, left, by rw [hpieces]; rfl, fun version => ?_⟩
            rw [textOf_plain, List.takeWhile_cons_of_pos hc,
              List.dropWhile_cons_of_pos hc, (htaken version).1]
            exact ⟨rfl, (htaken version).2⟩
          · refine ⟨[], plain c :: rest, rfl, fun version => ?_⟩
            rw [textOf_plain, List.takeWhile_cons_of_neg hc,
              List.dropWhile_cons_of_neg hc]
            exact ⟨rfl, rfl⟩
      | literal contents =>
          have hc : ¬p '\'' = true := by
            intro hc
            apply hquote
            rw [textOf_literal, List.takeWhile_cons_of_pos hc]
            exact List.mem_cons_self
          refine ⟨[], literal contents :: rest, rfl, fun version => ?_⟩
          rw [textOf_literal, List.takeWhile_cons_of_neg hc,
            List.dropWhile_cons_of_neg hc]
          exact ⟨rfl, rfl⟩

theorem exists_dropBlanks (pieces : List Piece) :
    ∃ taken rest, pieces = taken.map plain ++ rest ∧ ∀ version,
      (textOf version pieces).takeWhile isBlank = taken ∧
        trimStart (textOf version pieces) = textOf version rest := by
  apply exists_dropWhile
  intro hmem
  have := List.mem_takeWhile_imp hmem
  contradiction

/-- A first word without a quote is the same in all the texts. -/
theorem exists_afterWord (hword : '\'' ∉ firstWord (textOf false pieces)) :
    ∃ taken rest, pieces = taken.map plain ++ rest ∧ ∀ version,
      uptoWord (textOf version pieces) = taken ∧
        afterWord (textOf version pieces) = textOf version rest := by
  obtain ⟨blanks, rest, rfl, hblanks⟩ := exists_dropBlanks pieces
  rw [firstWord, (hblanks false).2] at hword
  obtain ⟨word, left, rfl, hword⟩ := exists_dropWhile rest hword
  refine ⟨blanks ++ word, left, by simp, fun version => ?_⟩
  rw [uptoWord, firstWord, afterWord, (hblanks version).1, (hblanks version).2,
    (hword version).1]
  exact ⟨rfl, (hword version).2⟩

/-- What is taken from a literal without ending in it is the whole literal. -/
theorem forall_of_inCode (hp : p '\'' = true) {contents : Text}
    (hmode : mode.opensLiteral = true) (h : isContents lexis.escapes contents = true)
    {behind : Text}
    (hcode : (lexis.run mode
      (('\'' :: (contents ++ '\'' :: behind)).takeWhile p)).inCode = true) :
    ∀ c ∈ '\'' :: (contents ++ ['\'']), p c = true := by
  have hcontents : contents.dropWhile p = [] := by
    -- A character of the contents that stops the taking would stand in the literal.
    by_contra hne
    obtain ⟨stop, rest, hdrop⟩ := List.exists_cons_of_ne_nil hne
    have hstop : p stop = false := stops_dropWhile p contents stop (by rw [hdrop]; rfl)
    rw [List.takeWhile_cons_of_pos hp, (span_append_of_ne_nil hne _).1, Lexis.run_cons,
      step_quote hmode] at hcode
    have hglyph : (⟨lexis.run .literal (contents.takeWhile p), stop⟩ : Glyph) ∈
        lexis.trace .literal contents := by
      have htrace := lexis.trace_append .literal (contents.takeWhile p)
        (contents.dropWhile p)
      rw [List.takeWhile_append_dropWhile, hdrop] at htrace
      rw [htrace]
      exact List.mem_append_right _ List.mem_cons_self
    rcases (lexis.enclosed_of_isContents h).solid _ hglyph with hliteral | hquote
    · rw [Lexis.inLiteral_of_inCode hcode] at hliteral
      contradiction
    · rw [show stop = '\'' from hquote, hp] at hstop
      contradiction
  intro c hc
  rcases List.mem_cons.mp hc with rfl | hc
  · exact hp
  · rcases List.mem_append.mp hc with hc | hc
    · rw [List.dropWhile_eq_nil_iff] at hcontents
      exact hcontents c hc
    · rw [List.mem_singleton.mp hc]
      exact hp

/-- What is dropped without ending in a literal is the same pieces in all the texts. -/
theorem exists_dropWhile_of_inCode (hp : p '\'' = true) (h : Sound lexis mode pieces)
    (hcode : ∀ version,
      (lexis.run mode ((textOf version pieces).takeWhile p)).inCode = true) :
    ∃ rest, ∀ version, (textOf version pieces).dropWhile p = textOf version rest := by
  induction pieces generalizing mode with
  | nil => exact ⟨[], fun _ => rfl⟩
  | cons piece rest ih =>
      cases piece with
      | plain c =>
          by_cases hc : p c = true
          · obtain ⟨left, hleft⟩ := ih h (by
              intro version
              have hstart := hcode version
              rw [textOf_plain, List.takeWhile_cons_of_pos hc] at hstart
              exact hstart)
            refine ⟨left, fun version => ?_⟩
            rw [textOf_plain, List.dropWhile_cons_of_pos hc, hleft version]
          · refine ⟨plain c :: rest, fun version => ?_⟩
            rw [textOf_plain, List.dropWhile_cons_of_neg hc]
      | literal contents =>
          obtain ⟨hmode, hcontents, hrest⟩ := h
          have hall : ∀ version, ∀ c ∈ (literal contents).text version, p c = true := by
            intro version
            have hstart := hcode version
            rw [textOf_literal] at hstart
            exact forall_of_inCode hp hmode (hcontents version) hstart
          obtain ⟨left, hleft⟩ := ih hrest (by
            intro version
            have hstart := hcode version
            rw [textOf_cons, List.takeWhile_append_of_pos (hall version), Lexis.run_append,
              text, run_literal hmode (hcontents version)] at hstart
            exact hstart)
          refine ⟨left, fun version => ?_⟩
          rw [textOf_cons, List.dropWhile_append_of_pos (hall version), hleft version]

end words

section declared

variable {dialect : Dialect}

/-- A second word that ends in code ends in the same place in all the texts. -/
theorem exists_afterWords (h : Sound lexis .code pieces)
    (hword : '\'' ∉ firstWord (textOf false pieces))
    (hcode : ∀ version, (lexis.run .code (uptoWord (textOf version pieces) ++
      uptoWord (afterWord (textOf version pieces)))).inCode = true) :
    ∃ rest, ∀ version,
      afterWord (afterWord (textOf version pieces)) = textOf version rest := by
  obtain ⟨taken, middle, rfl, hafter⟩ := exists_afterWord hword
  obtain ⟨blanks, start, rfl, hblanks⟩ := exists_dropBlanks middle
  have hsound : Sound lexis (lexis.run (lexis.run .code taken) blanks) start := by
    have hmiddle := (sound_append.mp h).2
    rw [textOf_map_plain] at hmiddle
    have hstart := (sound_append.mp hmiddle).2
    rw [textOf_map_plain] at hstart
    exact hstart
  obtain ⟨rest, hrest⟩ := exists_dropWhile_of_inCode (p := fun c => !isBlank c)
    (by decide) hsound (by
      intro version
      have hstart := hcode version
      rw [(hafter version).1, (hafter version).2, uptoWord, firstWord,
        (hblanks version).1, (hblanks version).2, Lexis.run_append,
        Lexis.run_append] at hstart
      exact hstart)
  refine ⟨rest, fun version => ?_⟩
  rw [(hafter version).2, afterWord, (hblanks version).2, hrest version]

/-- Where the type ends in code, the same is declared in all the texts. -/
theorem declared?_textOf (h : Sound lexis .code pieces)
    (htype : ∀ version, Clause.typeInCode lexis (textOf version pieces) = true)
    (version other : Bool) :
    Clause.declared? (textOf version pieces) =
      Clause.declared? (textOf other pieces) := by
  have hplain : ∀ version, Clause.plainlyDeclared? (textOf version pieces) =
      Clause.plainlyDeclared? (textOf false pieces) := fun version =>
    eq_of_stops Clause.stopsAtQuote_plainlyDeclared? [] version false
  rw [Clause.declared?_eq, Clause.declared?_eq, hplain version, hplain other]
  cases hread : Clause.plainlyDeclared? (textOf false pieces) with
  | none => rfl
  | some declared =>
      obtain ⟨name, typeName⟩ := declared
      simp only [Option.map_some]
      -- Only behind such a type the third word counts.
      by_cases hcharacter : Clause.isCharacter typeName = true
      · have hword : '\'' ∉ firstWord (textOf false pieces) := by
          intro hmem
          rw [Clause.plainlyDeclared?_of_quote hmem] at hread
          contradiction
        obtain ⟨rest, hrest⟩ := exists_afterWords h hword (by
          intro version
          have hcode := htype version
          rw [Clause.typeInCode, hplain version, hread, Option.all_some,
            hcharacter] at hcode
          exact hcode)
        have hvarying : Clause.startsVarying (textOf version rest) =
            Clause.startsVarying (textOf other rest) :=
          eq_of_stops Clause.stopsAtQuote_startsVarying [] version other
        rw [hrest version, hrest other, hvarying]
      · simp only [hcharacter, Bool.false_and]

end declared

end Piece

namespace Clause

variable {dialect : Dialect} {lexis : Lexis} {pieces : List Piece}

open Piece

theorem tableKey?_textOf (h : Sound lexis .code pieces)
    (hkey : ∀ version, keyInCode lexis (textOf version pieces) = true)
    (version other : Bool) :
    tableKey? (textOf version pieces) = tableKey? (textOf other pieces) := by
  have hleading : ∀ version, keyWords.contains (leadingWord (textOf version pieces)) =
      keyWords.contains (leadingWord (textOf false pieces)) := fun version =>
    eq_of_stops (stopsAtQuote_leadingWord (by decide)) [] version false
  rw [tableKey?, tableKey?, hleading version, hleading other]
  by_cases hled : keyWords.contains (leadingWord (textOf false pieces)) = true
  · have hfirst : ∀ version, lexis.firstInCode foreignKeyHere? .code
          (textOf version pieces) = true ∧
        ((foreignKey? (textOf version pieces)).isSome ||
          lexis.firstInCode primaryKeyHere? .code (textOf version pieces)) = true := by
      intro version
      have hcode := hkey version
      rw [keyInCode, hleading version, hled, Bool.not_true, Bool.false_or,
        Bool.and_eq_true] at hcode
      exact hcode
    have hforeign : ∀ version, foreignKey? (textOf version pieces) =
        foreignKey? (textOf false pieces) := fun version =>
      search_textOf rfl foreignKeyHere?_append h (fun version => (hfirst version).1)
        version false
    rw [hforeign version, hforeign other]
    cases hread : foreignKey? (textOf false pieces) with
    | some links => rfl
    | none =>
        have hprimary : primaryKey? (textOf version pieces) =
            primaryKey? (textOf other pieces) := by
          refine search_textOf rfl primaryKeyHere?_append h (fun version => ?_)
            version other
          have hcode := (hfirst version).2
          rw [hforeign version, hread, Option.isSome_none, Bool.false_or] at hcode
          exact hcode
        rw [hprimary]
  · rw [if_neg hled, if_neg hled]

/-- The keys of a column are looked for outside literals. -/
theorem keys_textOf (h : Sound lexis .code pieces) (version other : Bool) :
    declaresKey (lexis.blankLiterals (textOf version pieces)) =
        declaresKey (lexis.blankLiterals (textOf other pieces)) ∧
      reference? (lexis.blankLiterals (textOf version pieces)) =
        reference? (lexis.blankLiterals (textOf other pieces)) := by
  have halike := blankLiterals_textOf h version other
  constructor
  · rw [declaresKey, declaresKey, halike.searchAtWord_eq stopsAtQuote_keyWordsHere?
      opensWith_keyWordsHere? (by decide)]
  · exact halike.searchAtWord_eq stopsAtQuote_referenceHere? opensWith_referenceHere?
      (by decide) none

/-- Clauses that are made up of the same pieces, and that are read from code, say the
same, or none says anything. -/
theorem read_textOf (h : Sound lexis .code pieces)
    (hkey : ∀ version, keyInCode lexis (textOf version pieces) = true)
    (htype : ∀ version, typeInCode lexis (textOf version pieces) = true)
    (version other : Bool) :
    read lexis (textOf version pieces) = read lexis (textOf other pieces) ∨
      (∃ text, read lexis (textOf version pieces) = unknown text) ∧
        ∃ text, read lexis (textOf other pieces) = unknown text := by
  have hindex : isIndex (textOf version pieces) = isIndex (textOf other pieces) :=
    eq_of_stops stopsAtQuote_isIndex [] version other
  have hdeclared : Declaration.read? lexis (textOf version pieces) =
      Declaration.read? lexis (textOf other pieces) := by
    obtain ⟨hkeys, hreference⟩ := keys_textOf h version other
    simp only [Declaration.read?, declared?_textOf h htype version other, hkeys,
      hreference]
  rw [read, read, tableKey?_textOf h hkey version other, hindex, hdeclared]
  cases tableKey? (textOf other pieces) with
  | some clause => exact Or.inl rfl
  | none =>
      cases isIndex (textOf other pieces) with
      | true => exact Or.inl rfl
      | false =>
          cases Declaration.read? lexis (textOf other pieces) with
          | some declaration => exact Or.inl rfl
          | none => exact Or.inr ⟨⟨_, rfl⟩, ⟨_, rfl⟩⟩

end Clause

end DdlDiagram
