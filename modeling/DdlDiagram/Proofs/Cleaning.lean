/-
A printed script is cleaned to the same script without quotes around names: every
name loses its quotes, every literal keeps its contents, and as each definition
ends with a semicolon, none is added and no option dropped.
-/
import DdlDiagram.CleanText
import DdlDiagram.Proofs.Site

namespace DdlDiagram

open Text

namespace CleanText

open DdlDiagram.Lexis (Outside)

/-- Whether a character stays in the text without name quotes. -/
def isKept (dialect : Dialect) (glyph : Glyph) : Bool :=
  glyph.mode.inLiteral || !dialect.nameQuotes.contains glyph.char

/-- One text is the other without its name quotes, wherever in code it
stands. -/
structure Unquotes (dialect : Dialect) (quoted plain : Text) : Prop where
  outside : ∀ mode, Outside mode →
    Outside (dialect.literalLexis.run mode quoted)
  dropped : ∀ mode, Outside mode →
    ((dialect.literalLexis.trace mode quoted).filter (isKept dialect)).map
      Glyph.char = plain

variable {dialect : Dialect} {quoted plain quoted' plain' : Text}

theorem unquotes_nil (dialect : Dialect) : Unquotes dialect [] [] :=
  ⟨fun _ hmode => hmode, fun _ _ => rfl⟩

theorem Unquotes.append (hleft : Unquotes dialect quoted plain)
    (hright : Unquotes dialect quoted' plain') :
    Unquotes dialect (quoted ++ quoted') (plain ++ plain') where
  outside := by
    intro mode hmode
    rw [Lexis.run_append]
    exact hright.outside _ (hleft.outside mode hmode)
  dropped := by
    intro mode hmode
    rw [Lexis.trace_append, List.filter_append, List.map_append,
      hleft.dropped mode hmode, hright.dropped _ (hleft.outside mode hmode)]

theorem Unquotes.unquoteNames (h : Unquotes dialect quoted plain) :
    CleanText.unquoteNames dialect quoted = plain :=
  h.dropped .code (Or.inl rfl)

theorem inLiteral_of_outside {mode : Mode} (h : Outside mode) :
    mode.inLiteral = false :=
  Lexis.inLiteral_of_inCode h.inCode

theorem outside_char {mode : Mode} {c : Char} (hmode : Outside mode)
    (hquote : c ≠ '\'') : Outside (dialect.literalLexis.run mode [c]) := by
  rw [Lexis.run_cons, Lexis.run_nil, Lexis.step_literalLexis hmode hquote]
  exact Or.inl rfl

theorem unquotes_plain {c : Char} (hquote : c ≠ '\'')
    (hc : c ∉ dialect.nameQuotes) : Unquotes dialect [c] [c] where
  outside := fun _ hmode => outside_char hmode hquote
  dropped := by
    intro mode hmode
    have hkept : isKept dialect ⟨mode, c⟩ = true := by
      rw [isKept, inLiteral_of_outside hmode]
      simpa using hc
    rw [Lexis.trace_cons, Lexis.trace_nil, List.filter_cons_of_pos hkept]
    rfl

theorem not_mem_nameQuotes (dialect : Dialect) : '\'' ∉ dialect.nameQuotes := by
  cases dialect <;> decide

theorem unquotes_quote {c : Char} (hc : c ∈ dialect.nameQuotes) :
    Unquotes dialect [c] [] where
  outside := by
    intro mode hmode
    apply outside_char hmode
    rintro rfl
    exact not_mem_nameQuotes dialect hc
  dropped := by
    intro mode hmode
    have hkept : ¬ isKept dialect ⟨mode, c⟩ = true := by
      rw [isKept, inLiteral_of_outside hmode]
      simpa using hc
    rw [Lexis.trace_cons, Lexis.trace_nil, List.filter_cons_of_neg hkept]
    rfl

/-- Text without quotes of any kind. -/
def Quoteless (text : Text) : Prop :=
  ∀ c ∈ text, c ≠ '\'' ∧ Clause.isQuote c = false

instance (text : Text) : Decidable (Quoteless text) :=
  inferInstanceAs (Decidable (∀ c ∈ text, c ≠ '\'' ∧ Clause.isQuote c = false))

/-- Text without quotes stays as it is. -/
theorem unquotes_self {text : Text} (h : Quoteless text) :
    Unquotes dialect text text := by
  have hquotes : ∀ c ∈ dialect.nameQuotes, Clause.isQuote c = true := by
    cases dialect <;> decide
  induction text with
  | nil => exact unquotes_nil dialect
  | cons c rest ih =>
      obtain ⟨hquote, hname⟩ := h c List.mem_cons_self
      have hc : Unquotes dialect [c] [c] := by
        apply unquotes_plain hquote
        intro hmem
        rw [hquotes c hmem] at hname
        contradiction
      apply hc.append
      apply ih
      intro other hother
      exact h other (List.mem_cons_of_mem c hother)

/-- The quotes in front of a name, and those behind it, are dropped. -/
theorem unquotes_quotes {quotes : Text}
    (h : ∀ c ∈ quotes, c ∈ dialect.nameQuotes) : Unquotes dialect quotes [] := by
  induction quotes with
  | nil => exact unquotes_nil dialect
  | cons c rest ih =>
      apply (unquotes_quote (h c List.mem_cons_self)).append
      apply ih
      intro other hother
      exact h other (List.mem_cons_of_mem c hother)

/-- The quotes of a literal and what stands between them stay. -/
theorem unquotes_literal (dialect : Dialect) (content : Text) :
    Unquotes dialect (' ' :: literalOf dialect.backslashEscapes content)
      (' ' :: literalOf dialect.backslashEscapes content) where
  outside := (Lexis.quiet_literal dialect.literalLexis content).outside
  dropped := by
    intro mode hmode
    have hblank : ' ' ∉ dialect.nameQuotes := by
      cases dialect <;> decide
    rw [List.filter_eq_self.mpr, Lexis.map_char_trace]
    intro glyph hglyph
    rw [isKept, Bool.or_eq_true]
    rcases Lexis.solid_literal content hmode hglyph with hliteral | hchar | hchar
    · exact Or.inl hliteral
    · right
      simpa [hchar] using hblank
    · right
      simpa [hchar] using not_mem_nameQuotes dialect

theorem quoteless_of_isNameChar {text : Text}
    (h : ∀ c ∈ text, isNameChar c = true) : Quoteless text := by
  intro c hc
  refine ⟨?_, isQuote_of_isNameChar (h c hc)⟩
  rintro rfl
  exact absurd (h _ hc) (by decide)

theorem unquotes_flatMap {α : Type} {left right : α → Text} {items : List α}
    (h : ∀ item ∈ items, Unquotes dialect (left item) (right item)) :
    Unquotes dialect (items.flatMap left) (items.flatMap right) := by
  induction items with
  | nil => exact unquotes_nil dialect
  | cons item rest ih =>
      apply (h item List.mem_cons_self).append
      apply ih
      intro other hother
      exact h other (List.mem_cons_of_mem item hother)

theorem unquotes_joined {α : Type} {left right : α → Text} {items : List α}
    {separator : Text} (hseparator : Quoteless separator)
    (h : ∀ item ∈ items, Unquotes dialect (left item) (right item)) :
    Unquotes dialect (joined separator (items.map left))
      (joined separator (items.map right)) := by
  cases items with
  | nil => exact unquotes_nil dialect
  | cons item rest =>
      rw [List.map_cons, List.map_cons, joined_cons, joined_cons,
        List.flatMap_map, List.flatMap_map]
      apply (h item List.mem_cons_self).append
      apply unquotes_flatMap
      intro other hother
      exact (unquotes_self hseparator).append
        (h other (List.mem_cons_of_mem item hother))

section printing

variable (dialect : Dialect)

theorem unquotes_name (identifier : Identifier) :
    Unquotes dialect (dialect.spelling.name identifier)
      (dialect.plainSpelling.name identifier) := by
  have hopening : ∀ c ∈ dialect.spelling.opening, c ∈ dialect.nameQuotes := by
    cases dialect <;> decide
  have hclosing : ∀ c ∈ dialect.spelling.closing, c ∈ dialect.nameQuotes := by
    cases dialect <;> decide
  have htext : Quoteless identifier.text := quoteless_of_isNameChar fun c hc =>
    identifier.isNameChar_of_mem hc
  exact ((unquotes_quotes hopening).append (unquotes_self htext)).append
    (unquotes_quotes hclosing)

theorem unquotes_names (identifiers : List Identifier) :
    Unquotes dialect (dialect.spelling.names identifiers)
      (dialect.plainSpelling.names identifiers) := by
  apply unquotes_joined (by decide)
  intro identifier _
  exact unquotes_name dialect identifier

theorem quoteless_size (size : TypeSize) : Quoteless size.text := by
  have hbrackets : Quoteless ['(', ',', ')'] := by decide
  intro c hc
  rcases TypeSize.mem_text hc with hdigit | hbracket
  · refine ⟨?_, isQuote_of_isNameChar (isNameChar_of_isDigit hdigit)⟩
    rintro rfl
    contradiction
  · exact hbrackets c hbracket

theorem unquotes_default (draft : ColumnDraft) :
    Unquotes dialect (draft.default dialect.backslashEscapes)
      (draft.default dialect.backslashEscapes) := by
  rw [ColumnDraft.default]
  cases draft.initial with
  | none => exact unquotes_nil dialect
  | some content =>
      have hword : " DEFAULT ".toList = " DEFAULT".toList ++ [' '] := by decide
      have hpiece : Unquotes dialect " DEFAULT".toList " DEFAULT".toList :=
        unquotes_self (by decide)
      have hall := hpiece.append (unquotes_literal dialect content)
      dsimp only
      rw [hword, List.append_assoc]
      exact hall

theorem unquotes_clause (draft : ClauseDraft) :
    Unquotes dialect (draft.text dialect.spelling)
      (draft.text dialect.plainSpelling) := by
  cases draft with
  | column draft =>
      have hblank : Unquotes dialect [' '] [' '] := unquotes_self (by decide)
      have htype : Quoteless draft.typeName := quoteless_of_isNameChar
        fun c hc => ColumnDraft.isNameChar_of_mem hc
      exact (unquotes_name dialect draft.name).append (hblank.append
        ((unquotes_self htype).append
          ((unquotes_self (quoteless_size draft.size)).append
            (unquotes_default dialect draft))))
  | primaryKey columns =>
      exact (unquotes_self (by decide)).append
        ((unquotes_names dialect columns).append (unquotes_self (by decide)))
  | foreignKey draft =>
      exact (unquotes_self (by decide)).append
        ((unquotes_names dialect _).append ((unquotes_self (by decide)).append
          ((unquotes_name dialect draft.table).append
            ((unquotes_self (by decide)).append
              ((unquotes_names dialect _).append (unquotes_self (by decide)))))))

theorem unquotes_statement (draft : TableDraft) :
    Unquotes dialect (draft.statement dialect.spelling)
      (draft.statement dialect.plainSpelling) := by
  have hbody : Unquotes dialect (draft.body dialect.spelling)
      (draft.body dialect.plainSpelling) := by
    apply unquotes_joined (by decide)
    intro clause _
    exact unquotes_clause dialect clause
  have hheader : Unquotes dialect (draft.header dialect.spelling)
      (draft.header dialect.plainSpelling) :=
    (unquotes_self (by decide)).append
      ((unquotes_name dialect draft.name).append (unquotes_self (by decide)))
  have hopening : Unquotes dialect ['('] ['('] := unquotes_self (by decide)
  exact hheader.append (hopening.append
    (hbody.append (unquotes_self (by decide))))

theorem quoteless_of_blanks {blanks : Text} (h : blanks.all isBlank = true) :
    Quoteless blanks := by
  intro c hc
  have hblank := List.all_eq_true.mp h c hc
  constructor
  · exact Lexis.ne_of_isBlank hblank _ (by decide)
  · by_contra hquote
    rw [Bool.not_eq_false] at hquote
    simp only [Clause.isQuote, Bool.or_eq_true, beq_iff_eq] at hquote
    rcases hquote with ((rfl | rfl) | rfl) | rfl <;> simp [isBlank] at hblank

/-- Without its name quotes a script is spelled without them. -/
theorem unquoteNames_sql (script : Script) :
    unquoteNames dialect (script.sql dialect) =
      script.spelled dialect.plainSpelling := by
  have htables : Unquotes dialect (Script.textOf dialect.spelling script.tables)
      (Script.textOf dialect.plainSpelling script.tables) := by
    apply unquotes_flatMap
    intro placed _
    exact (unquotes_self (quoteless_of_blanks placed.blank)).append
      (unquotes_statement dialect placed.draft)
  exact (htables.append
    (unquotes_self (quoteless_of_blanks script.blank))).unquoteNames

end printing

theorem afterKeyword?_semicolon {keyword rest : Text}
    (h : IsKeyword (keyword.take 1)) :
    afterKeyword? keyword (';' :: rest) = none := by
  cases keyword with
  | nil => exact absurd rfl h.1
  | cons k keyword =>
      have hk : foldCapital ';' ≠ k := by
        rintro rfl
        exact absurd (h.2 _ List.mem_cons_self).1 (by decide)
      rw [afterKeyword?, if_neg hk]

theorem afterAny?_semicolon {keywords : List Text}
    (h : ∀ keyword ∈ keywords, IsKeyword (keyword.take 1)) (rest : Text) :
    TableOption.afterAny? keywords (';' :: rest) = none := by
  rw [TableOption.afterAny?, List.findSome?_eq_none_iff]
  intro keyword hkeyword
  exact afterKeyword?_semicolon (h keyword hkeyword)

theorem afterSpacedKeyword?_semicolon {keyword : Text}
    (h : IsKeyword (keyword.take 1)) (rest : Text) :
    Phrase.afterSpacedKeyword? keyword (';' :: rest) = none := by
  rw [Phrase.afterSpacedKeyword?, afterKeyword?_semicolon h]
  rfl

/-- A semicolon begins no option. -/
theorem after?_semicolon (rest : Text) :
    TableOption.after? (';' :: rest) = none := by
  have hstart : trimStart (Phrase.dropOne (· == ',')
      (trimStart (';' :: rest))) = ';' :: rest := by
    rw [trimStart_of_solid (by decide)]
    exact trimStart_of_solid (by decide)
  have hcharset : TableOption.afterCharset? (';' :: rest) = none := by
    rw [TableOption.afterCharset?, afterAny?_semicolon (by decide),
      afterSpacedKeyword?_semicolon (by decide)]
    rfl
  have hname : TableOption.afterName? (';' :: rest) = none := by
    rw [TableOption.afterName?, afterAny?_semicolon (by decide),
      afterSpacedKeyword?_semicolon (by decide), Option.getD_none, hcharset]
    rfl
  rw [TableOption.after?, hstart, hname]
  rfl

theorem afterAll_semicolon (rest : Text) :
    TableOption.afterAll (';' :: rest) = ';' :: rest := by
  rw [TableOption.afterAll]
  split
  · rfl
  · next behind h =>
      rw [after?_semicolon] at h
      contradiction

/-- Definitions that end with a semicolon stay as they are.  The text in front of
them is what is left of the definition before. -/
theorem terminateSites_textOf (dialect : Dialect) (tables : List Placed)
    (trail : Text) (offset : Nat) (pre : Text) :
    terminateSites offset
        (pre ++ (Script.textOf dialect.plainSpelling tables ++ trail))
        (Placed.sites dialect.plainSpelling (offset + byteLength pre) tables) =
      pre ++ (Script.textOf dialect.plainSpelling tables ++ trail) := by
  induction tables generalizing offset pre with
  | nil => rfl
  | cons placed rest ih =>
      let front := pre ++ (placed.lead ++ placed.draft.header dialect.plainSpelling
        ++ '(' :: (placed.draft.body dialect.plainSpelling ++ [')']))
      let tail := ';' :: (Script.textOf dialect.plainSpelling rest ++ trail)
      have htext : pre ++ (Script.textOf dialect.plainSpelling (placed :: rest) ++
          trail) = front ++ tail := by
        rw [Script.textOf_cons]
        simp [front, tail]
      have hlength : byteLength front = byteLength pre + byteLength
          (placed.lead ++ placed.draft.header dialect.plainSpelling) + 1 +
            byteLength (placed.draft.body dialect.plainSpelling) + 1 := by
        simp only [front, byteLength_append, byteLength_cons, byteLength_nil,
          utf8Size_signs]
        omega
      have hclosing : offset + byteLength pre + byteLength
          (placed.lead ++ placed.draft.header dialect.plainSpelling) + 1 +
            byteLength (placed.draft.body dialect.plainSpelling) + 1 =
              offset + byteLength front := by
        omega
      have hsites : offset + byteLength pre + byteLength
          (placed.lead ++ placed.draft.header dialect.plainSpelling) + 1 +
            byteLength (placed.draft.body dialect.plainSpelling) + 2 =
              offset + byteLength front + byteLength [';'] := by
        have hone : byteLength [';'] = 1 := rfl
        omega
      have hended : isTerminated tail = true := by
        rw [isTerminated, trimStart_of_solid (by decide)]
        rfl
      have hih := ih (offset + byteLength front) [';']
      rw [htext, Placed.sites, terminateSites]
      dsimp only
      rw [if_neg (by omega), hclosing, Nat.add_sub_cancel_left,
        takeBytes_append, dropBytes_append, afterAll_semicolon, Nat.sub_self,
        if_pos hended, List.append_nil, hsites]
      exact congrArg (front ++ ·) hih

/-- Terminated definitions stay as they are. -/
theorem terminateTables_spelled (dialect : Dialect) (script : Script) :
    terminateTables dialect (script.spelled dialect.plainSpelling) =
      script.spelled dialect.plainSpelling := by
  rw [terminateTables, Script.sites_spelled]
  exact terminateSites_textOf dialect script.tables script.trail 0 []

/-- A printed script is cleaned to the script without name quotes. -/
theorem ofText_sql (dialect : Dialect) (script : Script) :
    ofText dialect (script.sql dialect) =
      script.spelled dialect.plainSpelling := by
  by_cases hcleaned : dialect.isCleaned = true
  · rw [ofText, if_pos hcleaned, unquoteNames_sql, terminateTables_spelled]
  · have hspelling : dialect.spelling = dialect.plainSpelling := by
      cases dialect with
      | mysql | postgres | mssql => exact absurd rfl hcleaned
      | sqlite | generic => rfl
    rw [ofText, if_neg hcleaned, Script.sql, hspelling]

end CleanText

end DdlDiagram
