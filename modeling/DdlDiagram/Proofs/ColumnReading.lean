/-
How the clause of a column is read: it declares the column's name and its type and
no key, whatever its default holds.
-/
import DdlDiagram.Proofs.ClauseKind
import DdlDiagram.Proofs.Printing

namespace DdlDiagram

open Text Phrase

namespace ColumnDraft

variable (draft : ColumnDraft)

/-- The name of a column is no reserved word, in whatever letter case. -/
theorem asciiLower_ne {word : Text} (hword : word ∈ Clause.reservedWords) :
    asciiLower draft.name.text ≠ asciiLower word := by
  intro heq
  have hnone := List.any_eq_false.mp draft.unreserved word hword
  exact hnone (sameName_iff.mpr heq)

theorem upper_name_ne {word : Text} (hword : word ∈ Clause.reservedWords) :
    upper draft.name.text ≠ word :=
  upper_ne (fun _ hc => draft.name.isNameChar_of_mem hc)
    (draft.asciiLower_ne hword)

theorem foldCapital_name_ne {word : Text} (hword : word ∈ Clause.reservedWords) :
    draft.name.text.map foldCapital ≠ word :=
  map_foldCapital_ne (fun _ hc => draft.name.isNameChar_of_mem hc)
    (draft.asciiLower_ne hword)

/-- The name of a type is no reserved word. -/
theorem asciiLower_typeName_ne {word : Text}
    (hword : word ∈ Clause.reservedWords) :
    asciiLower draft.typeName ≠ asciiLower word := by
  have hall : ∀ entry ∈ ColumnType.sqlNames, ∀ word ∈ Clause.reservedWords,
      entry.1 ≠ asciiLower word := by
    decide +kernel
  exact hall _ draft.known word hword

theorem upper_typeName_ne {word : Text} (hword : word ∈ Clause.reservedWords) :
    upper draft.typeName ≠ word :=
  upper_ne (fun _ hc => ColumnDraft.isNameChar_of_mem hc)
    (draft.asciiLower_typeName_ne hword)

theorem foldCapital_typeName_ne {word : Text}
    (hword : word ∈ Clause.reservedWords) :
    draft.typeName.map foldCapital ≠ word :=
  map_foldCapital_ne (fun _ hc => ColumnDraft.isNameChar_of_mem hc)
    (draft.asciiLower_typeName_ne hword)

/-- The type of a column is found by the name it is written with. -/
theorem ofSqlName?_typeName :
    ColumnType.ofSqlName? draft.typeName = some draft.type := by
  have hall : ∀ entry ∈ ColumnType.sqlNames,
      ColumnType.sqlNames.lookup (trim (before '(' entry.1)) = some entry.2 := by
    decide +kernel
  rw [ColumnType.ofSqlName?, trim_isWord draft.isWord_typeName,
    lower_eq_asciiLower fun c hc => ColumnDraft.isNameChar_of_mem hc]
  exact hall _ draft.known

/-- A column's default is a word and a literal, if anything. -/
theorem default_cases (escapes : Bool) :
    draft.default escapes = [] ∨ ∃ content, draft.default escapes =
      ' ' :: ("DEFAULT".toList ++ ' ' :: literalOf escapes content) := by
  rw [ColumnDraft.default]
  cases draft.initial with
  | none => exact Or.inl rfl
  | some content =>
      have hword : " DEFAULT ".toList = ' ' :: ("DEFAULT".toList ++ [' ']) := by
        decide
      right
      refine ⟨content, ?_⟩
      dsimp only
      rw [hword, List.cons_append, List.append_assoc, List.singleton_append]

end ColumnDraft

section size

variable {size : TypeSize} {c : Char}

theorem TypeSize.isBlank_of_mem (hc : c ∈ size.text) : isBlank c = false := by
  rcases TypeSize.mem_text hc with hdigit | hbracket
  · apply isBlank_of_isWordChar
    exact isWordChar_of_isNameChar (isNameChar_of_isDigit hdigit)
  · have hall : ∀ c ∈ ['(', ',', ')'], isBlank c = false := by decide
    exact hall c hbracket

/-- A size begins with a bracket, if it is written. -/
theorem TypeSize.head_text (hc : c ∈ size.text.head?) : c = '(' := by
  cases size with
  | unsized => contradiction
  | length | scaled => exact (Option.some.inj hc).symm

end size

namespace ColumnDraft

variable (dialect : Dialect) (draft : ColumnDraft)

theorem isWord_sized : IsWord (draft.typeName ++ draft.size.text) := by
  constructor
  · simp [draft.typeName_ne_nil]
  · intro c hc
    rcases List.mem_append.mp hc with hc | hc
    · exact draft.isWord_typeName.2 c hc
    · exact TypeSize.isBlank_of_mem hc

/-- The words of a column's clause: its name, its type with its size, and the word
`DEFAULT` in front of all others. -/
theorem words_clause :
    ∃ others, words (draft.clause dialect.plainSpelling) =
        draft.name.text :: (draft.typeName ++ draft.size.text) :: others ∧
      ∀ next ∈ others.head?, next = "DEFAULT".toList := by
  rw [draft.clause_plain, ← List.append_assoc draft.typeName,
    words_isWord_append draft.name.isWord isBlank_space]
  rcases draft.default_cases dialect.backslashEscapes with
    hnone | ⟨content, hsome⟩
  · refine ⟨[], ?_, by simp⟩
    rw [hnone, List.append_nil, words_of_isWord draft.isWord_sized]
  · refine ⟨"DEFAULT".toList ::
      words (literalOf dialect.backslashEscapes content), ?_, ?_⟩
    · rw [hsome, words_isWord_append draft.isWord_sized isBlank_space,
        words_isWord_append (by decide) isBlank_space]
    · intro next hnext
      exact (Option.some.inj hnext).symm

/-- The name of a column is in no list of words that a clause may begin with. -/
theorem contains_upper_name {list : List Text}
    (hlist : ∀ word ∈ list, word ∈ Clause.reservedWords) :
    list.contains (upper draft.name.text) = false := by
  rw [← Bool.not_eq_true, List.contains_iff_mem]
  intro hmem
  exact draft.upper_name_ne (hlist _ hmem) rfl

theorem isColumnName_name : Clause.isColumnName draft.name.text = true := by
  have hchars : ∀ c ∈ draft.name.text,
      (isAlphanumeric c || c == '_' || c == '$') = true := by
    intro c hc
    exact forall_isNameChar
      (p := fun c => isAlphanumeric c || c == '_' || c == '$')
      (by decide +kernel) (draft.name.isNameChar_of_mem hc)
  have hnever : Clause.neverColumn.contains (upper draft.name.text) = false :=
    draft.contains_upper_name (by decide)
  have hempty : draft.name.text.isEmpty = false := by
    simpa using draft.name.ne_nil
  rw [Clause.isColumnName, hempty, hnever, List.all_eq_true.mpr hchars]
  rfl

/-- A column's clause declares its name and the name of its type. -/
theorem declared?_clause :
    Clause.declared? (draft.clause dialect.plainSpelling) =
      some (draft.name.text, draft.typeName) := by
  obtain ⟨others, hwords, hothers⟩ := draft.words_clause dialect
  have htype : (draft.typeName ++ draft.size.text).takeWhile Char.isAlpha =
      draft.typeName := by
    apply takeWhile_solid_append
    · intro c hc
      exact List.all_eq_true.mp draft.alphabetic c hc
    · intro c hc
      rw [TypeSize.head_text hc]
      decide
  have hempty : draft.typeName.isEmpty = false := by
    simpa using draft.typeName_ne_nil
  have hreserved : Clause.reservedWords.contains (upper draft.typeName) =
      false := by
    rw [← Bool.not_eq_true, List.contains_iff_mem]
    intro hmem
    exact draft.upper_typeName_ne hmem rfl
  have hvarying : Clause.isVarying draft.typeName others.head? = false := by
    have hdefault : "varying".toList.isPrefixOf (lower "DEFAULT".toList) =
        false := by decide
    cases hnext : others.head? with
    | none => simp [Clause.isVarying]
    | some next =>
        rw [hothers next hnext, Clause.isVarying, Option.any_some, hdefault,
          Bool.and_false]
  rw [Clause.declared?, hwords]
  dsimp only
  rw [htype, draft.name.unquoted_text, draft.isColumnName_name, hempty,
    hreserved, hvarying]
  rfl

end ColumnDraft

section blanking

variable {lexis : Lexis} {dialect : Dialect} {text : Text}

variable (dialect) in
/-- Text without quotes is code and stays. -/
theorem blanked_code (htext : '\'' ∉ text) :
    dialect.literalLexis.run .code text = .code ∧
      (dialect.literalLexis.trace .code text).flatMap
        dialect.literalLexis.blanked = text := by
  induction text with
  | nil => exact ⟨rfl, rfl⟩
  | cons c rest ih =>
      have hc : c ≠ '\'' := by
        rintro rfl
        exact htext List.mem_cons_self
      have hstep : dialect.literalLexis.step .code c = .code :=
        Lexis.step_literalLexis (Or.inl rfl) hc
      obtain ⟨hrun, hblanked⟩ := ih fun hmem =>
        htext (List.mem_cons_of_mem c hmem)
      rw [Lexis.run_cons, Lexis.trace_cons, hstep, List.flatMap_cons, hblanked]
      exact ⟨hrun, rfl⟩

/-- The contents of a literal are blanked out. -/
theorem blanked_contents (h : isContents lexis.escapes text = true) :
    ∀ c ∈ (lexis.trace .literal text).flatMap lexis.blanked, c = ' ' := by
  fun_induction isContents lexis.escapes text with
  | case1 => simp
  | case2 c =>
      simp only [Bool.and_eq_true, bne_iff_ne, Bool.not_eq_true'] at h
      simp [Lexis.blanked, h.1, h.2]
  | case3 next rest ih =>
      simp only [Bool.and_eq_true, beq_iff_eq] at h
      obtain ⟨rfl, hrest⟩ := h
      have htrace : (lexis.trace .literal ('\'' :: '\'' :: rest)).flatMap lexis.blanked =
          ' ' :: ' ' :: (lexis.trace .literal rest).flatMap lexis.blanked := rfl
      rw [htrace]
      exact List.forall_mem_cons.mpr ⟨rfl, List.forall_mem_cons.mpr ⟨rfl, ih hrest⟩⟩
  | case4 c next rest hquote hescape ih =>
      obtain ⟨hescapes, rfl⟩ : lexis.escapes = true ∧ c = '\\' := by
        simpa using hescape
      have htrace : (lexis.trace .literal ('\\' :: next :: rest)).flatMap
          lexis.blanked = ' ' :: ' ' :: (lexis.trace .literal rest).flatMap
            lexis.blanked := by
        simp [Lexis.step, Lexis.blanked, hescapes]
      rw [htrace]
      exact List.forall_mem_cons.mpr ⟨rfl, List.forall_mem_cons.mpr ⟨rfl, ih h⟩⟩
  | case5 c next rest hquote hescape ih =>
      have hbackslash : (lexis.escapes && c == '\\') = false := by simpa using hescape
      have htrace : (lexis.trace .literal (c :: next :: rest)).flatMap lexis.blanked =
          ' ' :: (lexis.trace .literal (next :: rest)).flatMap lexis.blanked := by
        simp [Lexis.step, Lexis.blanked, hquote, hbackslash]
      rw [htrace]
      exact List.forall_mem_cons.mpr ⟨rfl, ih h⟩

theorem blankLiterals_code (htext : '\'' ∉ text) :
    dialect.literalLexis.blankLiterals text = text := by
  obtain ⟨hrun, hblanked⟩ := blanked_code dialect htext
  rw [Lexis.blankLiterals, hblanked, hrun]
  exact List.append_nil text

variable (dialect) in
/-- Of a literal at the end its quotes stay. -/
theorem blankLiterals_literal {front : Text} (hfront : '\'' ∉ front)
    (content : Text) :
    ∃ blanks, (∀ c ∈ blanks, c = ' ') ∧ dialect.literalLexis.blankLiterals
        (front ++ ' ' :: literalOf dialect.literalLexis.escapes content) =
      front ++ ' ' :: '\'' :: (blanks ++ ['\'']) := by
  obtain ⟨hrun, hblanked⟩ := blanked_code dialect hfront
  have htrace := Lexis.trace_literal dialect.literalLexis content
    (show Lexis.Outside .code from Or.inl rfl)
  have hclosed := Lexis.run_literal dialect.literalLexis content
    (show Lexis.Outside .code from Or.inl rfl)
  refine ⟨_, blanked_contents (Lexis.isContents_escaped dialect.literalLexis.escapes
    content), ?_⟩
  rw [Lexis.blankLiterals, Lexis.trace_append, Lexis.run_append, hrun, htrace,
    hclosed, List.flatMap_append, hblanked]
  simp [Lexis.blanked]

end blanking

namespace ColumnDraft

variable (dialect : Dialect) (draft : ColumnDraft)

/-- In front of its literal a column's clause has no quote. -/
theorem not_mem_clause : '\'' ∉ draft.name.text ++ ' ' ::
    (draft.typeName ++ draft.size.text) := by
  have hmark : '\'' ∈ marks := by decide
  intro hmem
  rcases List.mem_append.mp hmem with hmem | hmem
  · exact draft.name.not_mem_of_mem_marks hmark hmem
  · rcases List.mem_cons.mp hmem with hmem | hmem
    · exact absurd hmem (by decide)
    · rcases List.mem_append.mp hmem with hmem | hmem
      · exact draft.unmarked_typeName _ hmem hmark
      · rcases TypeSize.mem_text hmem with hdigit | hbracket
        · exact absurd hdigit (by decide)
        · exact absurd hbracket (by decide)

/-- What is left of a column's default when its literal is blanked out. -/
def IsBlankedDefault (tail : Text) : Prop :=
  tail = [] ∨ ∃ blanks, (∀ c ∈ blanks, c = ' ') ∧
    tail = ' ' :: ("DEFAULT".toList ++ ' ' :: '\'' :: (blanks ++ ['\'']))

/-- A column's clause with its literal blanked out. -/
theorem blankLiterals_clause :
    ∃ tail, dialect.literalLexis.blankLiterals
        (draft.clause dialect.plainSpelling) =
      draft.name.text ++ ' ' :: (draft.typeName ++ (draft.size.text ++ tail)) ∧
      IsBlankedDefault tail := by
  rcases draft.default_cases dialect.backslashEscapes with
    hnone | ⟨content, hsome⟩
  · refine ⟨[], ?_, Or.inl rfl⟩
    rw [draft.clause_plain, hnone, List.append_nil,
      blankLiterals_code draft.not_mem_clause]
  · have hquote : '\'' ∉ (draft.name.text ++ ' ' ::
        (draft.typeName ++ draft.size.text)) ++ ' ' :: "DEFAULT".toList := by
      have hword : '\'' ∉ ' ' :: "DEFAULT".toList := by decide
      intro hmem
      rcases List.mem_append.mp hmem with hmem | hmem
      · exact draft.not_mem_clause hmem
      · exact hword hmem
    have hclause : draft.clause dialect.plainSpelling =
        ((draft.name.text ++ ' ' :: (draft.typeName ++ draft.size.text)) ++
          ' ' :: "DEFAULT".toList) ++
            ' ' :: literalOf dialect.literalLexis.escapes content := by
      rw [draft.clause_plain, hsome]
      simp only [List.append_assoc, List.cons_append]
      rfl
    obtain ⟨blanks, hblanks, hcode⟩ := blankLiterals_literal dialect hquote content
    refine ⟨_, ?_, Or.inr ⟨blanks, hblanks, rfl⟩⟩
    rw [hclause, hcode]
    simp only [List.append_assoc, List.cons_append]

end ColumnDraft

section search

variable {α : Type} {recognise : Text → Option α} {k : Char} {keyword : Text}

theorem TypeSize.foldCapital_ne_of_mem {size : TypeSize}
    (hkeyword : IsKeyword (k :: keyword)) {c : Char} (hc : c ∈ size.text) :
    foldCapital c ≠ k := by
  rcases TypeSize.mem_text hc with hdigit | hbracket
  · have hupper : (!c.isDigit || !(foldCapital c).isUpper) = true := by
      exact forall_isNameChar
        (p := fun c => !c.isDigit || !(foldCapital c).isUpper)
        (by decide +kernel) (isNameChar_of_isDigit hdigit)
    rintro rfl
    rw [hdigit, (hkeyword.2 _ List.mem_cons_self).1] at hupper
    contradiction
  · have hall : ∀ c ∈ ['(', ',', ')'], isWordChar c = false := by decide
    exact foldCapital_ne hkeyword (hall c hbracket)

/-- No phrase but a default begins in what is left of a default. -/
theorem ColumnDraft.IsBlankedDefault.searchAtWord {tail : Text}
    (htail : IsBlankedDefault tail) (hkeyword : IsKeyword (k :: keyword))
    (hopens : OpensWith (k :: keyword) recognise)
    (hdefault : k :: keyword ≠ "DEFAULT".toList) (previous : Option Char) :
    Phrase.searchAtWord recognise previous tail = none := by
  have hblank : foldCapital ' ' ≠ k := foldCapital_ne hkeyword (by decide)
  have hquote : foldCapital '\'' ≠ k := foldCapital_ne hkeyword (by decide)
  rcases htail with rfl | ⟨blanks, hblanks, rfl⟩
  · rfl
  · have hliteral : ∀ previous, Phrase.searchAtWord recognise previous
        (' ' :: '\'' :: (blanks ++ ['\''])) = none := by
      apply searchAtWord_cons_eq_none hopens hblank
      apply searchAtWord_cons_eq_none hopens hquote
      apply searchAtWord_eq_none_of_chars hopens
      · intro c hc
        rw [hblanks c hc]
        exact hblank
      · exact searchAtWord_cons_eq_none hopens hquote fun _ => rfl
    apply searchAtWord_cons_eq_none hopens hblank
    exact searchAtWord_eq_none_of_word hkeyword hopens (by decide)
      (fun heq => hdefault heq.symm) (ends_space _) hliteral

/-- The name of a type ends in front of its size, its default or its clause's
end. -/
theorem TypeSize.ends_text (size : TypeSize) {tail : Text}
    (htail : ColumnDraft.IsBlankedDefault tail) :
    ∀ c ∈ (size.text ++ tail).head?, isWordChar c = false := by
  intro c hc
  rw [List.head?_append] at hc
  cases hhead : size.text.head? with
  | some first =>
      rw [hhead] at hc
      rw [← Option.some.inj hc, TypeSize.head_text hhead]
      decide
  | none =>
      rw [hhead, Option.none_or] at hc
      rcases htail with rfl | ⟨blanks, _, rfl⟩
      · contradiction
      · exact ends_space _ c hc

/-- No phrase but a default begins in a column's clause outside its literal. -/
theorem ColumnDraft.searchAtWord_clause (dialect : Dialect) (draft : ColumnDraft)
    (hkeyword : IsKeyword (k :: keyword))
    (hopens : OpensWith (k :: keyword) recognise)
    (hreserved : k :: keyword ∈ Clause.reservedWords)
    (hdefault : k :: keyword ≠ "DEFAULT".toList) :
    searchAtWord recognise none (dialect.literalLexis.blankLiterals
      (draft.clause dialect.plainSpelling)) = none := by
  obtain ⟨tail, hcode, htail⟩ := draft.blankLiterals_clause dialect
  have hsize : ∀ previous, searchAtWord recognise previous
      (draft.size.text ++ tail) = none :=
    searchAtWord_eq_none_of_chars hopens
      (fun c hc => TypeSize.foldCapital_ne_of_mem hkeyword hc)
      (htail.searchAtWord hkeyword hopens hdefault)
  have htype : ∀ previous, searchAtWord recognise previous
      (draft.typeName ++ (draft.size.text ++ tail)) = none := by
    apply searchAtWord_eq_none_of_word hkeyword hopens _
      (draft.foldCapital_typeName_ne hreserved) (draft.size.ends_text htail) hsize
    intro c hc
    exact isWordChar_of_isNameChar (ColumnDraft.isNameChar_of_mem hc)
  have hblank : foldCapital ' ' ≠ k := foldCapital_ne hkeyword (by decide)
  rw [hcode]
  exact searchAtWord_eq_none_of_word hkeyword hopens
    (fun c hc => draft.name.isWordChar_of_mem hc)
    (draft.foldCapital_name_ne hreserved) (ends_space _)
    (searchAtWord_cons_eq_none hopens hblank htype) none

end search

namespace Clause

theorem opensWith_keyWordsHere? : OpensWith "PRIMARY".toList keyWordsHere? := by
  intro text h
  rw [keyWordsHere?, h]
  rfl

theorem opensWith_referenceHere? :
    OpensWith "REFERENCES".toList referenceHere? := by
  intro text h
  rw [referenceHere?, h]
  rfl

theorem leadingWord_identifier (identifier : Identifier) (behind : Text) :
    leadingWord (identifier.text ++ ' ' :: behind) = upper identifier.text := by
  rw [leadingWord, firstWord_isWord_append identifier.isWord (breaks_space _),
    identifier.before_text (by decide), identifier.unquoted_text]

end Clause

/-- The clause of a column declares just its name and its type. -/
theorem ColumnDraft.read_clause (dialect : Dialect) (draft : ColumnDraft) :
    Clause.read dialect.literalLexis (draft.clause dialect.plainSpelling) =
      .column ⟨draft.name.text, draft.typeName, false, none⟩ := by
  have hleading : Clause.leadingWord (draft.clause dialect.plainSpelling) =
      upper draft.name.text := by
    rw [draft.clause_plain]
    exact Clause.leadingWord_identifier draft.name _
  have htable : Clause.tableKey? (draft.clause dialect.plainSpelling) = none := by
    rw [Clause.tableKey?, hleading, draft.contains_upper_name (by decide)]
    rfl
  have hindex : Clause.isIndex (draft.clause dialect.plainSpelling) = false := by
    rw [Clause.isIndex, hleading, draft.contains_upper_name (by decide)]
    rfl
  have hkey : Clause.declaresKey (dialect.literalLexis.blankLiterals
      (draft.clause dialect.plainSpelling)) = false := by
    rw [Clause.declaresKey, draft.searchAtWord_clause dialect (by decide)
      Clause.opensWith_keyWordsHere? (by decide) (by decide)]
    rfl
  have hreference : Clause.reference? (dialect.literalLexis.blankLiterals
      (draft.clause dialect.plainSpelling)) = none := by
    rw [Clause.reference?, draft.searchAtWord_clause dialect (by decide)
      Clause.opensWith_referenceHere? (by decide) (by decide)]
  rw [Clause.read_of_declared? (Clause.isDeclaring_iff.mpr ⟨htable, hindex⟩)
    (draft.declared?_clause dialect), hkey, hreference]

end DdlDiagram
