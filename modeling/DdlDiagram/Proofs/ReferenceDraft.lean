/-
Foreign keys of one column as they are written: with the column or in a clause of their
own.  The names are those that a column may be given; which of them are read as the name
of a table is decided by their signs.
-/
import DdlDiagram.Proofs.ClausePlace
import DdlDiagram.Proofs.TypeReading
import DdlDiagram.Proofs.WordSearch

namespace DdlDiagram

open Text Phrase

/-- A name that a column may be given. -/
structure ColumnName where
  text : Text
  accepted : Clause.isColumnName text = true

namespace ColumnName

variable (name : ColumnName)

theorem plain : IsPlainName name.text :=
  Clause.isPlainName_of_isColumnName name.accepted

theorem ne_nil : name.text ≠ [] := name.plain.1

theorem isWord : IsWord name.text := name.plain.isWord

/-- The characters of a name are neither signs nor quotes. -/
theorem not_mem_of_sign {sign : Char}
    (hsign : (isAlphanumeric sign || sign == '_' || sign == '$') = false) :
    sign ∉ name.text := by
  intro hmem
  have hplain := name.plain.2 sign hmem
  simp only [Bool.or_eq_false_iff, beq_eq_false_iff_ne] at hsign
  rcases hplain with hc | rfl | rfl
  · rw [hsign.1.1] at hc
    contradiction
  · exact hsign.1.2 rfl
  · exact hsign.2 rfl

theorem unmarked : Unmarked name.text := by
  have hall : ∀ mark ∈ marks,
      (isAlphanumeric mark || mark == '_' || mark == '$') = false := by
    decide
  intro c hc hmark
  exact name.not_mem_of_sign (hall c hmark) hc

theorem isQuote_of_mem {c : Char} (hc : c ∈ name.text) : Clause.isQuote c = false := by
  have hall : ∀ quote ∈ ['`', '"', '[', ']'],
      (isAlphanumeric quote || quote == '_' || quote == '$') = false := by
    decide
  rw [Bool.eq_false_iff]
  intro hquote
  apply name.not_mem_of_sign (hall c _) hc
  simpa [Clause.isQuote, or_assoc] using hquote

theorem unquoted_text : Clause.unquoted name.text = name.text :=
  Clause.unquoted_eq_self fun _ hc => name.isQuote_of_mem hc

/-- A list of the one name is read as it. -/
theorem columnNames_text : Clause.columnNames name.text = [name.text] := by
  have hcomma : ',' ∉ name.text := fun hmem => name.unmarked _ hmem (by decide)
  have hbracket : '(' ∉ name.text := fun hmem => name.unmarked _ hmem (by decide)
  have hfirst : firstWord (name.text ++ []) = name.text :=
    firstWord_isWord_append name.isWord (by simp [Breaks])
  rw [List.append_nil] at hfirst
  rw [Clause.columnNames, splitAt_of_not_mem hcomma, List.map_singleton, hfirst,
    Clause.before_of_not_mem hbracket, name.unquoted_text]
  exact List.filter_cons_of_pos (by simp [name.ne_nil])

/-- A name of word characters is read up to the bracket behind it. -/
theorem quotedWord?_bracket (hword : IsWordName name.text) {bracket : Char}
    (hbracket : bracket ∈ ['(', ')']) (behind : Text) :
    quotedWord? (name.text ++ bracket :: behind) = some (name.text, bracket :: behind) := by
  have hall : ∀ bracket ∈ ['(', ')'],
      isWordChar bracket = false ∧ closesName bracket = false := by
    decide
  apply quotedWord?_word hword.1 hword.2
  · intro c hc
    rw [← Option.some.inj hc]
    exact (hall bracket hbracket).1
  · intro c hc
    rw [← Option.some.inj hc]
    exact (hall bracket hbracket).2

theorem nameBeforeBracket?_word (hword : IsWordName name.text) (behind : Text) :
    nameBeforeBracket? (name.text ++ '(' :: behind) = some (name.text, behind) := by
  have hbracket : trimStart ('(' :: behind) = '(' :: behind := rfl
  rw [nameBeforeBracket?_of_word (name.quotedWord?_bracket hword (by decide) behind), hbracket]
  exact if_pos rfl

/-- Behind the word in front of another name stands a sign. -/
theorem exists_sign (hword : ¬ IsWordName name.text) :
    ∃ word sign rest, name.text = word ++ sign :: rest ∧
      (∀ c ∈ word, isWordChar c = true) ∧ isWordChar sign = false := by
  have hsplit := List.takeWhile_append_dropWhile (p := isWordChar) (l := name.text)
  have hchars : ∀ c ∈ name.text.takeWhile isWordChar, isWordChar c = true :=
    fun c hc => List.mem_takeWhile_imp hc
  have hstop := stops_dropWhile isWordChar name.text
  cases hrest : name.text.dropWhile isWordChar with
  | nil =>
      rw [hrest, List.append_nil] at hsplit
      rw [hsplit] at hchars
      exact absurd ⟨name.ne_nil, hchars⟩ hword
  | cons sign rest =>
      rw [hrest] at hsplit hstop
      exact ⟨_, sign, rest, hsplit.symm, hchars, hstop sign rfl⟩

/-- Another name is not read as that of a table: the sign is neither a bracket nor a
dot. -/
theorem nameBeforeBracket?_of_not (hword : ¬ IsWordName name.text) (behind : Text) :
    nameBeforeBracket? (name.text ++ '(' :: behind) = none := by
  obtain ⟨word, sign, rest, hsplit, hchars, hsign⟩ := name.exists_sign hword
  have hmem : sign ∈ name.text := by simp [hsplit]
  have hquote := name.isQuote_of_mem hmem
  simp only [Clause.isQuote, Bool.or_eq_false_iff] at hquote
  have hopens : opensName sign = false := by simp [opensName, hquote]
  have hcloses : closesName sign = false := by simp [closesName, hquote]
  have hbracket : sign ≠ '(' := by
    rintro rfl
    exact name.unmarked _ hmem (by decide)
  have hdot : sign ≠ '.' := by
    rintro rfl
    exact name.not_mem_of_sign (by decide) hmem
  rw [hsplit, List.append_assoc, List.cons_append]
  by_cases hempty : word = []
  · apply nameBeforeBracket?_of_none
    simp [hempty, quotedWord?, dropOne, hopens, hsign]
  · have hread : quotedWord? (word ++ sign :: (rest ++ '(' :: behind)) =
        some (word, sign :: (rest ++ '(' :: behind)) := by
      apply quotedWord?_word hempty hchars
      · intro c hc
        rwa [← Option.some.inj hc]
      · intro c hc
        rwa [← Option.some.inj hc]
    rw [nameBeforeBracket?_of_word hread, trimStart_of_solid (name.isWord.2 sign hmem)]
    simp [hbracket, hdot]

end ColumnName

/-- A column that refers to a column of another table. -/
structure ReferenceDraft where
  column : ColumnName
  typeName : Identifier
  type : ColumnType
  known : typeName.Names type
  table : ColumnName
  target : ColumnName

namespace ReferenceDraft

/-- The column with its type. -/
def declared (draft : ReferenceDraft) : Text :=
  draft.column.text ++ ' ' :: draft.typeName.text

/-- The column that is referred to. -/
def cited (draft : ReferenceDraft) : Text :=
  draft.table.text ++ '(' :: (draft.target.text ++ [')'])

/-- The reference is part of the column's clause. -/
def inline (draft : ReferenceDraft) : Text :=
  draft.declared ++ " REFERENCES ".toList ++ draft.cited

/-- The clause of the reference on its own. -/
def clause (draft : ReferenceDraft) : Text :=
  "FOREIGN KEY (".toList ++ (draft.column.text ++ (") REFERENCES ".toList ++ draft.cited))

/-- The column and its reference are two clauses. -/
def separate (draft : ReferenceDraft) : Text :=
  draft.declared ++ ", ".toList ++ draft.clause

example : separate
    { column := ⟨"a".toList, by decide⟩
      typeName := ⟨"int".toList, by decide⟩
      type := .int
      known := by decide
      table := ⟨"t".toList, by decide⟩
      target := ⟨"c".toList, by decide⟩ } =
    "a int, FOREIGN KEY (a) REFERENCES t(c)".toList := by
  decide

variable (draft : ReferenceDraft)

theorem inline_eq : draft.inline = draft.column.text ++ ' ' :: (draft.typeName.text ++
    ' ' :: ("REFERENCES".toList ++ ' ' :: draft.cited)) := by
  have hwords : " REFERENCES ".toList = ' ' :: ("REFERENCES".toList ++ [' ']) := by decide
  rw [inline, declared, hwords]
  simp only [List.append_assoc, List.cons_append, List.nil_append]

theorem clause_eq : draft.clause = "FOREIGN".toList ++ ' ' :: ("KEY".toList ++ ' ' ::
    (('(' :: (draft.column.text ++ [')'])) ++ ' ' ::
      ("REFERENCES".toList ++ ' ' :: draft.cited))) := by
  change "FOREIGN".toList ++ ' ' :: ("KEY".toList ++ ' ' :: '(' :: (draft.column.text ++
    ')' :: ' ' :: ("REFERENCES".toList ++ ' ' :: draft.cited))) = _
  simp only [List.append_assoc, List.cons_append, List.nil_append]

theorem isBlank_of_mem_cited {c : Char} (hc : c ∈ draft.cited) : isBlank c = false := by
  simp only [cited, List.mem_append, List.mem_cons, List.not_mem_nil, or_false] at hc
  rcases hc with hc | rfl | hc | rfl
  · exact draft.table.isWord.2 c hc
  · decide
  · exact draft.target.isWord.2 c hc
  · decide

theorem unmarked_declared : Unmarked draft.declared :=
  draft.column.unmarked.append (unmarked_space.append draft.typeName.unmarked)

theorem reads_cited (lexis : Lexis) : lexis.Reads false 0 draft.cited 0 :=
  (lexis.quiet_unmarked draft.table.unmarked).reads.append
    ((lexis.reads_opening false 0).append
      ((lexis.quiet_unmarked draft.target.unmarked).reads.append
        (lexis.reads_closing false 0)))

theorem isClause_declared : TableBody.IsClause draft.declared :=
  .of_framed draft.column.isWord draft.typeName.isWord [' '] fun lexis =>
    (lexis.quiet_unmarked draft.unmarked_declared).reads

theorem isClause_inline : TableBody.IsClause draft.inline := by
  have hreferences : Unmarked " REFERENCES ".toList := by decide
  have hframed := TableBody.IsClause.of_framed draft.column.isWord
    (show IsWord [')'] by decide) (' ' :: (draft.typeName.text ++ (" REFERENCES ".toList ++
      (draft.table.text ++ '(' :: draft.target.text))))
  have hshape : draft.inline = draft.column.text ++ ((' ' :: (draft.typeName.text ++
      (" REFERENCES ".toList ++ (draft.table.text ++ '(' :: draft.target.text)))) ++ [')']) := by
    simp only [inline, declared, cited, List.append_assoc, List.cons_append]
  rw [hshape]
  apply hframed
  intro lexis
  rw [← hshape]
  exact (lexis.quiet_unmarked (draft.unmarked_declared.append hreferences)).reads.append
    (draft.reads_cited lexis)

theorem isClause_clause : TableBody.IsClause draft.clause := by
  have hfront : Unmarked ("FOREIGN".toList ++ ' ' :: ("KEY".toList ++ [' '])) := by decide
  have hreferences : Unmarked (' ' :: ("REFERENCES".toList ++ [' '])) := by decide
  have hframed := TableBody.IsClause.of_framed (show IsWord "FOREIGN".toList by decide)
    (show IsWord [')'] by decide) (' ' :: ("KEY".toList ++ ' ' :: (('(' :: (draft.column.text ++
      [')'])) ++ ' ' :: ("REFERENCES".toList ++ ' ' :: (draft.table.text ++
        '(' :: draft.target.text)))))
  have hshape : draft.clause = "FOREIGN".toList ++ ((' ' :: ("KEY".toList ++ ' ' :: (('(' ::
      (draft.column.text ++ [')'])) ++ ' ' :: ("REFERENCES".toList ++ ' ' ::
        (draft.table.text ++ '(' :: draft.target.text))))) ++ [')']) := by
    rw [clause_eq]
    simp only [cited, List.append_assoc, List.cons_append]
  rw [hshape]
  apply hframed
  intro lexis
  rw [← hshape, clause_eq]
  have hcolumn := (lexis.reads_opening false 0).append
    ((lexis.quiet_unmarked draft.column.unmarked).reads.append (lexis.reads_closing false 0))
  have hwhole := (lexis.quiet_unmarked hfront).reads.append (hcolumn.append
    ((lexis.quiet_unmarked hreferences).reads.append (draft.reads_cited lexis)))
  simpa using hwhole

end ReferenceDraft

end DdlDiagram
