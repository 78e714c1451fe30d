/-
The text of a draft without quotes around names: each of its clauses is a passage,
and so is the body that joins them.
-/
import DdlDiagram.Proofs.Passage

namespace DdlDiagram

open Text

section clauses

variable (dialect : Dialect)

theorem ColumnDraft.clause_plain (draft : ColumnDraft) :
    draft.clause dialect.plainSpelling = draft.name.text ++ ' ' ::
      (draft.typeName ++ (draft.size.text ++
        draft.default dialect.backslashEscapes)) := by
  rw [ColumnDraft.clause, dialect.plainSpelling_name]
  rfl

theorem ForeignKeyDraft.clause_plain (draft : ForeignKeyDraft) :
    draft.clause dialect.plainSpelling = "FOREIGN KEY ".toList ++ '(' ::
      (dialect.plainSpelling.names (draft.links.map Prod.fst) ++ ')' ::
        (" REFERENCES ".toList ++ draft.table.text ++ [' '] ++ '(' ::
          (dialect.plainSpelling.names (draft.links.map Prod.snd) ++ [')']))) := by
  have hfirst : "FOREIGN KEY (".toList = "FOREIGN KEY ".toList ++ ['('] := by
    decide
  have hsecond : ") REFERENCES ".toList = ')' :: " REFERENCES ".toList := by
    decide
  have hthird : " (".toList = [' ', '('] := by decide
  have hclause : draft.clause dialect.plainSpelling = "FOREIGN KEY (".toList ++
      (dialect.plainSpelling.names (draft.links.map Prod.fst) ++
        (") REFERENCES ".toList ++ (dialect.plainSpelling.name draft.table ++
          (" (".toList ++ (dialect.plainSpelling.names
            (draft.links.map Prod.snd) ++ [')']))))) := rfl
  rw [hclause, dialect.plainSpelling_name, hfirst, hsecond, hthird]
  simp only [List.append_assoc, List.cons_append, List.nil_append]

theorem unmarked_decimal (count : Nat) : Unmarked (decimal count) := by
  intro c hc
  apply not_mem_marks_of_isWordChar
  exact isWordChar_of_isNameChar
    (isNameChar_of_isDigit (isDigit_of_mem_decimal hc))

/-- A size is made of digits, brackets and a comma. -/
theorem TypeSize.mem_text {size : TypeSize} {c : Char} (hc : c ∈ size.text) :
    c.isDigit = true ∨ c ∈ ['(', ',', ')'] := by
  cases size with
  | unsized => contradiction
  | length count =>
      simp only [TypeSize.text, List.mem_cons, List.mem_append] at hc
      rcases hc with hc | hc | hc
      · exact Or.inr (by simp [hc])
      · exact Or.inl (isDigit_of_mem_decimal hc)
      · exact Or.inr (by simp_all)
  | scaled precision scale =>
      simp only [TypeSize.text, List.mem_cons, List.mem_append] at hc
      rcases hc with hc | hc | hc | hc | hc
      · exact Or.inr (by simp [hc])
      · exact Or.inl (isDigit_of_mem_decimal hc)
      · exact Or.inr (by simp [hc])
      · exact Or.inl (isDigit_of_mem_decimal hc)
      · exact Or.inr (by simp_all)

theorem ColumnDraft.isNameChar_of_mem {draft : ColumnDraft} {c : Char}
    (hc : c ∈ draft.typeName) : isNameChar c = true :=
  isNameChar_of_isAlpha (List.all_eq_true.mp draft.alphabetic c hc)

theorem ColumnDraft.typeName_ne_nil (draft : ColumnDraft) :
    draft.typeName ≠ [] := by
  have hall : ∀ entry ∈ ColumnType.sqlNames, entry.1 ≠ [] := by decide
  intro hnil
  apply hall _ draft.known
  rw [hnil]
  rfl

theorem ColumnDraft.isWord_typeName (draft : ColumnDraft) :
    IsWord draft.typeName := by
  refine ⟨draft.typeName_ne_nil, ?_⟩
  intro c hc
  exact isBlank_of_isWordChar
    (isWordChar_of_isNameChar (ColumnDraft.isNameChar_of_mem hc))

theorem ColumnDraft.unmarked_typeName (draft : ColumnDraft) :
    Unmarked draft.typeName := by
  intro c hc
  exact not_mem_marks_of_isWordChar
    (isWordChar_of_isNameChar (ColumnDraft.isNameChar_of_mem hc))

/-- Text in front of a column's default, which is a literal if anything. -/
theorem passage_default (escapes : Bool) (draft : ColumnDraft) {front : Text}
    (hfront : Unmarked front) :
    Passage escapes false 0 (front ++ draft.default escapes) 0 := by
  cases hinitial : draft.initial with
  | none =>
      rw [ColumnDraft.default, hinitial, List.append_nil]
      exact .plain hfront
  | some content =>
      have hword : " DEFAULT ".toList = " DEFAULT".toList ++ [' '] := by decide
      have hshape : front ++ draft.default escapes =
          (front ++ " DEFAULT".toList) ++ ' ' ::
            (literalOf escapes content ++ []) := by
        rw [ColumnDraft.default, hinitial]
        change front ++ (" DEFAULT ".toList ++ literalOf escapes content) = _
        rw [hword]
        simp only [List.append_assoc, List.cons_append, List.nil_append,
          List.append_nil]
      rw [hshape]
      apply Passage.literal _ _ (.plain unmarked_nil)
      apply hfront.append
      decide

/-- Text of at most two words in front of a column's size and default. -/
theorem passage_size (escapes : Bool) (draft : ColumnDraft) {front : Text}
    (hfront : Unmarked front) (hwords : (words front).length ≤ 2) :
    Passage escapes false 0
      (front ++ (draft.size.text ++ draft.default escapes)) 0 := by
  have hdefault : Passage escapes false 0 ([] ++ draft.default escapes) 0 :=
    passage_default escapes draft unmarked_nil
  cases draft.size with
  | unsized => exact passage_default escapes draft hfront
  | length count =>
      rw [TypeSize.text, List.cons_append, List.append_assoc]
      exact .opening hfront hwords (.closing (unmarked_decimal count) hdefault)
  | scaled precision scale =>
      rw [TypeSize.text, List.cons_append, List.append_assoc, List.cons_append,
        List.append_assoc]
      exact .opening hfront hwords
        (.comma (unmarked_decimal precision) (Or.inr (Nat.lt_succ_self _))
          (.closing (unmarked_decimal scale) hdefault))

theorem passage_column (draft : ColumnDraft) :
    Passage dialect.backslashEscapes false 0
      (draft.clause dialect.plainSpelling) 0 := by
  have hwords : words (draft.name.text ++ [' '] ++ draft.typeName) =
      [draft.name.text, draft.typeName] := by
    rw [List.append_assoc, List.singleton_append,
      words_isWord_append draft.name.isWord isBlank_space,
      words_of_isWord draft.isWord_typeName]
  have hpassage := passage_size dialect.backslashEscapes draft
    ((draft.name.unmarked.append unmarked_space).append draft.unmarked_typeName)
    (by rw [hwords]; exact Nat.le_refl 2)
  rw [draft.clause_plain]
  simpa only [List.append_assoc, List.cons_append, List.nil_append]
    using hpassage

/-- A list of names up to the bracket that closes it. -/
theorem passage_names {escapes : Bool} {entry rest : Text} {last : Nat}
    (hentry : Unmarked entry) (names : List Identifier)
    (hrest : Passage escapes false 0 rest last) :
    Passage escapes false 1 (entry ++
      (names.map Identifier.text).flatMap (", ".toList ++ ·) ++
        ')' :: rest) last := by
  induction names generalizing entry with
  | nil =>
      rw [List.map_nil, List.flatMap_nil, List.append_nil]
      exact .closing hentry hrest
  | cons next names ih =>
      have hnext : Unmarked (' ' :: next.text) := by
        intro c hc
        rcases List.mem_cons.mp hc with rfl | hc
        · decide
        · exact next.unmarked c hc
      have hshape : entry ++ ((next :: names).map Identifier.text).flatMap
          (", ".toList ++ ·) ++ ')' :: rest = entry ++ ',' ::
            (' ' :: next.text ++ (names.map Identifier.text).flatMap
              (", ".toList ++ ·) ++ ')' :: rest) := by
        simp
      rw [hshape]
      exact .comma hentry (Or.inr (Nat.lt_succ_self 0)) (ih hnext)

theorem passage_plainNames {escapes : Bool} {rest : Text} {last : Nat}
    (identifiers : List Identifier) (hrest : Passage escapes false 0 rest last) :
    Passage escapes false 1
      (dialect.plainSpelling.names identifiers ++ ')' :: rest) last := by
  rw [dialect.plainSpelling_names]
  cases identifiers with
  | nil => exact .closing unmarked_nil hrest
  | cons first others =>
      rw [List.map_cons, joined_cons]
      exact passage_names first.unmarked others hrest

theorem passage_foreignKey (draft : ForeignKeyDraft) :
    Passage dialect.backslashEscapes false 0
      (draft.clause dialect.plainSpelling) 0 := by
  have hreferences : Unmarked " REFERENCES ".toList := by decide
  have hwords : words (" REFERENCES ".toList ++ draft.table.text ++ [' ']) =
      ["REFERENCES".toList, draft.table.text] := by
    have hfront : " REFERENCES ".toList = [' '] ++ ("REFERENCES".toList ++ [' ']) := by
      decide
    rw [hfront]
    simp only [List.append_assoc, List.cons_append, List.nil_append]
    rw [words_cons_blank isBlank_space, words_isWord_append (by decide) isBlank_space,
      words_isWord_append draft.table.isWord isBlank_space]
    rfl
  rw [draft.clause_plain]
  refine .opening ?_ (by decide) (passage_plainNames dialect _
    (.opening ((hreferences.append draft.table.unmarked).append
      unmarked_space) ?_
      (passage_plainNames dialect _ (.plain unmarked_nil))))
  · decide
  · rw [hwords]
    exact Nat.le_refl 2

theorem passage_primaryKey (identifiers : List Identifier) :
    Passage dialect.backslashEscapes false 0 ("PRIMARY KEY (".toList ++
      (dialect.plainSpelling.names identifiers ++ [')'])) 0 := by
  have hfront : "PRIMARY KEY (".toList = "PRIMARY KEY ".toList ++ ['('] := by
    decide
  rw [hfront, List.append_assoc, List.singleton_append]
  refine .opening ?_ (by decide) (passage_plainNames dialect _
    (.plain unmarked_nil))
  decide

/-- Every clause is a passage. -/
theorem passage_clause (draft : ClauseDraft) :
    Passage dialect.backslashEscapes false 0
      (draft.text dialect.plainSpelling) 0 := by
  cases draft with
  | column draft => exact passage_column dialect draft
  | primaryKey columns => exact passage_primaryKey dialect columns
  | foreignKey draft => exact passage_foreignKey dialect draft

/-- Clauses with a comma and a newline between neighbours. -/
theorem passage_joined {first : Text} (clauses : List ClauseDraft)
    (hfirst : Passage dialect.backslashEscapes true 0 first 0) :
    Passage dialect.backslashEscapes true 0
      (first ++ (clauses.map (ClauseDraft.text dialect.plainSpelling)).flatMap
        (",\n".toList ++ ·)) 0 := by
  induction clauses generalizing first with
  | nil =>
      rw [List.map_nil, List.flatMap_nil, List.append_nil]
      exact hfirst
  | cons next clauses ih =>
      have hnext : Passage dialect.backslashEscapes true 0
          (['\n'] ++ next.text dialect.plainSpelling) 0 :=
        (passage_clause dialect next).withCommas.lead (by decide)
      have hrest := ih (hfirst.append_comma hnext)
      simpa using hrest

/-- The body of a draft is a passage. -/
theorem TableDraft.passage_body (draft : TableDraft) :
    Passage dialect.backslashEscapes true 0
      (draft.body dialect.plainSpelling) 0 := by
  rw [TableDraft.body]
  cases draft.clauses with
  | nil => exact .plain unmarked_nil
  | cons first others =>
      rw [List.map_cons, joined_cons]
      exact passage_joined dialect others
        (passage_clause dialect first).withCommas

end clauses

end DdlDiagram
