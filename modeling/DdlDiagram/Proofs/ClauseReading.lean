/-
How the clauses of a draft are read.  A column's clause declares the column, and a
key's clause declares the key over the columns it lists.
-/
import DdlDiagram.Proofs.ColumnReading

namespace DdlDiagram

open Text Phrase

/-- What a clause says. -/
def ClauseDraft.meaning : ClauseDraft → Clause
  | column draft => .column ⟨draft.name.text, draft.typeName, false, none⟩
  | primaryKey columns => .primaryKey (columns.map Identifier.text)
  | foreignKey draft =>
      .foreignKey (draft.links.map fun (source, target) =>
        ⟨source.text, draft.table.text, target.text⟩)

section names

variable {dialect : Dialect} {identifiers : List Identifier}

/-- A list of names holds no mark but commas. -/
theorem mem_plainNames {c : Char}
    (hc : c ∈ dialect.plainSpelling.names identifiers) :
    c = ',' ∨ c ∉ marks := by
  have hseparator : ∀ c ∈ ", ".toList, c = ',' ∨ c ∉ marks := by decide
  rw [dialect.plainSpelling_names] at hc
  cases identifiers with
  | nil => contradiction
  | cons first rest =>
      rw [List.map_cons, joined_cons] at hc
      rcases List.mem_append.mp hc with hc | hc
      · exact Or.inr (first.unmarked c hc)
      · obtain ⟨name, hname, hc⟩ := List.mem_flatMap.mp hc
        obtain ⟨identifier, _, rfl⟩ := List.mem_map.mp hname
        rcases List.mem_append.mp hc with hc | hc
        · exact hseparator c hc
        · exact Or.inr (identifier.unmarked c hc)

theorem not_mem_plainNames :
    ')' ∉ dialect.plainSpelling.names identifiers := by
  intro hmem
  rcases mem_plainNames hmem with heq | hmarks
  · exact absurd heq (by decide)
  · exact hmarks (by decide)

theorem plainNames_ne_nil (hidentifiers : identifiers ≠ []) :
    dialect.plainSpelling.names identifiers ≠ [] := by
  rw [dialect.plainSpelling_names]
  cases identifiers with
  | nil => exact absurd rfl hidentifiers
  | cons first rest =>
      rw [List.map_cons, joined_cons]
      simp [first.ne_nil]

/-- A list of names in brackets is read up to the bracket that closes it. -/
theorem upToBracket?_plainNames (hidentifiers : identifiers ≠ [])
    (behind : Text) :
    upToBracket? (dialect.plainSpelling.names identifiers ++ ')' :: behind) =
      some (dialect.plainSpelling.names identifiers, behind) :=
  upToBracket?_append (plainNames_ne_nil hidentifiers) not_mem_plainNames behind

section search

variable {α : Type} {recognise : Text → Option α} {k : Char}
  {keyword behind : Text}

/-- No phrase begins in a list of names, whatever the names are. -/
theorem search_plainNames (hkeyword : IsKeyword (k :: keyword))
    (hopens : OpensWith (k :: keyword) recognise)
    (hbehind : search recognise behind = none) :
    search recognise
      (dialect.plainSpelling.names identifiers ++ ')' :: behind) = none := by
  have hmark : ∀ mark ∈ [',', ' ', ')'], foldCapital mark ≠ k := by
    have hall : ∀ mark ∈ [',', ' ', ')'], isWordChar mark = false := by decide
    intro mark hmem
    exact foldCapital_ne hkeyword (hall mark hmem)
  have hclosing : search recognise (')' :: behind) = none :=
    search_cons_eq_none hopens (hmark ')' (by decide)) hbehind
  have hends : ∀ rest : List Identifier, ∀ c ∈
      ((rest.map Identifier.text).flatMap (", ".toList ++ ·) ++
        ')' :: behind).head?, isWordChar c = false ∧ isBlank c = false := by
    intro rest c hc
    cases rest with
    | nil =>
        rw [← Option.some.inj hc]
        decide
    | cons next rest =>
        rw [← Option.some.inj hc]
        decide
  have hrest : ∀ rest : List Identifier, search recognise
      ((rest.map Identifier.text).flatMap (", ".toList ++ ·) ++
        ')' :: behind) = none := by
    intro rest
    induction rest with
    | nil => exact hclosing
    | cons next rest ih =>
        have hword := search_eq_none_of_word hkeyword hopens
          (fun c hc => next.isWordChar_of_mem hc) (hends rest) ih
        rw [List.map_cons, List.flatMap_cons, List.append_assoc,
          List.append_assoc]
        exact search_cons_eq_none hopens (hmark ',' (by decide))
          (search_cons_eq_none hopens (hmark ' ' (by decide)) hword)
  rw [dialect.plainSpelling_names]
  cases identifiers with
  | nil => exact hclosing
  | cons first rest =>
      rw [List.map_cons, joined_cons, List.append_assoc]
      exact search_eq_none_of_word hkeyword hopens
        (fun c hc => first.isWordChar_of_mem hc) (hends rest) (hrest rest)

end search

end names

theorem search_of_recognise {α : Type} {recognise : Text → Option α}
    {text : Text} {result : α} (hne : text ≠ [])
    (h : recognise text = some result) :
    search recognise text = some result := by
  cases text with
  | nil => exact absurd rfl hne
  | cons c rest => rw [search, h, Option.some_or]

namespace Clause

theorem opensWith_foreignKeyHere? :
    OpensWith "FOREIGN".toList foreignKeyHere? := by
  intro text h
  rw [foreignKeyHere?, h]
  rfl

/-- The text behind the words of a key's clause. -/
theorem afterKeyWord? (behind : Text) :
    afterKeyword? "KEY".toList (trimStart ("KEY".toList ++ behind)) =
      some behind := by
  have hkeyword : IsKeyword "KEY".toList := by decide
  rw [trimStart_isWord_append (by decide), hkeyword.afterKeyword?]

theorem trimStart_bracket (behind : Text) :
    trimStart (' ' :: '(' :: behind) = '(' :: behind := rfl

theorem afterChar?_cons (c : Char) (behind : Text) :
    afterChar? c (c :: behind) = some behind :=
  if_pos rfl

theorem primaryKeyHere?_names (dialect : Dialect)
    {identifiers : List Identifier} (hidentifiers : identifiers ≠ [])
    (behind : Text) :
    primaryKeyHere? ("PRIMARY".toList ++ ' ' :: ("KEY".toList ++ ' ' :: '(' ::
        (dialect.plainSpelling.names identifiers ++ ')' :: behind))) =
      some (identifiers.map Identifier.text) := by
  have hprimary : IsKeyword "PRIMARY".toList := by decide
  have hstorage : ∀ text, afterStorage? ('(' :: text) = none := by
    intro text
    rw [afterStorage?]
    rfl
  simp only [primaryKeyHere?, afterSpacedKeyword?_append hprimary,
    afterKeyWord?, trimStart_bracket, hstorage, Option.getD_none,
    afterChar?_cons, upToBracket?_plainNames hidentifiers,
    columnNames_names, Option.bind_eq_bind, Option.bind_some, Option.pure_def]

theorem foreignKeyHere?_names (dialect : Dialect) (draft : ForeignKeyDraft)
    (behind : Text) :
    foreignKeyHere? ("FOREIGN".toList ++ ' ' :: ("KEY".toList ++ ' ' :: '(' ::
        (dialect.plainSpelling.names (draft.links.map Prod.fst) ++ ')' ::
          ' ' :: ("REFERENCES".toList ++ ' ' :: (draft.table.text ++
            ' ' :: '(' :: (dialect.plainSpelling.names
              (draft.links.map Prod.snd) ++ ')' :: behind)))))) =
      some (draft.links.map fun (source, target) =>
        ⟨source.text, draft.table.text, target.text⟩) := by
  have hforeign : IsKeyword "FOREIGN".toList := by decide
  have hreferences : IsKeyword "REFERENCES".toList := by decide
  have hsources : draft.links.map Prod.fst ≠ [] := by
    simpa using draft.inhabited
  have htargets : draft.links.map Prod.snd ≠ [] := by
    simpa using draft.inhabited
  have hnone : ∀ text, quotedWord? ('(' :: text) = none := by
    intro text
    rfl
  have hblank : ∀ text, trimStart (' ' :: ("REFERENCES".toList ++ text)) =
      "REFERENCES".toList ++ text := by
    intro text
    rfl
  simp only [foreignKeyHere?, afterSpacedKeyword?_append hforeign,
    afterKeyWord?, trimStart_bracket, hnone, Option.map_none, Option.getD_none,
    afterChar?_cons, upToBracket?_plainNames hsources, hblank,
    afterSpacedKeyword?_append hreferences,
    trimStart_isWord_append draft.table.isWord, nameBeforeBracket?_identifier,
    upToBracket?_plainNames htargets, columnNames_names, Option.bind_eq_bind,
    Option.bind_some, Option.pure_def, List.map_map, List.zipWith_map,
    List.zipWith_self]
  rfl

/-- A word of the readers in front of a clause is its leading word. -/
theorem leadingWord_append {word : Text} (hword : IsWord word)
    (hplain : upper (unquoted (before '(' word)) = word) (behind : Text) :
    leadingWord (word ++ ' ' :: behind) = word := by
  rw [leadingWord, firstWord_isWord_append hword (breaks_space _),
    hplain]

end Clause

section keys

variable (dialect : Dialect)

theorem read_primaryKey {identifiers : List Identifier}
    (hidentifiers : identifiers ≠ []) :
    Clause.read dialect.literalLexis
        ((ClauseDraft.primaryKey identifiers).text dialect.plainSpelling) =
      .primaryKey (identifiers.map Identifier.text) := by
  have hwords : "PRIMARY KEY (".toList =
      "PRIMARY".toList ++ ' ' :: ("KEY".toList ++ [' ', '(']) := by
    decide
  have htext : (ClauseDraft.primaryKey identifiers).text dialect.plainSpelling =
      "PRIMARY".toList ++ ' ' :: ("KEY".toList ++ ' ' :: '(' ::
        (dialect.plainSpelling.names identifiers ++ [')'])) := by
    change "PRIMARY KEY (".toList ++ _ = _
    rw [hwords]
    simp only [List.append_assoc, List.cons_append, List.nil_append]
  have hforeign : Clause.foreignKey?
      ((ClauseDraft.primaryKey identifiers).text dialect.plainSpelling) =
        none := by
    change search _ ("PRIMARY KEY (".toList ++ _) = none
    apply search_eq_none_of_chars Clause.opensWith_foreignKeyHere? (by decide)
    exact search_plainNames (by decide) Clause.opensWith_foreignKeyHere? rfl
  have hprimary : Clause.primaryKey?
      ((ClauseDraft.primaryKey identifiers).text dialect.plainSpelling) =
        some (identifiers.map Identifier.text) := by
    rw [Clause.primaryKey?, htext]
    exact search_of_recognise (by simp)
      (Clause.primaryKeyHere?_names dialect hidentifiers [])
  have hleading : Clause.leadingWord
      ((ClauseDraft.primaryKey identifiers).text dialect.plainSpelling) =
        "PRIMARY".toList := by
    rw [htext]
    exact Clause.leadingWord_append (by decide) (by decide) _
  have hkey : Clause.keyWords.contains "PRIMARY".toList = true := by decide
  rw [← hleading] at hkey
  exact Clause.read_of_tableKey? (Clause.tableKey?_of_primaryKey? hkey hforeign hprimary)

theorem read_foreignKey (draft : ForeignKeyDraft) :
    Clause.read dialect.literalLexis (draft.clause dialect.plainSpelling) =
      .foreignKey (draft.links.map fun (source, target) =>
        ⟨source.text, draft.table.text, target.text⟩) := by
  have hwords : "FOREIGN KEY ".toList =
      "FOREIGN".toList ++ ' ' :: ("KEY".toList ++ [' ']) := by
    decide
  have hreferences : " REFERENCES ".toList =
      ' ' :: ("REFERENCES".toList ++ [' ']) := by
    decide
  have htext : draft.clause dialect.plainSpelling =
      "FOREIGN".toList ++ ' ' :: ("KEY".toList ++ ' ' :: '(' ::
        (dialect.plainSpelling.names (draft.links.map Prod.fst) ++ ')' ::
          ' ' :: ("REFERENCES".toList ++ ' ' :: (draft.table.text ++
            ' ' :: '(' :: (dialect.plainSpelling.names
              (draft.links.map Prod.snd) ++ [')']))))) := by
    rw [draft.clause_plain, hwords, hreferences]
    simp only [List.append_assoc, List.cons_append, List.nil_append]
  have hforeign : Clause.foreignKey? (draft.clause dialect.plainSpelling) =
      some (draft.links.map fun (source, target) =>
        ⟨source.text, draft.table.text, target.text⟩) := by
    rw [Clause.foreignKey?, htext]
    exact search_of_recognise (by simp)
      (Clause.foreignKeyHere?_names dialect draft [])
  have hleading : Clause.leadingWord (draft.clause dialect.plainSpelling) =
      "FOREIGN".toList := by
    rw [htext]
    exact Clause.leadingWord_append (by decide) (by decide) _
  have hkey : Clause.keyWords.contains "FOREIGN".toList = true := by decide
  rw [← hleading] at hkey
  exact Clause.read_of_tableKey? (Clause.tableKey?_of_foreignKey? hkey hforeign)

/-- A clause is read as what it says. -/
theorem read_clause {draft : ClauseDraft} (hdraft : draft ≠ .primaryKey []) :
    Clause.read dialect.literalLexis (draft.text dialect.plainSpelling) =
      draft.meaning := by
  cases draft with
  | column draft => exact draft.read_clause dialect
  | foreignKey draft => exact read_foreignKey dialect draft
  | primaryKey identifiers =>
      apply read_primaryKey
      rintro rfl
      exact hdraft rfl

end keys

end DdlDiagram
