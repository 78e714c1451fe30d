/-
Foreign keys of one column.  Declared with the column or by a clause of its own, a
reference to a column of another table gives the same table, the same relationship and
no notice, as long as both names consist of word characters.  A table is referred to by
such a name only: behind another one neither form declares a relationship, and the
clause of its own is reported.
-/
import DdlDiagram.Proofs.ClauseReading
import DdlDiagram.Proofs.ReferenceDraft

namespace DdlDiagram

open Text Phrase

namespace ReferenceDraft

variable (draft : ReferenceDraft)

section column

variable {rest : Text} (hrest : Breaks rest)
include hrest

theorem words_declared_append :
    words (draft.declared ++ rest) = draft.column.text :: draft.typeName.text :: words rest := by
  rw [declared, List.append_assoc, List.cons_append,
    words_isWord_append draft.column.isWord isBlank_space]
  cases rest with
  | nil =>
      rw [List.append_nil, words_of_isWord draft.typeName.isWord]
      rfl
  | cons blank rest =>
      have hblank := hrest blank rfl
      rw [words_isWord_append draft.typeName.isWord hblank, words_cons_blank hblank]

/-- A clause that begins with the column and its type declares the column. -/
theorem read_declared_append (dialect : Dialect) (hquote : '\'' ∉ rest)
    (htable : Clause.tableKey? (draft.declared ++ rest) = none)
    (hnext : ∀ next ∈ (words rest).head?, "varying".toList.isPrefixOf (lower next) = false) :
    ∃ letters : Identifier, letters.Names draft.type ∧
      Clause.read dialect.literalLexis (draft.declared ++ rest) =
        .column ⟨draft.column.text, letters.text, Clause.declaresKey (draft.declared ++ rest),
          Clause.reference? (draft.declared ++ rest)⟩ := by
  have hwords := draft.words_declared_append hrest
  have hindex : Clause.isIndex (draft.declared ++ rest) = false := by
    have hbracket : draft.column.text.contains '(' = false := by
      rw [← Bool.not_eq_true, List.contains_iff_mem]
      exact fun hmem => draft.column.unmarked _ hmem (by decide)
    have hfirst : firstWord (draft.declared ++ rest) = draft.column.text := by
      rw [declared, List.append_assoc, List.cons_append,
        firstWord_isWord_append draft.column.isWord (breaks_space _)]
    rw [Clause.isIndex, hfirst, hbracket, hwords, List.getElem?_cons_succ,
      List.getElem?_cons_zero, Option.getD_some, draft.typeName.before_text (by decide),
      Identifier.ofSqlName?_eq_some_iff.mpr draft.known, Option.isNone_some, Bool.or_false,
      Bool.and_false]
  have hcode : dialect.literalLexis.blankLiterals (draft.declared ++ rest) =
      draft.declared ++ rest := by
    apply blankLiterals_code
    intro hmem
    rcases List.mem_append.mp hmem with hmem | hmem
    · exact draft.unmarked_declared _ hmem quote_mem_marks
    · exact hquote hmem
  have hcolumn : Clause.isColumnName (Clause.unquoted draft.column.text) = true := by
    rw [draft.column.unquoted_text]
    exact draft.column.accepted
  obtain ⟨letters, hletters, hnames⟩ := draft.known.exists_letters
  refine ⟨letters, hnames, ?_⟩
  rw [Clause.read_of_declared? (Clause.isDeclaring_iff.mpr ⟨htable, hindex⟩)
    (Clause.declared?_of_names hwords hcolumn hletters hnames hnext), hcode,
    draft.column.unquoted_text]

end column

section search

variable {α : Type} {recognise f : Text → Option α} {k : Char} {keyword behind : Text}
  (hkeyword : IsKeyword (k :: keyword)) (hreads : ReadsAfter (k :: keyword) f recognise)
  (hreserved : k :: keyword ∈ Clause.reservedWords)
include hkeyword hreads

/-- No phrase begins in the column and its type, as none goes on with the type. -/
theorem search_declared (hpass : f draft.typeName.text = none) :
    search recognise draft.declared = none := by
  have htrim : trimStart (draft.typeName.text ++ []) = draft.typeName.text ++ [] :=
    trimStart_isWord_append draft.typeName.isWord
  rw [List.append_nil] at htrim
  rw [declared, search_solid hkeyword hreads draft.column.isWord.2]
  · exact search_eq_none_of_solid hreads.opensWith draft.typeName.isWord.2
  · intro place _ _
    rw [htrim, hpass]

include hreserved in
/-- A search passes the column and its type. -/
theorem searchWhere_declared (hpass : f (draft.typeName.text ++ ' ' :: behind) = none)
    (stands : Option Char → Bool) (previous : Option Char) :
    searchWhere stands recognise previous (draft.declared ++ ' ' :: behind) =
      searchWhere stands recognise (some ' ') behind := by
  rw [declared, List.append_assoc, List.cons_append,
    searchWhere_solid hkeyword hreads draft.column.isWord.2,
    searchWhere_other hkeyword hreads draft.typeName.isWord.2
      (draft.known.endsOtherwise hreserved)]
  intro place _ _
  rw [trimStart_isWord_append draft.typeName.isWord, hpass]

end search

theorem inline_append : draft.inline =
    draft.declared ++ ' ' :: ("REFERENCES".toList ++ ' ' :: draft.cited) := by
  rw [inline_eq, declared, List.append_assoc, List.cons_append]

section keys

variable {α : Type} {recognise f : Text → Option α} {keyword : Text}
  (hreads : ReadsAfter keyword f recognise)
  (hkeyword : keyword ∈ ["PRIMARY".toList, "FOREIGN".toList])
  (hkey : ∀ text, afterKeyword? "KEY".toList text = none → f text = none)
include hreads hkeyword hkey

/-- Neither form of the column's clause holds the words of a key. -/
theorem search_key : search recognise draft.declared = none ∧
    search recognise draft.inline = none := by
  have hwords : ∀ keyword ∈ ["PRIMARY".toList, "FOREIGN".toList],
      IsKeyword keyword ∧ keyword ∈ Clause.reservedWords ∧
        EndsOtherwise keyword "REFERENCES".toList := by
    decide
  obtain ⟨hcapitals, hreserved, hends⟩ := hwords _ hkeyword
  obtain ⟨k, others, rfl⟩ := List.exists_cons_of_ne_nil hcapitals.1
  constructor
  · apply draft.search_declared hcapitals hreads
    apply hkey
    have hpass := draft.known.afterKeyword?_key []
    rwa [List.append_nil] at hpass
  · rw [inline_append, search_eq none, draft.searchWhere_declared hcapitals hreads hreserved
      (hkey _ (draft.known.afterKeyword?_key _)), ← search_eq,
      search_other hcapitals hreads (by decide) hends]
    exact search_eq_none_of_solid hreads.opensWith fun c hc => draft.isBlank_of_mem_cited hc

end keys

/-- Neither form is the clause of a table's key. -/
theorem tableKey?_eq_none : Clause.tableKey? draft.declared = none ∧
    Clause.tableKey? draft.inline = none := by
  obtain ⟨hforeign, hforeign'⟩ := draft.search_key readsAfter_foreignKeyHere? (by decide)
    fun text h => by rw [h]; rfl
  obtain ⟨hprimary, hprimary'⟩ := draft.search_key readsAfter_primaryKeyHere? (by decide)
    fun text h => by rw [h]; rfl
  exact ⟨Clause.tableKey?_of_none hforeign hprimary,
    Clause.tableKey?_of_none hforeign' hprimary'⟩

/-- The column is no key in either of them. -/
theorem declaresKey_eq_false : Clause.declaresKey draft.declared = false ∧
    Clause.declaresKey draft.inline = false := by
  obtain ⟨hdeclared, hinline⟩ := draft.search_key readsAfter_keyWordsHere? (by decide)
    fun text h => by rw [h]; rfl
  rw [Clause.declaresKey, Clause.declaresKey, searchAtWord_eq_none_of_search hdeclared,
    searchAtWord_eq_none_of_search hinline]
  exact ⟨rfl, rfl⟩

/-- A type's name is not read as that of a table. -/
theorem nameBeforeBracket?_typeName (behind : Text) :
    nameBeforeBracket? draft.typeName.text = none ∧
      nameBeforeBracket? (draft.typeName.text ++ ' ' :: ("REFERENCES".toList ++ behind)) =
        none := by
  constructor
  · have hread : quotedWord? (draft.typeName.text ++ []) = some (draft.typeName.text, []) :=
      quotedWord?_identifier draft.typeName (by simp) (by simp)
    rw [List.append_nil] at hread
    rw [nameBeforeBracket?_of_word hread]
    rfl
  · have hread : quotedWord? (draft.typeName.text ++ ' ' :: ("REFERENCES".toList ++ behind)) =
        some (draft.typeName.text, ' ' :: ("REFERENCES".toList ++ behind)) :=
      quotedWord?_identifier draft.typeName (ends_space _) (by simp; decide)
    rw [nameBeforeBracket?_of_word hread]
    rfl

theorem reference?_declared : Clause.reference? draft.declared = none :=
  searchAtWord_eq_none_of_search
    (draft.search_declared (by decide) readsAfter_referenceHere?
      (by rw [(draft.nameBeforeBracket?_typeName []).1]; rfl))

theorem reference?_inline_eq : Clause.reference? draft.inline =
    searchAtWord Clause.referenceHere? none ("REFERENCES".toList ++ ' ' :: draft.cited) := by
  rw [Clause.reference?, inline_append, searchAtWord_eq, draft.searchWhere_declared (by decide)
    readsAfter_referenceHere? (by decide)
      (by rw [(draft.nameBeforeBracket?_typeName _).2]; rfl), ← searchAtWord_eq,
    BlankedAlike.searchAtWord_behind (by decide)]

theorem trimStart_cited : trimStart draft.cited = draft.cited :=
  trimStart_isWord_append draft.table.isWord

/-- The table that is referred to is read up to its bracket. -/
theorem nameBeforeBracket?_cited (htable : IsWordName draft.table.text) :
    nameBeforeBracket? draft.cited = some (draft.table.text, draft.target.text ++ [')']) :=
  draft.table.nameBeforeBracket?_word htable _

theorem nameBeforeBracket?_cited_of_not (htable : ¬ IsWordName draft.table.text) :
    nameBeforeBracket? draft.cited = none :=
  draft.table.nameBeforeBracket?_of_not htable _

theorem reference?_inline (htable : IsWordName draft.table.text)
    (htarget : IsWordName draft.target.text) :
    Clause.reference? draft.inline = some (draft.table.text, draft.target.text) := by
  have hkeyword : IsKeyword "REFERENCES".toList := by decide
  have hbracket : ')' ∈ ['(', ')'] := by decide
  have hclosing : afterChar? ')' (trimStart [')']) = some [] := rfl
  rw [reference?_inline_eq]
  apply searchAtWord_of_recognise (by simp)
  rw [Clause.referenceHere?, afterSpacedKeyword?_append hkeyword, trimStart_cited]
  simp only [draft.nameBeforeBracket?_cited htable,
    trimStart_isWord_append draft.target.isWord,
    draft.target.quotedWord?_bracket htarget hbracket, hclosing, Option.bind_eq_bind,
    Option.bind_some, Option.pure_def]

theorem reference?_inline_of_not (htable : ¬ IsWordName draft.table.text) :
    Clause.reference? draft.inline = none := by
  rw [reference?_inline_eq, searchAtWord_solid (by decide) readsAfter_referenceHere? (by decide)]
  · exact searchAtWord_eq_none_of_search
      (search_eq_none_of_solid readsAfter_referenceHere?.opensWith
        fun c hc => draft.isBlank_of_mem_cited hc)
  · intro place _ _
    rw [trimStart_cited, draft.nameBeforeBracket?_cited_of_not htable]
    rfl

/-- The column in brackets, as the clause lists it. -/
theorem upToBracket?_name (name : ColumnName) (behind : Text) :
    upToBracket? (name.text ++ ')' :: behind) = some (name.text, behind) :=
  upToBracket?_append name.ne_nil (fun hmem => name.unmarked _ hmem (by decide)) behind

/-- A foreign key is read where a table is. -/
theorem foreignKeyHere?_clause : Clause.foreignKeyHere? draft.clause =
    (nameBeforeBracket? draft.cited).bind fun (table, text) =>
      (upToBracket? text).bind fun (targets, _) =>
        some (List.zipWith (fun column target => ⟨column, table, target⟩) [draft.column.text]
          (Clause.columnNames targets)) := by
  have hforeign : IsKeyword "FOREIGN".toList := by decide
  have hreferences : IsKeyword "REFERENCES".toList := by decide
  have hnone : ∀ text, quotedWord? ('(' :: text) = none := fun _ => rfl
  have hblank : ∀ text, trimStart (' ' :: ("REFERENCES".toList ++ text)) =
      "REFERENCES".toList ++ text := fun _ => rfl
  rw [clause_eq]
  simp only [List.cons_append, List.append_assoc, List.nil_append, Clause.foreignKeyHere?,
    afterSpacedKeyword?_append hforeign, Clause.afterKeyWord?, Clause.trimStart_bracket, hnone,
    Option.map_none, Option.getD_none, Clause.afterChar?_cons, upToBracket?_name, hblank,
    afterSpacedKeyword?_append hreferences, trimStart_cited, ColumnName.columnNames_text,
    Option.bind_eq_bind, Option.bind_some, Option.pure_def]

/-- No key begins behind the front of the clause. -/
theorem search_clause {α : Type} {recognise f : Text → Option α} {k : Char} {keyword : Text}
    (hkeyword : IsKeyword (k :: keyword)) (hreads : ReadsAfter (k :: keyword) f recognise)
    (hword : k :: keyword ∈ ["FOREIGN".toList, "PRIMARY".toList]) :
    search recognise draft.clause = recognise draft.clause := by
  have hends : ∀ word ∈ ["OREIGN".toList, "KEY".toList, "REFERENCES".toList],
      ∀ keyword ∈ ["FOREIGN".toList, "PRIMARY".toList], EndsOtherwise keyword word := by
    decide
  have hlisted : EndsOtherwise (k :: keyword) ('(' :: (draft.column.text ++ [')'])) :=
    endsOtherwise_sign hkeyword (by decide) ('(' :: draft.column.text)
  have hsolid : ∀ c ∈ '(' :: (draft.column.text ++ [')']), isBlank c = false := by
    intro c hc
    simp only [List.mem_cons, List.mem_append, List.not_mem_nil, or_false] at hc
    rcases hc with rfl | hc | rfl
    · decide
    · exact draft.column.isWord.2 c hc
    · decide
  have hbehind : search recognise ("OREIGN".toList ++ ' ' :: ("KEY".toList ++ ' ' ::
      (('(' :: (draft.column.text ++ [')'])) ++ ' ' ::
        ("REFERENCES".toList ++ ' ' :: draft.cited)))) = none := by
    rw [search_other hkeyword hreads (by decide) (hends _ (by decide) _ hword),
      search_other hkeyword hreads (by decide) (hends _ (by decide) _ hword),
      search_other hkeyword hreads hsolid hlisted,
      search_other hkeyword hreads (by decide) (hends _ (by decide) _ hword)]
    exact search_eq_none_of_solid hreads.opensWith fun c hc => draft.isBlank_of_mem_cited hc
  have hfront : ∀ rest, search recognise ("FOREIGN".toList ++ rest) =
      (recognise ("FOREIGN".toList ++ rest)).or (search recognise ("OREIGN".toList ++ rest)) :=
    fun _ => rfl
  rw [clause_eq, hfront, hbehind, Option.or_none]

theorem leadingWord_clause : Clause.leadingWord draft.clause = "FOREIGN".toList := by
  rw [clause_eq]
  exact Clause.leadingWord_append (by decide) (by decide) _

theorem foreignKey?_clause : Clause.foreignKey? draft.clause =
    Clause.foreignKeyHere? draft.clause :=
  draft.search_clause (by decide) readsAfter_foreignKeyHere? (by decide)

/-- The clause of the reference links the column with the one that is referred to. -/
theorem read_clause (lexis : Lexis) (htable : IsWordName draft.table.text) :
    Clause.read lexis draft.clause =
      .foreignKey [⟨draft.column.text, draft.table.text, draft.target.text⟩] := by
  have hforeign : Clause.foreignKey? draft.clause =
      some [⟨draft.column.text, draft.table.text, draft.target.text⟩] := by
    rw [foreignKey?_clause, foreignKeyHere?_clause, draft.nameBeforeBracket?_cited htable]
    simp only [upToBracket?_name, ColumnName.columnNames_text, Option.bind_some,
      List.zipWith_cons_cons, List.zipWith_nil_left]
  have hkey : Clause.keyWords.contains (Clause.leadingWord draft.clause) = true := by
    rw [leadingWord_clause]
    decide
  exact Clause.read_of_tableKey? (Clause.tableKey?_of_foreignKey? hkey hforeign)

/-- Without a table it says nothing. -/
theorem read_clause_of_not (lexis : Lexis) (htable : ¬ IsWordName draft.table.text) :
    Clause.read lexis draft.clause = .unknown draft.clause := by
  have hforeign : Clause.foreignKey? draft.clause = none := by
    rw [foreignKey?_clause, foreignKeyHere?_clause, draft.nameBeforeBracket?_cited_of_not htable]
    rfl
  have hprimary : Clause.primaryKey? draft.clause = none := by
    rw [Clause.primaryKey?,
      draft.search_clause (by decide) readsAfter_primaryKeyHere? (by decide), clause_eq]
    rfl
  have hindex : Clause.isIndex draft.clause = false := by
    rw [Clause.isIndex, leadingWord_clause]
    rfl
  have hdeclared : Clause.declared? draft.clause = none := by
    have hname : Clause.isColumnName (Clause.unquoted "FOREIGN".toList) = false := by decide
    rw [Clause.declared?, clause_eq, words_isWord_append (by decide) isBlank_space,
      words_isWord_append (by decide) isBlank_space]
    dsimp only
    rw [hname]
    rfl
  have hnone := Clause.tableKey?_of_none hforeign hprimary
  exact Clause.read_of_undeclared (Clause.isDeclaring_iff.mpr ⟨hnone, hindex⟩) hdeclared

section body

variable (dialect : Dialect)

theorem exists_read_declared : ∃ letters : Identifier, letters.Names draft.type ∧
    Clause.read dialect.literalLexis draft.declared =
      .column ⟨draft.column.text, letters.text, false, none⟩ := by
  have hbreaks : Breaks [] := by simp [Breaks]
  have hread := draft.read_declared_append hbreaks dialect (by simp)
    (by rw [List.append_nil]; exact draft.tableKey?_eq_none.1) (by decide)
  rwa [List.append_nil, draft.declaresKey_eq_false.1, reference?_declared] at hread

theorem exists_read_inline : ∃ letters : Identifier, letters.Names draft.type ∧
    Clause.read dialect.literalLexis draft.inline =
      .column ⟨draft.column.text, letters.text, false, Clause.reference? draft.inline⟩ := by
  have hquote : '\'' ∉ ' ' :: ("REFERENCES".toList ++ ' ' :: draft.cited) := by
    have hfront : '\'' ∉ ' ' :: ("REFERENCES".toList ++ [' ']) := by decide
    have hcited : '\'' ∉ draft.cited := by
      have htable : '\'' ∉ draft.table.text := fun hmem =>
        draft.table.unmarked _ hmem quote_mem_marks
      have htarget : '\'' ∉ draft.target.text := fun hmem =>
        draft.target.unmarked _ hmem quote_mem_marks
      simp [cited, htable, htarget]
    simp only [List.mem_cons, List.mem_append, not_or] at hfront ⊢
    exact ⟨hfront.1, hfront.2.1, hfront.2.2.1, hcited⟩
  have hnext : ∀ next ∈ (words (' ' :: ("REFERENCES".toList ++ ' ' :: draft.cited))).head?,
      "varying".toList.isPrefixOf (lower next) = false := by
    rw [words_cons_blank isBlank_space, words_isWord_append (by decide) isBlank_space]
    intro next hnext
    rw [← Option.some.inj hnext]
    decide
  have hread := draft.read_declared_append (breaks_space _) dialect hquote
    (by rw [← inline_append]; exact draft.tableKey?_eq_none.2) hnext
  rwa [← inline_append, draft.declaresKey_eq_false.2] at hread

theorem clauses_inline :
    TableBody.clauses dialect draft.inline =
      [Clause.read dialect.literalLexis draft.inline] := by
  have hpadded : TableBody.Padded draft.inline draft.inline :=
    ⟨[], [], by simp, by simp, by simp⟩
  rw [TableBody.clauses_eq_map, hpadded.clauseTexts_eq draft.isClause_inline]
  rfl

theorem clauses_separate :
    TableBody.clauses dialect draft.separate =
      [Clause.read dialect.literalLexis draft.declared,
        Clause.read dialect.literalLexis draft.clause] := by
  have hfirst : TableBody.Padded draft.declared draft.declared :=
    ⟨[], [], by simp, by simp, by simp⟩
  have hsecond : TableBody.Padded draft.clause (' ' :: draft.clause) :=
    ⟨[' '], [], by decide, by simp, by simp⟩
  have hshape : draft.separate = draft.declared ++ ',' :: ' ' :: draft.clause :=
    List.append_assoc _ _ _
  rw [TableBody.clauses_eq_map, hshape, hfirst.clauseTexts_append draft.isClause_declared,
    hsecond.clauseTexts_eq draft.isClause_clause]
  rfl

/-- The table with the column. -/
def marked (draft : ReferenceDraft) (name : Text) (isForeignKey : Bool) : Table :=
  ⟨name, [⟨draft.column.text, draft.type, false, isForeignKey⟩]⟩

def relationship (draft : ReferenceDraft) (name : Text) : Relationship :=
  ⟨name, draft.column.text, draft.table.text, draft.target.text⟩

section outcomes

variable {letters : Identifier} (hletters : letters.Names draft.type) (name : Text)
  (reference : Option (Text × Text))
include hletters

/-- What the outcomes of the column and of clauses without one amount to. -/
theorem ofOutcomes_column {others : List Outcome}
    (hothers : ∀ outcome ∈ others, outcome.declaration? = none ∧ outcome.keyColumns = []) :
    let declaration : Clause.Declaration := ⟨draft.column.text, letters.text, false, reference⟩
    let links := (Outcome.column declaration :: others).flatMap Outcome.foreignLinks
    TableBody.ofOutcomes name (.column declaration :: others) =
      { table := draft.marked name (links.any fun link => sameName draft.column.text link.column)
        relationships := links.map fun link => ⟨name, link.column, link.table, link.target⟩
        notices := others.flatMap (Outcome.notices name) } := by
  have htype := Identifier.ofSqlName?_eq_some_iff.mpr hletters
  have hdeclared : others.filterMap Outcome.declaration? = [] :=
    List.filterMap_eq_nil_iff.mpr fun outcome houtcome => (hothers outcome houtcome).1
  have hkeys : others.flatMap Outcome.keyColumns = [] :=
    List.flatMap_eq_nil_iff.mpr fun outcome houtcome => (hothers outcome houtcome).2
  simp only [TableBody.ofOutcomes, List.filterMap_cons, List.flatMap_cons, hdeclared, hkeys,
    Outcome.declaration?, Outcome.keyColumns, Outcome.notices, htype, Clause.Declaration.type,
    ColumnType.ofSqlName, marked, Bool.false_eq_true, if_false, Option.isNone_some,
    Option.getD_some, List.map_cons, List.map_nil, List.nil_append, List.any_nil]

end outcomes

variable (name : Text)

theorem read_inline (htable : IsWordName draft.table.text)
    (htarget : IsWordName draft.target.text) :
    TableBody.read dialect name draft.inline =
      ⟨draft.marked name true, [draft.relationship name], []⟩ := by
  obtain ⟨letters, hletters, hread⟩ := draft.exists_read_inline dialect
  rw [draft.reference?_inline htable htarget] at hread
  have houtcomes : TableBody.outcomes dialect draft.inline =
      [.column ⟨draft.column.text, letters.text, false,
        some (draft.table.text, draft.target.text)⟩] := by
    rw [TableBody.outcomes, clauses_inline, hread]
    rfl
  rw [TableBody.read, houtcomes, draft.ofOutcomes_column hletters name _ (by simp)]
  simp [Outcome.foreignLinks, relationship]

theorem read_inline_of_not (htable : ¬ IsWordName draft.table.text) :
    TableBody.read dialect name draft.inline = ⟨draft.marked name false, [], []⟩ := by
  obtain ⟨letters, hletters, hread⟩ := draft.exists_read_inline dialect
  rw [draft.reference?_inline_of_not htable] at hread
  have houtcomes : TableBody.outcomes dialect draft.inline =
      [.column ⟨draft.column.text, letters.text, false, none⟩] := by
    rw [TableBody.outcomes, clauses_inline, hread]
    rfl
  rw [TableBody.read, houtcomes, draft.ofOutcomes_column hletters name _ (by simp)]
  rfl

theorem read_separate (htable : IsWordName draft.table.text) :
    TableBody.read dialect name draft.separate =
      ⟨draft.marked name true, [draft.relationship name], []⟩ := by
  obtain ⟨letters, hletters, hread⟩ := draft.exists_read_declared dialect
  have houtcomes : TableBody.outcomes dialect draft.separate =
      [.column ⟨draft.column.text, letters.text, false, none⟩,
        .links [⟨draft.column.text, draft.table.text, draft.target.text⟩]] := by
    rw [TableBody.outcomes, clauses_separate, hread, draft.read_clause _ htable]
    rfl
  rw [TableBody.read, houtcomes, draft.ofOutcomes_column hletters name _
    (by simp [Outcome.declaration?, Outcome.keyColumns])]
  simp [Outcome.foreignLinks, Outcome.notices, relationship]

theorem read_separate_of_not (htable : ¬ IsWordName draft.table.text) :
    TableBody.read dialect name draft.separate =
      ⟨draft.marked name false, [], [.discardedClause name draft.clause]⟩ := by
  obtain ⟨letters, hletters, hread⟩ := draft.exists_read_declared dialect
  have houtcomes : TableBody.outcomes dialect draft.separate =
      [.column ⟨draft.column.text, letters.text, false, none⟩, .discarded draft.clause] := by
    rw [TableBody.outcomes, clauses_separate, hread, draft.read_clause_of_not _ htable]
    rfl
  rw [TableBody.read, houtcomes, draft.ofOutcomes_column hletters name _
    (by simp [Outcome.declaration?, Outcome.keyColumns])]
  rfl

end body

end ReferenceDraft

namespace Schema

variable (dialect : Dialect) (schema : Schema) (name : Text) (draft : ReferenceDraft)

/-- A reference to a column of another table says the same in the column's clause and in a
clause of its own, where both names consist of word characters: the column is marked, and
one relationship goes from it to the other column.  Where the name of the table does not,
neither form declares a relationship, and the clause of its own is reported. -/
theorem addTable_reference :
    (IsWordName draft.table.text → IsWordName draft.target.text →
      schema.addTable dialect name draft.inline = schema.addTable dialect name draft.separate) ∧
    (¬ IsWordName draft.table.text →
      (schema.addTable dialect name draft.inline).schema =
        (schema.addTable dialect name draft.separate).schema) ∧
    (schema.table? name = none →
      (IsWordName draft.table.text → IsWordName draft.target.text →
        schema.addTable dialect name draft.inline =
          ⟨⟨schema.tables ++ [draft.marked name true],
            schema.relationships ++ [draft.relationship name]⟩, true, []⟩) ∧
      (¬ IsWordName draft.table.text →
        schema.addTable dialect name draft.inline =
            ⟨⟨schema.tables ++ [draft.marked name false], schema.relationships⟩, true, []⟩ ∧
          schema.addTable dialect name draft.separate =
            ⟨⟨schema.tables ++ [draft.marked name false], schema.relationships⟩, true,
              [.discardedClause name draft.clause]⟩)) := by
  refine ⟨fun htable htarget => ?_, fun htable => ?_, fun hfresh =>
    ⟨fun htable htarget => ?_, fun htable => ?_⟩⟩
  · rw [addTable, addTable, draft.read_inline dialect name htable htarget,
      draft.read_separate dialect name htable]
  · rw [addTable, addTable, draft.read_inline_of_not dialect name htable,
      draft.read_separate_of_not dialect name htable]
    split <;> rfl
  · rw [addTable, if_neg (by simp [hfresh]), draft.read_inline dialect name htable htarget]
  · rw [addTable, addTable, if_neg (by simp [hfresh]), if_neg (by simp [hfresh]),
      draft.read_inline_of_not dialect name htable,
      draft.read_separate_of_not dialect name htable]
    simp only [List.append_nil, and_self]

/-- A key of one column, in both forms. -/
theorem addTable_reference_user :
    Schema.empty.addTable .mysql "book".toList "a INT REFERENCES user(id)".toList =
        Schema.empty.addTable .mysql "book".toList
          "a INT, FOREIGN KEY (a) REFERENCES user(id)".toList ∧
      Schema.empty.addTable .mysql "book".toList "a INT REFERENCES user(id)".toList =
        ⟨⟨[⟨"book".toList, [⟨"a".toList, .int, false, true⟩]⟩],
          [⟨"book".toList, "a".toList, "user".toList, "id".toList⟩]⟩, true, []⟩ := by
  have htable : IsWordName "user".toList := by decide +kernel
  have htarget : IsWordName "id".toList := by decide +kernel
  have hreference := addTable_reference .mysql Schema.empty "book".toList
    { column := ⟨"a".toList, by decide⟩
      typeName := ⟨"INT".toList, by decide⟩
      type := .int
      known := by decide
      table := ⟨"user".toList, by decide⟩
      target := ⟨"id".toList, by decide⟩ }
  exact ⟨hreference.1 htable htarget, (hreference.2.2 rfl).1 htable htarget⟩

/-- A table whose name has a dollar sign is referred to in neither form, and only one of
them is reported. -/
theorem addTable_reference_ne :
    ¬ ∀ draft : ReferenceDraft, Schema.empty.addTable .mysql "book".toList draft.inline =
      Schema.empty.addTable .mysql "book".toList draft.separate := by
  intro h
  have hsame := h
    { column := ⟨"a".toList, by decide⟩
      typeName := ⟨"INT".toList, by decide⟩
      type := .int
      known := by decide
      table := ⟨"user$".toList, by decide⟩
      target := ⟨"id".toList, by decide⟩ }
  exact absurd hsame (by decide +kernel)

end Schema

end DdlDiagram
