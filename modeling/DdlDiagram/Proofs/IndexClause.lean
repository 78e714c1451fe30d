/-
Secondary indexes.  A clause that begins with the keywords of an index and names it in
front of a list of columns adds nothing to its table, wherever it stands in the body.
The exception is the index behind a single keyword whose name is that of a type: its
clause reads as a column that is named like the keyword.
-/
import DdlDiagram.Proofs.CapitalClause
import DdlDiagram.Proofs.ClausePlace
import DdlDiagram.Proofs.ClauseReading
import DdlDiagram.Proofs.TypeReading
import DdlDiagram.Proofs.WordSearch

namespace DdlDiagram

open Text Phrase

/-- The one or two keywords that an index clause begins with, in capitals. -/
def indexForms : List (Text × Option Text) :=
  [("KEY".toList, none), ("INDEX".toList, none), ("UNIQUE".toList, none),
    ("UNIQUE".toList, some "KEY".toList), ("UNIQUE".toList, some "INDEX".toList),
    ("FULLTEXT".toList, some "KEY".toList), ("SPATIAL".toList, some "INDEX".toList)]

/-- A named index over columns.  Its keywords are written in any letter case. -/
structure IndexDraft where
  keyword : Identifier
  second : Option Identifier
  known : (asciiUpper keyword.text, second.map fun word => asciiUpper word.text) ∈ indexForms
  name : Identifier
  columns : List Identifier
  inhabited : columns ≠ []

namespace IndexDraft

/-- The keywords, with a blank behind each. -/
def lead (draft : IndexDraft) : Text :=
  draft.keyword.text ++ ' ' :: draft.second.elim [] fun word => word.text ++ [' ']

def text (draft : IndexDraft) : Text :=
  draft.lead ++ (draft.name.text ++ " (".toList ++
    (joined ", ".toList (draft.columns.map Identifier.text) ++ [')']))

/-- The name of the index stands where a column has its type, and names one. -/
def ReadsAsColumn (draft : IndexDraft) (type : ColumnType) : Prop :=
  draft.second = none ∧ draft.name.Names type

example : text
    { keyword := ⟨"unique".toList, by decide⟩
      second := some ⟨"Key".toList, by decide⟩
      known := by decide
      name := ⟨"k".toList, by decide⟩
      columns := [⟨"a".toList, by decide⟩, ⟨"b".toList, by decide⟩]
      inhabited := by decide } = "unique Key k (a, b)".toList := by
  decide

variable (draft : IndexDraft)

/-- What stands behind the keywords. -/
theorem text_eq (dialect : Dialect) :
    draft.text = draft.lead ++ (draft.name.text ++ ' ' :: '(' ::
      (dialect.plainSpelling.names draft.columns ++ ')' :: [])) := by
  rw [text, dialect.plainSpelling_names, List.append_assoc]
  rfl

theorem text_eq_keyword :
    ∃ rest, draft.text = draft.keyword.text ++ ' ' :: rest := by
  rw [text, lead, List.append_assoc, List.cons_append]
  exact ⟨_, rfl⟩

theorem unmarked_lead : Unmarked draft.lead := by
  rw [lead]
  apply draft.keyword.unmarked.append
  cases draft.second with
  | none => exact unmarked_space
  | some second => exact unmarked_space.append (second.unmarked.append unmarked_space)

theorem isClause_text : TableBody.IsClause draft.text := by
  have hreads : ∀ lexis : Lexis, lexis.Reads false 0 draft.text 0 := by
    intro lexis
    have hnames : Passage lexis.escapes false 1
        (Dialect.generic.plainSpelling.names draft.columns ++ ')' :: []) 0 :=
      passage_plainNames Dialect.generic _ (.plain unmarked_nil)
    have hlisted := Lexis.reads_passage (.opening unmarked_nil (by decide) hnames)
    have hfront : Unmarked (draft.lead ++ (draft.name.text ++ [' '])) :=
      draft.unmarked_lead.append (draft.name.unmarked.append unmarked_space)
    have hwhole := (Lexis.quiet_unmarked hfront).reads.append hlisted
    rw [draft.text_eq Dialect.generic]
    simpa using hwhole
  have hbracket : IsWord [')'] := by decide
  have hframed := TableBody.IsClause.of_framed draft.keyword.isWord hbracket
    (' ' :: (draft.second.elim [] (fun word => word.text ++ [' ']) ++ (draft.name.text ++
      " (".toList ++ joined ", ".toList (draft.columns.map Identifier.text))))
  have hshape : draft.text = draft.keyword.text ++ ((' ' :: (draft.second.elim []
      (fun word => word.text ++ [' ']) ++ (draft.name.text ++ " (".toList ++
        joined ", ".toList (draft.columns.map Identifier.text)))) ++ [')']) := by
    simp only [text, lead, List.append_assoc, List.cons_append]
  rw [hshape] at hreads ⊢
  exact hframed hreads

theorem upper_keyword : upper draft.keyword.text ∈ indexForms.map Prod.fst := by
  have hall : ∀ form ∈ indexForms, upper form.1 ∈ indexForms.map Prod.fst := by decide
  rw [← upper_asciiUpper]
  exact hall _ draft.known

theorem leadingWord_text : Clause.leadingWord draft.text ∈ indexForms.map Prod.fst := by
  obtain ⟨rest, htext⟩ := draft.text_eq_keyword
  rw [htext, Clause.leadingWord_identifier]
  exact draft.upper_keyword

/-- No index clause holds the key of a table. -/
theorem tableKey?_text : Clause.tableKey? draft.text = none := by
  have hall : ∀ word ∈ indexForms.map Prod.fst, ¬ Clause.keyWords.contains word := by decide
  rw [Clause.tableKey?, if_neg (hall _ draft.leadingWord_text)]

theorem firstWord_text : firstWord draft.text = draft.keyword.text := by
  obtain ⟨rest, htext⟩ := draft.text_eq_keyword
  rw [htext, firstWord_isWord_append draft.keyword.isWord (breaks_space _)]

/-- The word that is looked up as a type. -/
theorem second_text :
    (words draft.text)[1]?.getD [] = (draft.second.getD draft.name).text := by
  rw [draft.text_eq Dialect.generic, lead]
  cases draft.second with
  | none =>
      rw [Option.elim_none, List.append_assoc, List.singleton_append,
        words_isWord_append draft.keyword.isWord isBlank_space,
        words_isWord_append draft.name.isWord isBlank_space]
      rfl
  | some second =>
      rw [Option.elim_some, List.append_assoc, List.cons_append, List.append_assoc,
        List.singleton_append, words_isWord_append draft.keyword.isWord isBlank_space,
        words_isWord_append second.isWord isBlank_space]
      rfl

/-- No type has that word for a name, unless the clause reads as a column. -/
theorem ofSqlName?_second (h : ∀ type, ¬ draft.ReadsAsColumn type) :
    ColumnType.ofSqlName? (draft.second.getD draft.name).text = none := by
  have hall : ∀ form ∈ indexForms, ∀ word ∈ form.2, ColumnType.ofSqlName? word = none := by
    decide
  cases hsecond : draft.second with
  | none =>
      rw [Option.eq_none_iff_forall_ne_some]
      intro type htype
      exact h type ⟨hsecond, Identifier.ofSqlName?_eq_some_iff.mp htype⟩
  | some second =>
      have hnone := hall _ draft.known (asciiUpper second.text) (by simp [hsecond])
      rwa [ColumnType.ofSqlName?_asciiUpper] at hnone

theorem isIndex_text (h : ∀ type, ¬ draft.ReadsAsColumn type) :
    Clause.isIndex draft.text = true := by
  have hall : ∀ word ∈ indexForms.map Prod.fst, Clause.indexWords.contains word := by decide
  rw [Clause.isIndex, hall _ draft.leadingWord_text, draft.second_text,
    (draft.second.getD draft.name).before_text (by decide), draft.ofSqlName?_second h,
    Option.isNone_none, Bool.or_true, Bool.and_true]

theorem read_text (lexis : Lexis) (h : ∀ type, ¬ draft.ReadsAsColumn type) :
    Clause.read lexis draft.text = .index :=
  Clause.read_of_isIndex draft.tableKey?_text (draft.isIndex_text h)

/-- No literal begins in the clause of an index. -/
theorem quote_not_mem_text : '\'' ∉ draft.text := by
  have hquote : '\'' ∈ marks := by decide
  have hlisted : '\'' ∉ '(' ::
      (Dialect.generic.plainSpelling.names draft.columns ++ ')' :: []) := by
    simp only [List.mem_cons, List.mem_append, List.not_mem_nil, not_or, or_false]
    refine ⟨by decide, fun hmem => ?_, by decide⟩
    rcases mem_plainNames hmem with hcomma | hmarks
    · exact absurd hcomma (by decide)
    · exact hmarks hquote
  rw [draft.text_eq Dialect.generic]
  intro hmem
  rcases List.mem_append.mp hmem with hmem | hmem
  · exact draft.unmarked_lead _ hmem hquote
  · rcases List.mem_append.mp hmem with hmem | hmem
    · exact draft.name.not_mem_of_mem_marks hquote hmem
    · exact (List.mem_cons.mp hmem).elim (by decide) hlisted

section column

variable {type : ColumnType} (h : draft.ReadsAsColumn type)
include h

theorem text_eq_of_readsAsColumn (dialect : Dialect) :
    draft.text = draft.keyword.text ++ ' ' :: (draft.name.text ++ ' ' :: '(' ::
      (dialect.plainSpelling.names draft.columns ++ ')' :: [])) := by
  rw [draft.text_eq dialect, lead, h.1, Option.elim_none, List.append_assoc,
    List.singleton_append]

/-- The column is named by the keyword. -/
theorem declared?_text :
    ∃ letters : Identifier, letters.Names type ∧
      Clause.declared? draft.text = some (draft.keyword.text, letters.text) := by
  have hall : ∀ word ∈ indexForms.map Prod.fst, Clause.neverColumn.contains word = false := by
    decide
  have hchars : ∀ c ∈ draft.keyword.text,
      (isAlphanumeric c || c == '_' || c == '$') = true := by
    intro c hc
    exact forall_isNameChar (p := fun c => isAlphanumeric c || c == '_' || c == '$')
      (by decide +kernel) (draft.keyword.isNameChar_of_mem hc)
  have hcolumn : Clause.isColumnName (Clause.unquoted draft.keyword.text) = true := by
    have hempty : draft.keyword.text.isEmpty = false := by simpa using draft.keyword.ne_nil
    rw [draft.keyword.unquoted_text, Clause.isColumnName, hempty,
      List.all_eq_true.mpr hchars, hall _ draft.upper_keyword]
    rfl
  have hwords := congrArg words (draft.text_eq_of_readsAsColumn h Dialect.generic)
  rw [words_isWord_append draft.keyword.isWord isBlank_space,
    words_isWord_append draft.name.isWord isBlank_space] at hwords
  have hnext : ∀ rest, ∀ next ∈ (words ('(' :: rest)).head?,
      "varying".toList.isPrefixOf (lower next) = false := by
    intro rest next hnext
    have hbracket : isBlank '(' = false := by decide
    simp only [words, cutWords, hbracket] at hnext
    rw [← Option.some.inj hnext]
    rfl
  obtain ⟨letters, hletters, hnames⟩ := h.2.exists_letters
  have hdeclared := Clause.declared?_of_names hwords hcolumn hletters hnames (hnext _)
  rw [draft.keyword.unquoted_text] at hdeclared
  exact ⟨letters, hnames, hdeclared⟩

/-- No key is declared with such a column. -/
theorem search_text {α : Type} {recognise f : Text → Option α} {k : Char}
    {keyword : Text} (hkeyword : IsKeyword (k :: keyword))
    (hreads : ReadsAfter (k :: keyword) f recognise)
    (hreserved : k :: keyword ∈ ["PRIMARY".toList, "REFERENCES".toList]) :
    search recognise draft.text = none := by
  have hwords : ∀ word ∈ ["PRIMARY".toList, "REFERENCES".toList],
      word ∈ Clause.reservedWords ∧ ∀ form ∈ indexForms, ∀ place ∈ (asciiLower form.1).tails,
        place ≠ asciiLower word := by
    decide
  obtain ⟨hword, hforms⟩ := hwords _ hreserved
  have hkeywordEnds : EndsOtherwise (k :: keyword) draft.keyword.text := by
    apply endsOtherwise_identifier
    rw [← asciiLower_asciiUpper draft.keyword.text]
    exact hforms _ draft.known
  have hlisted : search recognise ('(' ::
      (Dialect.generic.plainSpelling.names draft.columns ++ ')' :: [])) = none :=
    search_cons_eq_none hreads.opensWith (foldCapital_ne hkeyword (by decide))
      (search_plainNames hkeyword hreads.opensWith rfl)
  rw [draft.text_eq_of_readsAsColumn h Dialect.generic,
    search_other hkeyword hreads draft.keyword.isWord.2 hkeywordEnds,
    search_other hkeyword hreads draft.name.isWord.2 (h.2.endsOtherwise hword), hlisted]

theorem read_text_column (dialect : Dialect) :
    ∃ letters : Identifier, letters.Names type ∧
      Clause.read dialect.literalLexis draft.text =
        .column ⟨draft.keyword.text, letters.text, false, none⟩ := by
  obtain ⟨letters, hletters, hdeclared⟩ := draft.declared?_text h
  refine ⟨letters, hletters, ?_⟩
  have hcode : dialect.literalLexis.blankLiterals draft.text = draft.text :=
    blankLiterals_code draft.quote_not_mem_text
  have hindex : Clause.isIndex draft.text = false := by
    have hbracket : draft.keyword.text.contains '(' = false := by
      simpa using draft.keyword.not_mem_of_mem_marks (by decide)
    rw [Clause.isIndex, draft.firstWord_text, hbracket, draft.second_text, h.1,
      Option.getD_none, draft.name.before_text (by decide),
      Identifier.ofSqlName?_eq_some_iff.mpr h.2, Option.isNone_some, Bool.or_false,
      Bool.and_false]
  have hkey : Clause.declaresKey draft.text = false := by
    rw [Clause.declaresKey, searchAtWord_eq_none_of_search
      (draft.search_text h (by decide) readsAfter_keyWordsHere? (by decide))]
    rfl
  have hreference : Clause.reference? draft.text = none :=
    searchAtWord_eq_none_of_search
      (draft.search_text h (by decide) readsAfter_referenceHere? (by decide))
  rw [Clause.read_of_declared? (Clause.isDeclaring_iff.mpr ⟨draft.tableKey?_text, hindex⟩)
    hdeclared, hcode, hkey, hreference]

end column

end IndexDraft

/-- Adding an index clause to a body changes neither the table nor the relationships nor
the notices, unless it reads as a column; then it is the clause of one, without keys. -/
theorem Schema.addTable_index (dialect : Dialect) (schema : Schema) (name : Text)
    (draft : IndexDraft) {body added : Text}
    (hadds : TableBody.AddsClause dialect draft.text body added) :
    ((∀ type, ¬ draft.ReadsAsColumn type) →
      schema.addTable dialect name added = schema.addTable dialect name body) ∧
    ∀ type, draft.ReadsAsColumn type → ∃ front back declaration,
      TableBody.clauses dialect body = front ++ back ∧
      TableBody.clauses dialect added = front ++ .column declaration :: back ∧
      declaration.name = draft.keyword.text ∧ declaration.type = type ∧
      declaration.isKey = false ∧ declaration.reference = none := by
  constructor
  · intro h
    have hread := hadds.read_index draft.isClause_text (draft.read_text _ h) name
    rw [addTable, addTable, hread]
  · intro type h
    obtain ⟨letters, hletters, hread⟩ := draft.read_text_column h dialect
    obtain ⟨front, back, hbody, hadded⟩ := hadds.exists_clauseTexts draft.isClause_text
    refine ⟨front.map (Clause.read dialect.literalLexis),
      back.map (Clause.read dialect.literalLexis),
      ⟨draft.keyword.text, letters.text, false, none⟩, ?_, ?_, rfl, ?_, rfl, rfl⟩
    · rw [TableBody.clauses_eq_map, hbody, List.map_append]
    · rw [TableBody.clauses_eq_map, hadded, List.map_append, List.map_cons, hread]
    · rw [Clause.Declaration.type, ColumnType.ofSqlName,
        Identifier.ofSqlName?_eq_some_iff.mpr hletters, Option.getD_some]

/-- A unique key between two columns adds nothing to them. -/
theorem Schema.addTable_index_between :
    (Schema.empty.addTable .mysql "t".toList "a INT,\n  unique Key k (a, b),\n b INT".toList) =
      Schema.empty.addTable .mysql "t".toList "a INT,\n b INT".toList := by
  have hpiece : TableBody.Padded "unique Key k (a, b)".toList
      "\n  unique Key k (a, b)".toList :=
    ⟨"\n  ".toList, [], by decide, by decide, by decide⟩
  have hfront : Dialect.mysql.EndsClause "a INT".toList := by decide
  have hadds : TableBody.AddsClause .mysql "unique Key k (a, b)".toList
      "a INT,\n b INT".toList "a INT,\n  unique Key k (a, b),\n b INT".toList :=
    .between hpiece hfront "\n b INT".toList
  refine (Schema.addTable_index .mysql Schema.empty "t".toList
    { keyword := ⟨"unique".toList, by decide⟩
      second := some ⟨"Key".toList, by decide⟩
      known := by decide
      name := ⟨"k".toList, by decide⟩
      columns := [⟨"a".toList, by decide⟩, ⟨"b".toList, by decide⟩]
      inhabited := by decide } hadds).1 ?_
  rintro type ⟨hsecond, _⟩
  contradiction

/-- The key `date` over a column reads as a column of that type. -/
theorem Schema.addTable_index_ne :
    ¬ ∀ (draft : IndexDraft) (body added : Text),
      TableBody.AddsClause .mysql draft.text body added →
        Schema.empty.addTable .mysql "t".toList added =
          Schema.empty.addTable .mysql "t".toList body := by
  intro h
  have hsame := h
    { keyword := ⟨"KEY".toList, by decide⟩
      second := none
      known := by decide
      name := ⟨"date".toList, by decide⟩
      columns := [⟨"d".toList, by decide⟩]
      inhabited := by decide } "d DATE".toList "d DATE, KEY date (d)".toList
    (.behind ⟨[' '], [], by decide, by decide, by decide⟩ (by decide))
  exact absurd hsame (by decide +kernel)

end DdlDiagram
