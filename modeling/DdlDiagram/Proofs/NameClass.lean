/-
The characters of names.  Whatever a text is, the names of the schema read from it
are words: tables are named by word characters, columns by alphanumeric ones, and
the columns that a key names are cut out of its list at commas and blanks.
-/
import DdlDiagram.Conversion
import DdlDiagram.Proofs.Coherence
import DdlDiagram.Proofs.HeaderApart

namespace DdlDiagram

open Text Phrase

/-- A name of word characters. -/
def IsWordName (name : Text) : Prop :=
  name ≠ [] ∧ ∀ c ∈ name, isWordChar c = true

instance (name : Text) : Decidable (IsWordName name) :=
  inferInstanceAs (Decidable (_ ∧ _))

theorem IsWordName.isWord {name : Text} (h : IsWordName name) : IsWord name :=
  ⟨h.1, fun c hc => isBlank_of_isWordChar (h.2 c hc)⟩

theorem isBlank_of_isAlphanumeric {c : Char} (hc : isAlphanumeric c = true) :
    isBlank c = false := by
  have hall : ∀ code ∈ blankCodes, isAlphanumeric (Char.ofNat code) = false := by
    decide +kernel
  by_contra hblank
  rw [Bool.not_eq_false] at hblank
  have hcode := hall c.toNat (mem_blankCodes hblank)
  rw [Char.ofNat_toNat, hc] at hcode
  exact Bool.noConfusion hcode

theorem IsPlainName.isWord {name : Text} (h : IsPlainName name) : IsWord name := by
  refine ⟨h.1, fun c hc => ?_⟩
  rcases h.2 c hc with hc | rfl | rfl
  · exact isBlank_of_isAlphanumeric hc
  · decide
  · decide

namespace Phrase

section recognisers

variable {α : Type} {recognise : Text → Option α} {text word rest : Text} {result : α}

/-- What a search finds stands at some place of the text. -/
theorem exists_of_search (h : search recognise text = some result) :
    ∃ place, place <:+ text ∧ recognise place = some result := by
  induction text with
  | nil => contradiction
  | cons c rest ih =>
      rcases Option.or_eq_some_iff.mp h with hhere | ⟨_, hlater⟩
      · exact ⟨c :: rest, List.suffix_rfl, hhere⟩
      · obtain ⟨place, hplace, hread⟩ := ih hlater
        exact ⟨place, hplace.trans (List.suffix_cons c rest), hread⟩

theorem exists_of_searchAtWord {previous : Option Char}
    (h : searchAtWord recognise previous text = some result) :
    ∃ place, recognise place = some result := by
  induction text generalizing previous with
  | nil => contradiction
  | cons c rest ih =>
      rcases Option.or_eq_some_iff.mp h with hhere | ⟨_, hlater⟩
      · split at hhere
        · contradiction
        · exact ⟨c :: rest, hhere⟩
      · exact ih hlater

theorem isWordName_of_quotedWord? (h : quotedWord? text = some (word, rest)) :
    IsWordName word := by
  obtain ⟨_, _, _, _, hword, _, _⟩ := quotedWord?_pieces h
  refine ⟨?_, hword⟩
  rintro rfl
  simp only [quotedWord?] at h
  split at h
  · contradiction
  · next hempty =>
      rw [(Prod.mk.inj (Option.some.inj h)).1] at hempty
      contradiction

/-- The last word of a dotted name is read as a word. -/
theorem isWordName_of_nameBeforeBracket?
    (h : nameBeforeBracket? text = some (word, rest)) : IsWordName word := by
  fun_induction nameBeforeBracket? text with
  | case1 | case2 | case5 => contradiction
  | case3 text read behind hread =>
      rw [← (Prod.mk.inj (Option.some.inj h)).1]
      exact isWordName_of_quotedWord? hread
  | case4 text read behind hread more hmore hdot ih => exact ih h

end recognisers

end Phrase

theorem Header.isWordName_of_mem_all {text : Text} {header : Header}
    (h : header ∈ all text) : IsWordName header.name := by
  obtain ⟨_, _, phrase, body, _, _, hread, _⟩ := mem_all_iff.mp h
  rw [read?_eq_bind] at hread
  obtain ⟨behind, _, hname⟩ := Option.bind_eq_some_iff.mp hread
  exact isWordName_of_nameBeforeBracket? hname

theorem TableSite.isWordName_of_mem_all {lexis : Lexis} {text : Text}
    {site : TableSite} (h : site ∈ all lexis text) : IsWordName site.name := by
  obtain ⟨header, hheader, hsite⟩ := List.mem_filterMap.mp h
  obtain ⟨_, _, rfl⟩ := Option.map_eq_some_iff.mp hsite
  exact Header.isWordName_of_mem_all hheader

namespace Clause

/-- A column that a list names is part of the first word of an entry. -/
theorem isWord_of_mem_columnNames {list name : Text} (h : name ∈ columnNames list) :
    IsWord name := by
  obtain ⟨hmem, hne⟩ := List.mem_filter.mp h
  obtain ⟨entry, _, rfl⟩ := List.mem_map.mp hmem
  refine ⟨by simpa using hne, fun c hc => ?_⟩
  have hword := (List.takeWhile_prefix _).subset (mem_of_mem_trimMatching hc)
  simpa using List.mem_takeWhile_imp hword

/-- A link between words. -/
structure Link.Named (link : Link) : Prop where
  column : IsWord link.column
  table : IsWordName link.table
  target : IsWord link.target

end Clause

/-- A clause whose columns are words, and whose links are between words. -/
def Clause.Named : Clause → Prop
  | foreignKey links => ∀ link ∈ links, link.Named
  | column declaration =>
      IsPlainName declaration.name ∧
        ∀ reference ∈ declaration.reference,
          IsWordName reference.1 ∧ IsWordName reference.2
  | primaryKey _ | index | unknown _ => True

namespace Clause

theorem named_of_foreignKeyHere? {text : Text} {links : List Link}
    (h : foreignKeyHere? text = some links) : ∀ link ∈ links, link.Named := by
  simp only [foreignKeyHere?, Option.bind_eq_bind, Option.bind_eq_some_iff] at h
  obtain ⟨_, _, _, _, _, _, ⟨columns, _⟩, _, _, _, ⟨table, _⟩, htable,
    ⟨targets, _⟩, _, hlinks⟩ := h
  obtain rfl := Option.some.inj hlinks
  intro link hlink
  rw [← List.map_uncurry_zip_eq_zipWith] at hlink
  obtain ⟨⟨column, target⟩, hpair, rfl⟩ := List.mem_map.mp hlink
  obtain ⟨hcolumn, htarget⟩ := List.of_mem_zip hpair
  exact ⟨isWord_of_mem_columnNames hcolumn, isWordName_of_nameBeforeBracket? htable,
    isWord_of_mem_columnNames htarget⟩

theorem isWordName_of_referenceHere? {text : Text} {reference : Text × Text}
    (h : referenceHere? text = some reference) :
    IsWordName reference.1 ∧ IsWordName reference.2 := by
  simp only [referenceHere?, Option.bind_eq_bind, Option.bind_eq_some_iff] at h
  obtain ⟨_, _, ⟨table, _⟩, htable, ⟨column, _⟩, hcolumn, _, _, hpair⟩ := h
  obtain rfl := Option.some.inj hpair
  exact ⟨isWordName_of_nameBeforeBracket? htable, isWordName_of_quotedWord? hcolumn⟩

theorem named_of_tableKey? {text : Text} {clause : Clause}
    (h : tableKey? text = some clause) : clause.Named := by
  rcases tableKey?_cases h with ⟨links, hlinks, rfl⟩ | ⟨columns, _, rfl⟩
  · obtain ⟨place, _, hplace⟩ := exists_of_search hlinks
    exact named_of_foreignKeyHere? hplace
  · exact trivial

theorem named_of_declaration {lexis : Lexis} {text : Text} {declaration : Declaration}
    (h : Declaration.read? lexis text = some declaration) :
    (column declaration).Named := by
  obtain ⟨⟨name, typeName⟩, hdeclared, rfl⟩ := Option.map_eq_some_iff.mp h
  refine ⟨isPlainName_of_isColumnName (declared?_isColumnName hdeclared), ?_⟩
  intro reference hreference
  obtain ⟨place, hplace⟩ := exists_of_searchAtWord hreference
  exact isWordName_of_referenceHere? hplace

/-- Every clause that is read is of named columns and links. -/
theorem named_read (lexis : Lexis) (text : Text) : (read lexis text).Named := by
  rw [read]
  split
  · next clause hkey => exact named_of_tableKey? hkey
  · split
    · exact trivial
    · split
      · next declaration hread => exact named_of_declaration hread
      · exact trivial

end Clause

namespace Outcome

/-- The links that an outcome declares are those of its clause. -/
theorem Of.named {clause : Clause} {outcome : Outcome} (h : Of clause outcome)
    (hclause : clause.Named) : ∀ link ∈ outcome.foreignLinks, link.Named := by
  cases h with
  | links list => exact hclause
  | keys | passed | repeated | discarded => exact fun link hlink => by contradiction
  | column declaration =>
      intro link hlink
      obtain ⟨reference, hreference, rfl⟩ :=
        Option.map_eq_some_iff.mp (Option.mem_toList.mp hlink)
      obtain ⟨htable, htarget⟩ := hclause.2 reference hreference
      exact ⟨hclause.1.isWord, htable, htarget.isWord⟩

theorem named_of_mem_foreignLinks {seen : List Text} {clauses : List Clause}
    (hclauses : ∀ clause ∈ clauses, clause.Named) {link : Clause.Link}
    (h : link ∈ (ofClauses seen clauses).flatMap foreignLinks) : link.Named := by
  obtain ⟨outcome, houtcome, hlink⟩ := List.mem_flatMap.mp h
  obtain ⟨clause, hclause, hof⟩ := exists_clause_of_mem houtcome
  exact hof.named (hclauses clause hclause) link hlink

end Outcome

/-- A relationship between words. -/
structure Relationship.Named (link : Relationship) : Prop where
  fromTable : IsWordName link.fromTable
  fromColumn : IsWord link.fromColumn
  toTable : IsWordName link.toTable
  toColumn : IsWord link.toColumn

theorem TableBody.named_read (dialect : Dialect) {name : Text} (hname : IsWordName name)
    (body : Text) : ∀ link ∈ (read dialect name body).relationships, link.Named := by
  intro link hlink
  obtain ⟨foreign, hforeign, rfl⟩ := List.mem_map.mp hlink
  have hclauses : ∀ clause ∈ clauses dialect body, clause.Named := by
    intro clause hclause
    obtain ⟨part, _, rfl⟩ := List.mem_map.mp hclause
    exact Clause.named_read dialect.literalLexis part
  have hnamed := Outcome.named_of_mem_foreignLinks hclauses hforeign
  exact ⟨hname, hnamed.column, hnamed.table, hnamed.target⟩

/-- A schema whose tables, columns and relationships have words for names. -/
structure Schema.Named (schema : Schema) : Prop where
  tables : ∀ table ∈ schema.tables, IsWordName table.name
  columns : ∀ table ∈ schema.tables, ∀ column ∈ table.columns,
    IsPlainName column.name
  relationships : ∀ link ∈ schema.relationships, link.Named

namespace Schema

theorem named_empty : Schema.empty.Named where
  tables := by simp [empty]
  columns := by simp [empty]
  relationships := by simp [empty]

/-- Adding a table keeps the names of a schema words. -/
theorem Named.addTable {schema : Schema} (h : schema.Named) (dialect : Dialect)
    {name : Text} (hname : IsWordName name) (body : Text) :
    (schema.addTable dialect name body).schema.Named := by
  cases hfound : schema.table? name with
  | some table =>
      rw [addTable_of_isSome (by simp [hfound])]
      exact h
  | none =>
      rw [addTable_of_eq_none hfound]
      constructor
      · exact List.forall_mem_append.mpr ⟨h.tables, by simpa using hname⟩
      · refine List.forall_mem_append.mpr ⟨h.columns, ?_⟩
        simpa using TableBody.read_plainNames dialect name body
      · exact List.forall_mem_append.mpr
          ⟨h.relationships, TableBody.named_read dialect hname body⟩

theorem Named.addTables {schema : Schema} (h : schema.Named) (dialect : Dialect)
    {definitions : List (Text × Text)}
    (hnames : ∀ definition ∈ definitions, IsWordName definition.1) :
    (schema.addTables dialect definitions).Named := by
  induction definitions generalizing schema with
  | nil => exact h
  | cons definition rest ih =>
      obtain ⟨hname, hrest⟩ := List.forall_mem_cons.mp hnames
      exact ih (h.addTable dialect hname definition.2) hrest

end Schema

namespace Extraction

/-- Every schema that is read from a clean text has words for names. -/
theorem named_ofText (dialect : Dialect) (text : Text) :
    (ofText dialect text).schema.Named := by
  rw [ofText, ofSites_schema]
  apply Schema.named_empty.addTables
  intro definition hdefinition
  obtain ⟨site, hsite, hbody⟩ := List.mem_filterMap.mp hdefinition
  obtain ⟨closing, _, rfl⟩ := Option.map_eq_some_iff.mp hbody
  exact TableSite.isWordName_of_mem_all hsite

theorem named_ofSql (dialect : Dialect) (sql : Text) :
    (ofSql dialect sql).schema.Named :=
  named_ofText dialect _

end Extraction

end DdlDiagram
