/-
Coherence of a schema: no two names in it are the same, its relationships start
at its own tables, table by table, and a column is marked foreign exactly when
a relationship starts at it.  Adding tables to an empty schema, in whatever
number and with whatever bodies, keeps it coherent.
-/
import DdlDiagram.Extraction
import DdlDiagram.Proofs.ClauseKind
import Mathlib.Data.List.Basic

namespace DdlDiagram

open Text

/-- No two of the names are equal up to ASCII case. -/
def DistinctNames (names : List Text) : Prop :=
  names.Pairwise fun left right => sameName left right = false

/-- A name that is not empty and holds only letters, numbers, `_` and `$`. -/
def IsPlainName (name : Text) : Prop :=
  name ≠ [] ∧ ∀ c ∈ name, isAlphanumeric c = true ∨ c = '_' ∨ c = '$'

/-- The relationships that start at a table. -/
def Schema.relationshipsFrom (schema : Schema) (name : Text) :
    List Relationship :=
  schema.relationships.filter fun link => link.fromTable == name

/-- What holds between the parts of a schema. -/
structure Schema.Coherent (schema : Schema) : Prop where
  tableNames : DistinctNames (schema.tables.map Table.name)
  columnNames : ∀ table ∈ schema.tables,
    DistinctNames (table.columns.map Column.name)
  plainNames : ∀ table ∈ schema.tables, ∀ column ∈ table.columns,
    IsPlainName column.name
  fromTables : ∀ link ∈ schema.relationships,
    ∃ table ∈ schema.tables, link.fromTable = table.name
  grouped : schema.relationships =
    schema.tables.flatMap fun table => schema.relationshipsFrom table.name
  foreignKeys : ∀ table ∈ schema.tables, ∀ column ∈ table.columns,
    (column.isForeignKey = true ↔
      ∃ link ∈ schema.relationships, link.fromTable = table.name ∧
        sameName link.fromColumn column.name = true)

/-- The schema after adding tables of given names and bodies in order. -/
def Schema.addTables (dialect : Dialect) (schema : Schema)
    (definitions : List (Text × Text)) : Schema :=
  definitions.foldl (fun schema (name, body) =>
    (schema.addTable dialect name body).schema) schema

theorem Schema.table?_eq_none_iff {schema : Schema} {name : Text} :
    schema.table? name = none ↔
      ∀ table ∈ schema.tables, sameName table.name name = false := by
  rw [Schema.table?, List.find?_eq_none]
  simp only [Bool.not_eq_true]

namespace Outcome

section declarations

variable (rest : List Outcome)

@[simp] theorem declared_links (list : List Clause.Link) :
    (links list :: rest).filterMap declaration? =
      rest.filterMap declaration? := rfl

@[simp] theorem declared_keys (columns : List Text) :
    (keys columns :: rest).filterMap declaration? =
      rest.filterMap declaration? := rfl

@[simp] theorem declared_passed :
    (passed :: rest).filterMap declaration? =
      rest.filterMap declaration? := rfl

@[simp] theorem declared_repeated (name : Text) :
    (repeated name :: rest).filterMap declaration? =
      rest.filterMap declaration? := rfl

@[simp] theorem declared_discarded (text : Text) :
    (discarded text :: rest).filterMap declaration? =
      rest.filterMap declaration? := rfl

@[simp] theorem declared_column (declaration : Clause.Declaration) :
    (column declaration :: rest).filterMap declaration? =
      declaration :: rest.filterMap declaration? := rfl

end declarations

/-- The columns that outcomes add are distinct, and new to the names seen
before. -/
theorem distinct_declared (seen : List Text) (clauses : List Clause) :
    DistinctNames (((ofClauses seen clauses).filterMap declaration?).map
        Clause.Declaration.name) ∧
      ∀ declaration ∈ (ofClauses seen clauses).filterMap declaration?,
        ∀ name ∈ seen, sameName declaration.name name = false := by
  induction clauses generalizing seen with
  | nil => exact ⟨List.Pairwise.nil, by simp [ofClauses]⟩
  | cons clause rest ih =>
      cases clause with
      | foreignKey list => exact ih seen
      | primaryKey columns => exact ih seen
      | index => exact ih seen
      | unknown text => exact ih seen
      | column declaration =>
          by_cases hseen : seen.any (sameName declaration.name)
          · rw [ofClauses, if_pos hseen, declared_repeated]
            exact ih seen
          · obtain ⟨hrest, hnew⟩ := ih (declaration.name :: seen)
            rw [ofClauses, if_neg hseen, declared_column]
            refine ⟨List.pairwise_cons.mpr ⟨?_, hrest⟩, ?_⟩
            · intro name hname
              obtain ⟨other, hother, rfl⟩ := List.mem_map.mp hname
              rw [sameName_comm]
              exact hnew other hother declaration.name List.mem_cons_self
            · intro other hother name hname
              rcases List.mem_cons.mp hother with rfl | hother
              · rw [Bool.eq_false_iff]
                intro hsame
                exact hseen (List.any_eq_true.mpr ⟨name, hname, hsame⟩)
              · exact hnew other hother name (List.mem_cons_of_mem _ hname)

/-- What may come of a clause. -/
inductive Of : Clause → Outcome → Prop
  | links (list : List Clause.Link) : Of (.foreignKey list) (links list)
  | keys (columns : List Text) : Of (.primaryKey columns) (keys columns)
  | passed : Of .index passed
  | column (declaration : Clause.Declaration) :
      Of (.column declaration) (column declaration)
  | repeated (declaration : Clause.Declaration) :
      Of (.column declaration) (repeated declaration.name)
  | discarded (text : Text) : Of (.unknown text) (discarded text)

/-- The first clause has one outcome, whatever clauses are behind it, and they are read
behind the columns that are seen then. -/
theorem exists_step (seen : List Text) (clause : Clause) :
    ∃ outcome seen', Of clause outcome ∧
      ∀ rest, ofClauses seen (clause :: rest) = outcome :: ofClauses seen' rest := by
  cases clause with
  | foreignKey list => exact ⟨_, seen, .links list, fun _ => rfl⟩
  | primaryKey columns => exact ⟨_, seen, .keys columns, fun _ => rfl⟩
  | index => exact ⟨_, seen, .passed, fun _ => rfl⟩
  | unknown text => exact ⟨_, seen, .discarded text, fun _ => rfl⟩
  | column declaration =>
      by_cases hseen : seen.any (sameName declaration.name)
      · exact ⟨_, seen, .repeated declaration, fun _ => if_pos hseen⟩
      · exact ⟨_, _, .column declaration, fun _ => if_neg hseen⟩

/-- Every outcome comes of one of the clauses. -/
theorem exists_clause_of_mem {seen : List Text} {clauses : List Clause} {outcome : Outcome}
    (h : outcome ∈ ofClauses seen clauses) : ∃ clause ∈ clauses, Of clause outcome := by
  induction clauses generalizing seen with
  | nil => contradiction
  | cons clause rest ih =>
      obtain ⟨first, seen', hfirst, hstep⟩ := exists_step seen clause
      rw [hstep] at h
      rcases List.mem_cons.mp h with rfl | h
      · exact ⟨clause, List.mem_cons_self, hfirst⟩
      · obtain ⟨other, hother, hof⟩ := ih h
        exact ⟨other, List.mem_cons_of_mem clause hother, hof⟩

/-- An outcome adds only columns that a clause declares. -/
theorem mem_declared {seen : List Text} {clauses : List Clause}
    {declaration : Clause.Declaration}
    (h : declaration ∈ (ofClauses seen clauses).filterMap declaration?) :
    Clause.column declaration ∈ clauses := by
  obtain ⟨outcome, houtcome, hdeclared⟩ := List.mem_filterMap.mp h
  obtain ⟨clause, hclause, hof⟩ := exists_clause_of_mem houtcome
  cases hof with
  | column => rwa [← Option.some.inj hdeclared]
  | links | keys | passed | repeated | discarded => contradiction

end Outcome

namespace Clause

theorem declared?_isColumnName {clause name typeName : Text}
    (h : declared? clause = some (name, typeName)) :
    isColumnName name = true := by
  unfold declared? at h
  split at h
  · next first second others _ =>
      simp only [Bool.or_eq_true, Bool.not_eq_eq_eq_not, Bool.not_true] at h
      by_cases hname : isColumnName (unquoted first) = true
      · split at h
        · simp at h
        · split at h <;> simp only [Option.some.injEq, Prod.mk.injEq] at h <;>
            exact h.1 ▸ hname
      · simp [hname] at h
  · simp at h

theorem isPlainName_of_isColumnName {name : Text}
    (h : isColumnName name = true) : IsPlainName name := by
  simp only [isColumnName, Bool.and_eq_true, List.all_eq_true,
    Bool.or_eq_true, beq_iff_eq] at h
  obtain ⟨⟨hempty, hchars⟩, _⟩ := h
  refine ⟨by rintro rfl; simp at hempty, ?_⟩
  intro c hc
  exact or_assoc.mp (hchars c hc)

/-- A clause that is read as a column declares that column. -/
theorem declaration_of_read {lexis : Lexis} {text : Text}
    {declaration : Declaration} (h : read lexis text = column declaration) :
    Declaration.read? lexis text = some declaration := by
  rw [read] at h
  split at h
  · next clause hkey =>
      subst h
      rcases tableKey?_cases hkey with ⟨_, _, hcolumn⟩ | ⟨_, _, hcolumn⟩ <;> contradiction
  · split at h
    · contradiction
    · split at h
      · next read hread =>
          obtain rfl : read = declaration := by simpa using h
          exact hread
      · contradiction

/-- A clause that is read as a column declares a plain name. -/
theorem isPlainName_of_read {lexis : Lexis} {text : Text}
    {declaration : Declaration} (h : read lexis text = column declaration) :
    IsPlainName declaration.name := by
  obtain ⟨⟨name, typeName⟩, hdeclared, rfl⟩ :=
    Option.map_eq_some_iff.mp (declaration_of_read h)
  exact isPlainName_of_isColumnName (declared?_isColumnName hdeclared)

end Clause

namespace TableBody

variable (dialect : Dialect) (name body : Text)

@[simp] theorem read_table_name :
    (read dialect name body).table.name = name := rfl

theorem read_columnNames :
    DistinctNames ((read dialect name body).table.columns.map
      Column.name) := by
  have h := (Outcome.distinct_declared [] (clauses dialect body)).1
  simpa [read, ofOutcomes, outcomes, Function.comp_def] using h

theorem read_plainNames :
    ∀ column ∈ (read dialect name body).table.columns,
      IsPlainName column.name := by
  intro column hcolumn
  obtain ⟨declaration, hdeclared, rfl⟩ := List.mem_map.mp hcolumn
  have hclause := Outcome.mem_declared hdeclared
  obtain ⟨part, _, hpart⟩ := List.mem_map.mp hclause
  exact Clause.isPlainName_of_read hpart

theorem read_fromTable :
    ∀ link ∈ (read dialect name body).relationships,
      link.fromTable = name := by
  intro link hlink
  obtain ⟨_, _, rfl⟩ := List.mem_map.mp hlink
  rfl

/-- Within one body, a column is foreign exactly when a relationship of the
body starts at it. -/
theorem read_isForeignKey :
    ∀ column ∈ (read dialect name body).table.columns,
      (column.isForeignKey = true ↔
        ∃ link ∈ (read dialect name body).relationships,
          sameName link.fromColumn column.name = true) := by
  intro column hcolumn
  obtain ⟨declaration, _, rfl⟩ := List.mem_map.mp hcolumn
  rw [List.any_eq_true]
  constructor
  · rintro ⟨link, hlink, hsame⟩
    exact ⟨_, List.mem_map_of_mem hlink, by rwa [sameName_comm]⟩
  · rintro ⟨_, hlink, hsame⟩
    obtain ⟨link, hmem, rfl⟩ := List.mem_map.mp hlink
    exact ⟨link, hmem, by rwa [sameName_comm]⟩

end TableBody

namespace Schema

theorem coherent_empty : Schema.empty.Coherent where
  tableNames := List.Pairwise.nil
  columnNames := by simp [empty]
  plainNames := by simp [empty]
  fromTables := by simp [empty]
  grouped := rfl
  foreignKeys := by simp [empty]

/-- A name that no table of a schema has is not that of any of its tables. -/
theorem ne_of_table?_eq_none {schema : Schema} {name : Text}
    (hnew : schema.table? name = none) {table : Table}
    (htable : table ∈ schema.tables) : table.name ≠ name := by
  rintro rfl
  have hdistinct := table?_eq_none_iff.mp hnew table htable
  simp at hdistinct

/-- A coherent schema has no relationship from a name that none of its tables
has. -/
theorem Coherent.fromTable_ne {schema : Schema} (h : schema.Coherent)
    {name : Text} (hnew : schema.table? name = none) {link : Relationship}
    (hlink : link ∈ schema.relationships) : link.fromTable ≠ name := by
  obtain ⟨table, htable, heq⟩ := h.fromTables link hlink
  rw [heq]
  exact ne_of_table?_eq_none hnew htable

/-- Adding a table whose name is taken leaves the schema as it was. -/
theorem addTable_of_isSome {dialect : Dialect} {schema : Schema}
    {name : Text} (h : (schema.table? name).isSome) (body : Text) :
    (schema.addTable dialect name body).schema = schema := by
  rw [addTable, if_pos h]

/-- Adding a table of a new name puts it and its relationships at the end. -/
theorem addTable_of_eq_none {dialect : Dialect} {schema : Schema}
    {name : Text} (h : schema.table? name = none) (body : Text) :
    (schema.addTable dialect name body).schema =
      ⟨schema.tables ++ [(TableBody.read dialect name body).table],
        schema.relationships ++
          (TableBody.read dialect name body).relationships⟩ := by
  rw [addTable, if_neg (by simp [h])]

theorem relationshipsFrom_append (schema : Schema) (tables : List Table)
    (links : List Relationship) (name : Text) :
    relationshipsFrom ⟨tables, schema.relationships ++ links⟩ name =
      schema.relationshipsFrom name ++
        links.filter fun link => link.fromTable == name :=
  List.filter_append _ _

/-- No relationship starts at a name that is new. -/
theorem Coherent.relationshipsFrom_eq_nil {schema : Schema}
    (h : schema.Coherent) {name : Text} (hnew : schema.table? name = none) :
    schema.relationshipsFrom name = [] := by
  rw [relationshipsFrom, List.filter_eq_nil_iff]
  intro link hlink
  simpa using h.fromTable_ne hnew hlink

/-- Old tables keep their relationships, and the new one has its own. -/
theorem Coherent.grouped_append {schema : Schema} (h : schema.Coherent)
    {table : Table} {links : List Relationship}
    (hnew : schema.table? table.name = none)
    (hlinks : ∀ link ∈ links, link.fromTable = table.name) :
    schema.relationships ++ links =
      (schema.tables ++ [table]).flatMap fun other =>
        relationshipsFrom ⟨schema.tables ++ [table],
          schema.relationships ++ links⟩ other.name := by
  have hold : ∀ old ∈ schema.tables,
      relationshipsFrom ⟨schema.tables ++ [table],
        schema.relationships ++ links⟩ old.name =
          schema.relationshipsFrom old.name := by
    intro old hmem
    rw [relationshipsFrom_append, List.append_right_eq_self,
      List.filter_eq_nil_iff]
    intro link hlink hfrom
    rw [hlinks link hlink, beq_iff_eq] at hfrom
    exact ne_of_table?_eq_none hnew hmem hfrom.symm
  have hlast : relationshipsFrom ⟨schema.tables ++ [table],
      schema.relationships ++ links⟩ table.name = links := by
    rw [relationshipsFrom_append, h.relationshipsFrom_eq_nil hnew,
      List.nil_append, List.filter_eq_self]
    intro link hlink
    rw [hlinks link hlink, beq_self_eq_true]
  rw [List.flatMap_append, List.flatMap_singleton, hlast,
    List.flatMap_congr hold]
  exact congrArg (· ++ links) h.grouped

/-- A table of a new name, with relationships that start at it, joins a
coherent schema. -/
theorem Coherent.append {schema : Schema} (h : schema.Coherent)
    {table : Table} {links : List Relationship}
    (hnew : schema.table? table.name = none)
    (hnames : DistinctNames (table.columns.map Column.name))
    (hplain : ∀ column ∈ table.columns, IsPlainName column.name)
    (hlinks : ∀ link ∈ links, link.fromTable = table.name)
    (hforeign : ∀ column ∈ table.columns, (column.isForeignKey = true ↔
      ∃ link ∈ links, sameName link.fromColumn column.name = true)) :
    Coherent ⟨schema.tables ++ [table], schema.relationships ++ links⟩ where
  tableNames := by
    rw [DistinctNames, List.map_append, List.pairwise_append]
    refine ⟨h.tableNames, List.pairwise_singleton _ _, ?_⟩
    intro left hleft right hright
    obtain ⟨old, hold, rfl⟩ := List.mem_map.mp hleft
    obtain rfl := List.mem_singleton.mp hright
    exact table?_eq_none_iff.mp hnew old hold
  columnNames := by
    intro other hother
    rcases List.mem_append.mp hother with hold | hlast
    · exact h.columnNames other hold
    · obtain rfl := List.mem_singleton.mp hlast
      exact hnames
  plainNames := by
    intro other hother
    rcases List.mem_append.mp hother with hold | hlast
    · exact h.plainNames other hold
    · obtain rfl := List.mem_singleton.mp hlast
      exact hplain
  fromTables := by
    intro link hlink
    rcases List.mem_append.mp hlink with hold | hlast
    · obtain ⟨old, hmem, heq⟩ := h.fromTables link hold
      exact ⟨old, List.mem_append_left _ hmem, heq⟩
    · exact ⟨table, List.mem_append_right _ List.mem_cons_self,
        hlinks link hlast⟩
  grouped := h.grouped_append hnew hlinks
  foreignKeys := by
    intro other hother column hcolumn
    rcases List.mem_append.mp hother with hold | hlast
    · rw [h.foreignKeys other hold column hcolumn]
      constructor
      · rintro ⟨link, hlink, hfrom⟩
        exact ⟨link, List.mem_append_left _ hlink, hfrom⟩
      · rintro ⟨link, hlink, hfrom, hsame⟩
        rcases List.mem_append.mp hlink with hmem | hmem
        · exact ⟨link, hmem, hfrom, hsame⟩
        · exact absurd (hfrom.symm.trans (hlinks link hmem))
            (ne_of_table?_eq_none hnew hold)
    · obtain rfl := List.mem_singleton.mp hlast
      rw [hforeign column hcolumn]
      constructor
      · rintro ⟨link, hlink, hsame⟩
        exact ⟨link, List.mem_append_right _ hlink, hlinks link hlink, hsame⟩
      · rintro ⟨link, hlink, hfrom, hsame⟩
        rcases List.mem_append.mp hlink with hmem | hmem
        · exact absurd hfrom (h.fromTable_ne hnew hmem)
        · exact ⟨link, hmem, hsame⟩

/-- Adding a table keeps a schema coherent. -/
theorem Coherent.addTable {schema : Schema} (h : schema.Coherent)
    (dialect : Dialect) (name body : Text) :
    (schema.addTable dialect name body).schema.Coherent := by
  cases hfound : schema.table? name with
  | some table =>
      rw [addTable_of_isSome (by simp [hfound])]
      exact h
  | none =>
      rw [addTable_of_eq_none hfound]
      exact h.append hfound (TableBody.read_columnNames dialect name body)
        (TableBody.read_plainNames dialect name body)
        (TableBody.read_fromTable dialect name body)
        (TableBody.read_isForeignKey dialect name body)

/-- Adding tables in order keeps a schema coherent. -/
theorem Coherent.addTables {schema : Schema} (h : schema.Coherent)
    (dialect : Dialect) (definitions : List (Text × Text)) :
    (schema.addTables dialect definitions).Coherent := by
  induction definitions generalizing schema with
  | nil => exact h
  | cons definition rest ih =>
      exact ih (h.addTable dialect definition.1 definition.2)

end Schema

/-- The closed sites of a text, as tables to add. -/
def TableSite.definitions (text : Text) (sites : List TableSite) :
    List (Text × Text) :=
  sites.filterMap fun site =>
    site.closing.map fun closing =>
      (site.name, TableSite.body text site.opening closing)

/-- Extraction adds the tables of the closed sites in order. -/
theorem Extraction.ofSites_schema (dialect : Dialect) (text : Text)
    (schema : Schema) (sites : List TableSite) :
    (ofSites dialect text schema sites).schema =
      schema.addTables dialect (TableSite.definitions text sites) := by
  induction sites generalizing schema with
  | nil => rfl
  | cons site rest ih =>
      rcases hclosing : site.closing with _ | closing
      · simp only [ofSites, hclosing]
        rw [ih, TableSite.definitions, TableSite.definitions,
          List.filterMap_cons_none (by rw [hclosing]; rfl)]
      · simp only [ofSites, hclosing]
        rw [ih, TableSite.definitions, TableSite.definitions,
          List.filterMap_cons_some (by rw [hclosing]; rfl)]
        rfl

/-- Every schema read from a text is coherent, and so is every schema that
adding tables builds. -/
theorem schema_coherent (dialect : Dialect) :
    (∀ text, (Extraction.ofText dialect text).schema.Coherent) ∧
      ∀ definitions, (Schema.empty.addTables dialect definitions).Coherent := by
  constructor
  · intro text
    rw [Extraction.ofText, Extraction.ofSites_schema]
    exact Schema.coherent_empty.addTables dialect _
  · intro definitions
    exact Schema.coherent_empty.addTables dialect definitions

end DdlDiagram
