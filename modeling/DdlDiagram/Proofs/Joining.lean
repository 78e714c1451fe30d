/-
One schema joined behind another.  Tables of the later one that the first has by
name are left out together with their relationships.  Adding a table commutes with
joining, so a list of definitions that is read in two parts gives the two parts
joined.
-/
import DdlDiagram.Proofs.Coherence

namespace DdlDiagram

open Text

namespace Schema

/-- Whether a schema has no table of that name. -/
def lacks (schema : Schema) (name : Text) : Bool :=
  (schema.table? name).isNone

/-- The first schema, and behind it what a later one has under names that the
first lacks. -/
def joined (first later : Schema) : Schema :=
  ⟨first.tables ++ later.tables.filter fun table => first.lacks table.name,
    first.relationships ++
      later.relationships.filter fun link => first.lacks link.fromTable⟩

variable {first later schema : Schema} {name : Text}

theorem lacks_iff : schema.lacks name = true ↔
    ∀ table ∈ schema.tables, sameName table.name name = false := by
  rw [lacks, Option.isNone_iff_eq_none, table?_eq_none_iff]

/-- Names that are equal up to ASCII case are lacked alike. -/
theorem lacks_congr {other : Text} (h : sameName name other = true) :
    schema.lacks name = schema.lacks other := by
  have hsame : ∀ table : Table,
      sameName table.name name = sameName table.name other := by
    intro table
    rw [sameName, sameName, sameName_iff.mp h]
  rw [Bool.eq_iff_iff, lacks_iff, lacks_iff]
  simp only [hsame]

theorem joined_empty (schema : Schema) : schema.joined empty = schema := by
  simp [joined, empty]

/-- What comes behind the later schema comes behind the joined one. -/
theorem joined_append (first later : Schema) (tables : List Table)
    (links : List Relationship) :
    first.joined ⟨later.tables ++ tables, later.relationships ++ links⟩ =
      ⟨(first.joined later).tables ++
          tables.filter fun table => first.lacks table.name,
        (first.joined later).relationships ++
          links.filter fun link => first.lacks link.fromTable⟩ := by
  simp [joined]

/-- A joined schema lacks the names that both schemas lack. -/
theorem lacks_joined (first later : Schema) (name : Text) :
    (first.joined later).lacks name =
      (first.lacks name && later.lacks name) := by
  rw [Bool.eq_iff_iff, Bool.and_eq_true, lacks_iff, lacks_iff, lacks_iff]
  constructor
  · intro h
    have hfirst : ∀ table ∈ first.tables, sameName table.name name = false :=
      fun table htable => h table (List.mem_append_left _ htable)
    refine ⟨hfirst, fun table htable => ?_⟩
    by_contra hsame
    rw [Bool.not_eq_false] at hsame
    -- A table of that name would have been kept, since the first schema lacks it.
    have hkept : first.lacks table.name = true := by
      rw [lacks_congr hsame, lacks_iff]
      exact hfirst
    have hnot := h table
      (List.mem_append_right _ (List.mem_filter.mpr ⟨htable, hkept⟩))
    rw [hsame] at hnot
    contradiction
  · rintro ⟨hfirst, hlater⟩ table htable
    rcases List.mem_append.mp htable with htable | htable
    · exact hfirst table htable
    · exact hlater table (List.mem_filter.mp htable).1

theorem addTable_of_lacks {dialect : Dialect} (h : schema.lacks name = true)
    (body : Text) :
    (schema.addTable dialect name body).schema =
      ⟨schema.tables ++ [(TableBody.read dialect name body).table],
        schema.relationships ++
          (TableBody.read dialect name body).relationships⟩ :=
  addTable_of_eq_none (Option.isNone_iff_eq_none.mp h) body

theorem addTable_of_not_lacks {dialect : Dialect} (h : schema.lacks name = false)
    (body : Text) : (schema.addTable dialect name body).schema = schema :=
  addTable_of_isSome (by rw [← Option.not_isNone, ← lacks, h]; rfl) body

/-- Relationships that start at one table are kept when the table is. -/
theorem filter_lacks (schema : Schema) {links : List Relationship}
    (h : ∀ link ∈ links, link.fromTable = name) :
    links.filter (fun link => schema.lacks link.fromTable) =
      if schema.lacks name then links else [] := by
  split
  · next hlacks =>
      rw [List.filter_eq_self]
      intro link hlink
      rw [h link hlink]
      exact hlacks
  · next hlacks =>
      rw [List.filter_eq_nil_iff]
      intro link hlink
      rw [h link hlink]
      exact hlacks

/-- Adding a table to a joined schema is adding it to the later one. -/
theorem addTable_joined (dialect : Dialect) (first later : Schema)
    (name body : Text) :
    ((first.joined later).addTable dialect name body).schema =
      first.joined (later.addTable dialect name body).schema := by
  have hlacks := lacks_joined first later name
  have hlinks := filter_lacks first
    (TableBody.read_fromTable dialect name body)
  cases hlater : later.lacks name with
  | false =>
      rw [hlater, Bool.and_false] at hlacks
      rw [addTable_of_not_lacks hlacks, addTable_of_not_lacks hlater]
  | true =>
      rw [hlater, Bool.and_true] at hlacks
      rw [addTable_of_lacks hlater, joined_append, hlinks, List.filter_cons,
        List.filter_nil, TableBody.read_table_name]
      cases hfirst : first.lacks name with
      | true =>
          rw [hfirst] at hlacks
          exact addTable_of_lacks hlacks body
      | false =>
          rw [hfirst] at hlacks
          rw [addTable_of_not_lacks hlacks]
          simp

/-- Adding tables to a joined schema is adding them to the later one. -/
theorem addTables_joined (dialect : Dialect) (first later : Schema)
    (definitions : List (Text × Text)) :
    (first.joined later).addTables dialect definitions =
      first.joined (later.addTables dialect definitions) := by
  induction definitions generalizing later with
  | nil => rfl
  | cons definition rest ih =>
      have hrest := ih (later.addTable dialect definition.1 definition.2).schema
      rw [← addTable_joined] at hrest
      exact hrest

/-- Definitions that are added in two parts give the two parts joined. -/
theorem addTables_append (dialect : Dialect) (front back : List (Text × Text)) :
    empty.addTables dialect (front ++ back) =
      (empty.addTables dialect front).joined
        (empty.addTables dialect back) := by
  calc
    empty.addTables dialect (front ++ back) =
        (empty.addTables dialect front).addTables dialect back :=
      List.foldl_append
    _ = ((empty.addTables dialect front).joined empty).addTables dialect back := by
      rw [joined_empty]
    _ = _ := addTables_joined dialect _ empty back

/-- Of a coherent schema exactly the relationships of the kept tables are kept. -/
theorem Coherent.filter_relationships (h : later.Coherent) (first : Schema) :
    later.relationships.filter (fun link => first.lacks link.fromTable) =
      (later.tables.filter fun table => first.lacks table.name).flatMap
        fun table => later.relationshipsFrom table.name := by
  have htable : ∀ name,
      (later.relationshipsFrom name).filter
          (fun link => first.lacks link.fromTable) =
        if first.lacks name then later.relationshipsFrom name else [] := by
    intro name
    apply filter_lacks
    intro link hlink
    simpa using (List.mem_filter.mp hlink).2
  have htables : ∀ tables : List Table,
      (tables.flatMap fun table => later.relationshipsFrom table.name).filter
          (fun link => first.lacks link.fromTable) =
        (tables.filter fun table => first.lacks table.name).flatMap
          fun table => later.relationshipsFrom table.name := by
    intro tables
    induction tables with
    | nil => rfl
    | cons table rest ih =>
        rw [List.flatMap_cons, List.filter_append, ih, htable, List.filter_cons]
        split
        · rw [List.flatMap_cons]
        · rfl
  rw [h.grouped]
  exact htables later.tables

end Schema

end DdlDiagram
