/-
The round trip from drafts to SQL and back.  A script is cleaned to its text without
name quotes, the sites of that text are the definitions, and reading them in order
gives the schema that the drafts describe, without a notice.
-/
import DdlDiagram.Conversion
import DdlDiagram.Proofs.BodyReading
import DdlDiagram.Proofs.Cleaning

namespace DdlDiagram

open Text

variable (dialect : Dialect)

/-- A definition of a new table adds what its draft describes. -/
theorem Schema.addTable_draft {schema : Schema} {draft : TableDraft}
    (hnew : schema.table? draft.name.text = none) :
    schema.addTable dialect draft.name.text
        (draft.body dialect.plainSpelling) =
      ⟨⟨schema.tables ++ [draft.table],
        schema.relationships ++ draft.relationships⟩, true, []⟩ := by
  rw [addTable, if_neg (by simp [hnew]), TableBody.read_body]

/-- A name that is new to a schema is new behind a table of another name. -/
theorem Schema.table?_append_eq_none {schema : Schema} {table : Table}
    {links : List Relationship} {name : Text} (hnew : schema.table? name = none)
    (hname : sameName table.name name = false) :
    (⟨schema.tables ++ [table], links⟩ : Schema).table? name = none := by
  rw [table?_eq_none_iff] at hnew ⊢
  intro other hother
  rcases List.mem_append.mp hother with hold | hlast
  · exact hnew other hold
  · rw [List.mem_singleton.mp hlast]
    exact hname

/-- Definitions of new tables add what their drafts describe, one after the
other. -/
theorem Extraction.ofSites_placed {tables : List Placed}
    (hdistinct : DistinctNames
      (tables.map fun placed => placed.draft.name.text))
    {schema : Schema} (hnew : ∀ placed ∈ tables,
      schema.table? placed.draft.name.text = none)
    {pre trail text : Text}
    (htext : text = pre ++ (Script.textOf dialect.plainSpelling tables ++ trail)) :
    ofSites dialect text schema
        (Placed.sites dialect.plainSpelling (byteLength pre) tables) =
      ⟨⟨schema.tables ++ tables.map fun placed => placed.draft.table,
        schema.relationships ++ tables.flatMap fun placed =>
          placed.draft.relationships⟩, []⟩ := by
  induction tables generalizing schema pre with
  | nil =>
      rw [List.map_nil, List.flatMap_nil, List.append_nil, List.append_nil]
      rfl
  | cons placed rest ih =>
      obtain ⟨hothers, hrest⟩ := List.pairwise_cons.mp hdistinct
      have hshape := htext
      rw [Script.textOf_cons, ← List.append_assoc placed.lead,
        ← List.append_assoc pre] at hshape
      have hbody : TableSite.body text
          (byteLength (pre ++ (placed.lead ++
            placed.draft.header dialect.plainSpelling)))
          (byteLength (pre ++ (placed.lead ++
            placed.draft.header dialect.plainSpelling)) + 1 +
              byteLength (placed.draft.body dialect.plainSpelling)) =
            placed.draft.body dialect.plainSpelling := by
        rw [hshape]
        exact TableSite.body_append _ _ _
      have hlater : ∀ other ∈ rest,
          (⟨schema.tables ++ [placed.draft.table], schema.relationships ++
            placed.draft.relationships⟩ : Schema).table?
              other.draft.name.text = none := by
        intro other hother
        exact Schema.table?_append_eq_none
          (hnew other (List.mem_cons_of_mem placed hother))
          (hothers _ (List.mem_map_of_mem hother))
      have hnext : text = (pre ++ (placed.lead ++
          placed.draft.header dialect.plainSpelling) ++ '(' ::
            (placed.draft.body dialect.plainSpelling ++ ')' :: [';'])) ++
              (Script.textOf dialect.plainSpelling rest ++ trail) := by
        rw [hshape]
        simp
      have hih := ih hrest hlater hnext
      rw [byteLength_definition] at hih
      rw [Placed.sites, ← byteLength_append, ofSites]
      dsimp only
      rw [hbody, Schema.addTable_draft dialect (hnew placed List.mem_cons_self),
        hih]
      simp

/-- The SQL of a script, in any dialect, is read as the schema that the script
describes, without a notice. -/
theorem Extraction.ofSql_script (script : Script) :
    ofSql dialect (script.sql dialect) = ⟨script.schema, []⟩ := by
  have hnew : ∀ placed ∈ script.tables,
      Schema.empty.table? placed.draft.name.text = none := by
    intro placed _
    rfl
  have hsites := ofSites_placed dialect script.distinct hnew
    (show script.spelled dialect.plainSpelling =
      [] ++ (Script.textOf dialect.plainSpelling script.tables ++ script.trail)
        from rfl)
  rw [ofSql, CleanText.ofText_sql, ofText, Script.sites_spelled]
  exact hsites

-- The literal imitates the end of its table and the start of another.
example : Extraction.ofSql .mssql
    "CREATE TABLE [a] ([x] INT DEFAULT '''); CREATE TABLE b (y INT, --');".toList =
      ⟨⟨[⟨"a".toList, [⟨"x".toList, .int, false, false⟩]⟩], []⟩, []⟩ := by
  decide +kernel

end DdlDiagram
