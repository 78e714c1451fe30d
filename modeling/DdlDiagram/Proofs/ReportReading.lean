/-
What a report tells.  A report is read field by field, by the names of the fields, and
gives back the schema it was written for, with its counts; so no two schemas have one
report.
-/
import DdlDiagram.Diagram.Format
import DdlDiagram.Proofs.JsonReading

namespace DdlDiagram

open Json

namespace Json.Value

/-- The field of that name, the first if there are several. -/
def field? (name : Text) : Value → Option Value
  | object fields => fields.lookup name
  | _ => none

def text? : Value → Option Text
  | string text => some text
  | _ => none

def flag? : Value → Option Bool
  | bool flag => some flag
  | _ => none

/-- A number that counts something. -/
def count? : Value → Option Nat
  | number q => if q.den = 1 ∧ 0 ≤ q.num then some q.num.toNat else none
  | _ => none

def items? : Value → Option (List Value)
  | array items => some items
  | _ => none

theorem count?_number (n : Nat) : count? (number n) = some n := by
  rw [count?, Rat.num_natCast, Rat.den_natCast]
  exact if_pos ⟨rfl, Int.natCast_nonneg n⟩

end Json.Value

namespace Report

/-- What a report tells: a schema, and how much there is of it. -/
structure Contents where
  schema : Schema
  tableCount : Nat
  columnCount : Nat
  relationshipCount : Nat
deriving DecidableEq, Repr

/-- The type of a column from its name in a report. -/
def type? (name : Text) : Option ColumnType :=
  ColumnType.all.find? fun type => type.name == name

def column? (value : Value) : Option Column := do
  let name ← (← value.field? "name".toList).text?
  let type ← type? (← (← value.field? "type".toList).text?)
  let isPrimaryKey ← (← value.field? "is_primary_key".toList).flag?
  let isForeignKey ← (← value.field? "is_foreign_key".toList).flag?
  return ⟨name, type, isPrimaryKey, isForeignKey⟩

def table? (value : Value) : Option Table := do
  let name ← (← value.field? "name".toList).text?
  let columns ← (← (← value.field? "columns".toList).items?).mapM column?
  return ⟨name, columns⟩

def relationship? (value : Value) : Option Relationship := do
  let fromTable ← (← value.field? "from_table".toList).text?
  let fromColumn ← (← value.field? "from_column".toList).text?
  let toTable ← (← value.field? "to_table".toList).text?
  let toColumn ← (← value.field? "to_column".toList).text?
  return ⟨fromTable, fromColumn, toTable, toColumn⟩

/-- What a document tells, if it is a report. -/
def contents? (value : Value) : Option Contents := do
  let tables ← (← (← value.field? "tables".toList).items?).mapM table?
  let relationships ← (← (← value.field? "relationships".toList).items?).mapM relationship?
  let stats ← value.field? "stats".toList
  let tableCount ← (← stats.field? "table_count".toList).count?
  let columnCount ← (← stats.field? "column_count".toList).count?
  let relationshipCount ← (← stats.field? "relationship_count".toList).count?
  return ⟨⟨tables, relationships⟩, tableCount, columnCount, relationshipCount⟩

/-- What is read back from each item of a list is read back from the list. -/
theorem mapM_values {α : Type} {write : α → Json} {read? : Value → Option α}
    (h : ∀ item, read? (write item).value = some item) (items : List α) :
    (values (items.map write)).mapM read? = some items := by
  induction items with
  | nil => rfl
  | cons item rest ih =>
      rw [List.map_cons, values, List.mapM_cons, h item, ih]
      rfl

theorem column?_ofColumn (column : Column) :
    column? (ofColumn column).value = some column := by
  obtain ⟨name, type, isPrimaryKey, isForeignKey⟩ := column
  cases type <;> rfl

theorem relationship?_ofRelationship (link : Relationship) :
    relationship? (ofRelationship link).value = some link :=
  rfl

theorem table?_ofTable (table : Table) : table? (ofTable table).value = some table := by
  show ((values (table.columns.map ofColumn)).mapM column?).bind
    (fun columns => some (⟨table.name, columns⟩ : Table)) = some table
  rw [mapM_values column?_ofColumn]
  rfl

/-- A report gives back the schema it is of, and its counts. -/
theorem contents?_ofSchema (schema : Schema) :
    contents? (ofSchema schema).value = some
      { schema := schema
        tableCount := schema.tableCount
        columnCount := schema.columnCount
        relationshipCount := schema.relationshipCount } := by
  show ((values (schema.tables.map ofTable)).mapM table?).bind (fun tables =>
    ((values (schema.relationships.map ofRelationship)).mapM relationship?).bind
      fun relationships =>
        (Value.count? (.number schema.tableCount)).bind fun tableCount =>
          (Value.count? (.number schema.columnCount)).bind fun columnCount =>
            (Value.count? (.number schema.relationshipCount)).bind fun relationshipCount =>
              some (⟨⟨tables, relationships⟩, tableCount, columnCount, relationshipCount⟩ :
                Contents)) = _
  rw [mapM_values table?_ofTable, mapM_values relationship?_ofRelationship,
    Value.count?_number, Value.count?_number, Value.count?_number]
  rfl

end Report

/-- A schema rendered as JSON is one document and a newline.  The document says one
value, which tells the schema and how many tables, columns and relationships it has; so
no two schemas are rendered alike. -/
theorem Format.render_json_lossless :
    (∀ schema, ∃ document value, render schema .json = document ++ ['\n'] ∧
      document.getLast? = some '\x7d' ∧
      (∀ said, Denotes document said ↔ said = value) ∧
      (∀ said, Denotes (render schema .json) said ↔ said = value) ∧
      Report.contents? value = some
        { schema := schema
          tableCount := schema.tables.length
          columnCount := (schema.tables.map fun table => table.columns.length).sum
          relationshipCount := schema.relationships.length }) ∧
    Function.Injective fun schema => render schema .json := by
  have hsaid : ∀ schema said, Denotes (render schema .json) said ↔
      said = (Report.ofSchema schema).value :=
    fun schema said => denotes_layout_iff _ (by decide) said
  constructor
  · intro schema
    refine ⟨(Report.ofSchema schema).layout, (Report.ofSchema schema).value, rfl, ?_, ?_,
      hsaid schema, ?_⟩
    · exact List.getLast?_concat
    · intro said
      have hempty : ∀ c ∈ ([] : Text), isSpace c = true := by simp
      have h := denotes_layout_iff (Report.ofSchema schema) hempty said
      rwa [List.append_nil] at h
    · rw [Report.contents?_ofSchema, Schema.columnCount, List.length_flatMap]
      rfl
  · intro first second h
    have hvalue : (Report.ofSchema first).value = (Report.ofSchema second).value := by
      rw [← hsaid second]
      show Denotes (render second .json) _
      rw [← show render first .json = render second .json from h, hsaid]
    have hcontents := Report.contents?_ofSchema first
    rw [hvalue, Report.contents?_ofSchema] at hcontents
    exact (congrArg Report.Contents.schema (Option.some.inj hcontents)).symm

end DdlDiagram
