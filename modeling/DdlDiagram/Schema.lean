/-
The schema: tables with their columns, and the relationships that foreign keys
declare between columns.
-/
import DdlDiagram.ColumnType

namespace DdlDiagram

open Text

/-- The role of a column that a diagram marks. -/
inductive KeyMark where
  | primary
  | foreign
deriving DecidableEq, Repr

def KeyMark.name : KeyMark → Text
  | primary => "PK".toList
  | foreign => "FK".toList

structure Column where
  name : Text
  type : ColumnType
  isPrimaryKey : Bool
  isForeignKey : Bool
deriving DecidableEq, Repr

/-- The mark of a column: a foreign key hides a primary key. -/
def Column.keyMark (column : Column) : Option KeyMark :=
  if column.isForeignKey then some .foreign
  else if column.isPrimaryKey then some .primary
  else none

structure Table where
  name : Text
  columns : List Column
deriving DecidableEq, Repr

/-- The column of that name, up to ASCII case. -/
def Table.column? (table : Table) (name : Text) : Option Column :=
  table.columns.find? fun column => sameName column.name name

/-- One column that refers to one column of another table. -/
structure Relationship where
  fromTable : Text
  fromColumn : Text
  toTable : Text
  toColumn : Text
deriving DecidableEq, Repr

structure Schema where
  tables : List Table
  relationships : List Relationship
deriving DecidableEq, Repr

namespace Schema

def empty : Schema := ⟨[], []⟩

/-- The table of that name, up to ASCII case. -/
def table? (schema : Schema) (name : Text) : Option Table :=
  schema.tables.find? fun table => sameName table.name name

/-- The tables that a diagram gives a block: those with a column. -/
def drawable (schema : Schema) : List Table :=
  schema.tables.filter fun table => !table.columns.isEmpty

def tableCount (schema : Schema) : Nat :=
  schema.tables.length

def columnCount (schema : Schema) : Nat :=
  (schema.tables.flatMap Table.columns).length

def relationshipCount (schema : Schema) : Nat :=
  schema.relationships.length

end Schema

end DdlDiagram
