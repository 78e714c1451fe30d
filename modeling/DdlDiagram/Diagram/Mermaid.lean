/-
The Mermaid entity relationship diagram of a schema: a block of columns for
each table that has any, then a line for each relationship.
-/
import DdlDiagram.Schema

namespace DdlDiagram.Mermaid

/-- The sign between two tables: one row of the first for any number of the
second. -/
def cardinality : Text := "||--o\x7b".toList

/-- The line of a column: its name, its type and its mark. -/
def columnLine (column : Column) : Text :=
  let mark := match column.keyMark with
    | some mark => ' ' :: mark.name
    | none => []
  "        ".toList ++ column.name ++ [' '] ++ column.type.name ++ mark ++
    ['\n']

/-- The block of a table. -/
def tableBlock (table : Table) : Text :=
  "    ".toList ++ table.name ++ " \x7b\n".toList ++
    table.columns.flatMap columnLine ++ "    \x7d\n".toList

/-- The line of a relationship. -/
def relationshipLine (relationship : Relationship) : Text :=
  "    ".toList ++ relationship.fromTable ++ [' '] ++ cardinality ++ [' '] ++
    relationship.toTable ++ " : \"FK to ".toList ++ relationship.toColumn ++
    "\"\n".toList

/-- The diagram of a schema. -/
def ofSchema (schema : Schema) : Text :=
  "erDiagram\n".toList ++ schema.drawable.flatMap tableBlock ++
    schema.relationships.flatMap relationshipLine

/-- A diagram as a fenced block of Markdown. -/
def fenced (diagram : Text) : Text :=
  "```mermaid\n".toList ++ diagram ++
    (if diagram.getLast? = some '\n' then [] else ['\n']) ++ "```\n".toList

end DdlDiagram.Mermaid
