/-
The JSON report of a schema: all of its tables and relationships, and how many
there are.
-/
import DdlDiagram.Json.Basic
import DdlDiagram.Schema

namespace DdlDiagram.Report

def ofColumn (column : Column) : Json :=
  .object [("name".toList, .string column.name),
    ("type".toList, .string column.type.name),
    ("is_primary_key".toList, .bool column.isPrimaryKey),
    ("is_foreign_key".toList, .bool column.isForeignKey)]

def ofTable (table : Table) : Json :=
  .object [("name".toList, .string table.name),
    ("columns".toList, .array (table.columns.map ofColumn))]

def ofRelationship (relationship : Relationship) : Json :=
  .object [("from_table".toList, .string relationship.fromTable),
    ("from_column".toList, .string relationship.fromColumn),
    ("to_table".toList, .string relationship.toTable),
    ("to_column".toList, .string relationship.toColumn)]

/-- The numbers of tables, columns and relationships. -/
def counts (schema : Schema) : Json :=
  .object [("table_count".toList, .number schema.tableCount),
    ("column_count".toList, .number schema.columnCount),
    ("relationship_count".toList, .number schema.relationshipCount)]

/-- The report of a schema. -/
def ofSchema (schema : Schema) : Json :=
  .object [("tables".toList, .array (schema.tables.map ofTable)),
    ("relationships".toList,
      .array (schema.relationships.map ofRelationship)),
    ("stats".toList, counts schema)]

end DdlDiagram.Report
