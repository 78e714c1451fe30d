/-
Extraction of a schema from SQL text: the table sites in order, the first
definition of a name winning.
-/
import DdlDiagram.TableBody
import DdlDiagram.TableSite

namespace DdlDiagram

open Text

/-- What adding a table to a schema comes to. -/
structure Addition where
  schema : Schema
  added : Bool
  notices : List Notice
deriving DecidableEq, Repr

/-- Add a table with the given body, unless the schema has one of that
name. -/
def Schema.addTable (dialect : Dialect) (schema : Schema)
    (name body : Text) : Addition :=
  if (schema.table? name).isSome then
    ⟨schema, false, [.repeatedTable name]⟩
  else
    let read := TableBody.read dialect name body
    ⟨⟨schema.tables ++ [read.table],
      schema.relationships ++ read.relationships⟩, true, read.notices⟩

/-- A schema and the notices that reading it gave, in order. -/
structure Extraction where
  schema : Schema
  notices : List Notice
deriving DecidableEq, Repr

namespace Extraction

/-- Add the tables at the given sites to a schema. -/
def ofSites (dialect : Dialect) (text : Text) :
    Schema → List TableSite → Extraction
  | schema, [] => ⟨schema, []⟩
  | schema, site :: rest =>
      match site.closing with
      | none =>
          let later := ofSites dialect text schema rest
          ⟨later.schema,
            .unclosedBody site.name site.opening :: later.notices⟩
      | some closing =>
          let addition := schema.addTable dialect site.name
            (TableSite.body text site.opening closing)
          let later := ofSites dialect text addition.schema rest
          ⟨later.schema, addition.notices ++ later.notices⟩

/-- The schema of a text that is already clean. -/
def ofText (dialect : Dialect) (text : Text) : Extraction :=
  ofSites dialect text Schema.empty (TableSite.all dialect.lexis text)

end Extraction

end DdlDiagram
