/-
A table's body: its clauses in order, what comes of each of them, and the
columns, relationships and notices that result.
-/
import DdlDiagram.Clause.Basic
import DdlDiagram.Lexis.Comment
import DdlDiagram.Lexis.Part
import DdlDiagram.Notice
import DdlDiagram.Schema

namespace DdlDiagram

open Text

/-- What comes of one clause: keys, nothing, a new column, or a reason why it
declares none. -/
inductive Outcome where
  | links (links : List Clause.Link)
  | keys (columns : List Text)
  | passed
  | column (declaration : Clause.Declaration)
  | repeated (column : Text)
  | discarded (clause : Text)
deriving DecidableEq, Repr

namespace Outcome

/-- The outcomes of clauses behind columns of given names: the first
declaration of a name wins. -/
def ofClauses (seen : List Text) : List Clause → List Outcome
  | [] => []
  | .foreignKey list :: rest => links list :: ofClauses seen rest
  | .primaryKey columns :: rest => keys columns :: ofClauses seen rest
  | .index :: rest => passed :: ofClauses seen rest
  | .unknown text :: rest => discarded text :: ofClauses seen rest
  | .column declaration :: rest =>
      if seen.any (sameName declaration.name) then
        repeated declaration.name :: ofClauses seen rest
      else
        column declaration :: ofClauses (declaration.name :: seen) rest

/-- The column an outcome adds. -/
def declaration? : Outcome → Option Clause.Declaration
  | column declaration => some declaration
  | _ => none

/-- The columns an outcome makes part of the primary key. -/
def keyColumns : Outcome → List Text
  | keys columns => columns
  | column declaration => if declaration.isKey then [declaration.name] else []
  | _ => []

/-- The foreign keys an outcome declares. -/
def foreignLinks : Outcome → List Clause.Link
  | links list => list
  | column declaration =>
      (declaration.reference.map fun (table, target) =>
        ⟨declaration.name, table, target⟩).toList
  | _ => []

/-- The notices an outcome gives about a table. -/
def notices (table : Text) : Outcome → List Notice
  | column declaration =>
      if (ColumnType.ofSqlName? declaration.typeName).isNone then
        [.unknownType table declaration.name declaration.typeName]
      else []
  | repeated name => [.repeatedColumn table name]
  | discarded clause => [.discardedClause table clause]
  | _ => []

end Outcome

/-- Everything a table's body says. -/
structure TableBody where
  table : Table
  relationships : List Relationship
  notices : List Notice
deriving DecidableEq, Repr

namespace TableBody

/-- The clauses of a body: its parts outside comments that are not empty. -/
def clauses (dialect : Dialect) (body : Text) : List Clause :=
  let parts := dialect.literalLexis.parts (dialect.lexis.withoutComments body)
  (parts.filter fun part => !part.isEmpty).map
    (Clause.read dialect.literalLexis)

/-- The outcomes of a body's clauses. -/
def outcomes (dialect : Dialect) (body : Text) : List Outcome :=
  Outcome.ofClauses [] (clauses dialect body)

/-- The table, relationships and notices that outcomes amount to.  A column is
a key when any outcome names it, in whatever order they come. -/
def ofOutcomes (name : Text) (outcomes : List Outcome) : TableBody :=
  let keys := outcomes.flatMap Outcome.keyColumns
  let links := outcomes.flatMap Outcome.foreignLinks
  let columns := (outcomes.filterMap Outcome.declaration?).map fun d =>
    { name := d.name
      type := d.type
      isPrimaryKey := keys.any (sameName d.name)
      isForeignKey := links.any fun link => sameName d.name link.column :
        Column }
  { table := ⟨name, columns⟩
    relationships := links.map fun link =>
      ⟨name, link.column, link.table, link.target⟩
    notices := outcomes.flatMap (Outcome.notices name) }

/-- Read the body of a table. -/
def read (dialect : Dialect) (name body : Text) : TableBody :=
  ofOutcomes name (outcomes dialect body)

end TableBody

end DdlDiagram
