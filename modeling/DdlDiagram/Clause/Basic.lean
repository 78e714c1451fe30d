/-
Clauses: what one part of a table body says.
-/
import DdlDiagram.Clause.Declaration

namespace DdlDiagram

open Text

/-- The kinds of clauses.  An index clause, which may also be a named
constraint, carries no column. -/
inductive Clause where
  | foreignKey (links : List Clause.Link)
  | primaryKey (columns : List Text)
  | index
  | column (declaration : Clause.Declaration)
  | unknown (text : Text)
deriving DecidableEq, Repr

namespace Clause

/-- Leading words of clauses that may hold a table-level key. -/
def keyWords : List Text :=
  ["CONSTRAINT".toList, "PRIMARY".toList, "FOREIGN".toList]

/-- Leading words of index clauses and named constraints. -/
def indexWords : List Text :=
  ["KEY".toList, "INDEX".toList, "UNIQUE".toList, "FULLTEXT".toList,
    "SPATIAL".toList, "CONSTRAINT".toList, "CHECK".toList,
    "EXCLUDE".toList]

/-- The table-level key a clause declares. -/
def tableKey? (text : Text) : Option Clause :=
  if keyWords.contains (leadingWord text) then
    ((foreignKey? text).map foreignKey).or ((primaryKey? text).map primaryKey)
  else none

/-- Whether a clause is an index clause.  One that starts with such a word and
goes on with a known type declares a column of that name. -/
def isIndex (text : Text) : Bool :=
  indexWords.contains (leadingWord text) &&
    ((firstWord text).contains '(' ||
      (ColumnType.ofSqlName? (before '(' ((words text)[1]?.getD []))).isNone)

/-- What a part of a table body says. -/
def read (lexis : Lexis) (text : Text) : Clause :=
  match tableKey? text with
  | some clause => clause
  | none =>
      if isIndex text then index
      else match Declaration.read? lexis text with
        | some declaration => column declaration
        | none => unknown text

end Clause

end DdlDiagram
