/-
The SQL dialects: their names, the characters they put around a name, and how
a string literal escapes a quote.
-/
import DdlDiagram.Text.LetterCase

namespace DdlDiagram

open Text

/-- The vendor whose SQL is read. -/
inductive Dialect where
  | mysql
  | postgres
  | mssql
  | sqlite
  | generic
deriving DecidableEq, Repr

namespace Dialect

/-- The name a dialect is reported under. -/
def name : Dialect → Text
  | mysql => "mysql".toList
  | postgres => "postgres".toList
  | mssql => "mssql".toList
  | sqlite => "sqlite".toList
  | generic => "generic".toList

/-- Every accepted name, in lower case. -/
def aliases : List (Text × Dialect) :=
  [("mysql".toList, mysql), ("mariadb".toList, mysql),
    ("postgres".toList, postgres), ("postgresql".toList, postgres),
    ("pg".toList, postgres), ("mssql".toList, mssql),
    ("sqlserver".toList, mssql), ("tsql".toList, mssql),
    ("sqlite".toList, sqlite), ("sqlite3".toList, sqlite),
    ("generic".toList, generic)]

/-- The dialect of that name or alias, in any letter case. -/
def ofName? (text : Text) : Option Dialect :=
  aliases.lookup (lower text)

/-- What is said about a name that no dialect has. -/
def unknownMessage (text : Text) : Text :=
  "Unknown dialect: ".toList ++ text ++
    ". Valid options: mysql, postgres, mssql, sqlite, generic".toList

/-- The characters written around a name. -/
def nameQuotes : Dialect → List Char
  | mysql => ['`']
  | postgres => ['"']
  | mssql => ['[', ']']
  | sqlite => []
  | generic => []

/-- Whether text of this dialect is cleaned before it is read. -/
def isCleaned (dialect : Dialect) : Bool :=
  !dialect.nameQuotes.isEmpty

/-- Whether a backslash in a string literal takes the next character with it.
Standard SQL escapes a quote only by doubling it, so there `'C:\'` is whole. -/
def backslashEscapes : Dialect → Bool
  | mysql => true
  | _ => false

theorem ofName?_name (dialect : Dialect) :
    ofName? dialect.name = some dialect := by
  cases dialect <;> decide

end Dialect

end DdlDiagram
