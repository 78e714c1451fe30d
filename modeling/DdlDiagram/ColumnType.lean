/-
The nine column types a diagram shows, and the SQL type names that stand for
each of them.
-/
import DdlDiagram.Text.Blank
import DdlDiagram.Text.LetterCase

namespace DdlDiagram

open Text

inductive ColumnType where
  | varchar
  | char
  | int
  | decimal
  | float
  | datetime
  | date
  | time
  | boolean
deriving DecidableEq, Repr

namespace ColumnType

/-- Every column type. -/
def all : List ColumnType :=
  [varchar, char, int, decimal, float, datetime, date, time, boolean]

/-- The name written into a diagram. -/
def name : ColumnType → Text
  | varchar => "VARCHAR".toList
  | char => "CHAR".toList
  | int => "INT".toList
  | decimal => "DECIMAL".toList
  | float => "FLOAT".toList
  | datetime => "DATETIME".toList
  | date => "DATE".toList
  | time => "TIME".toList
  | boolean => "BOOLEAN".toList

/-- The SQL type names that are known, in lower case and without size. -/
def sqlNames : List (Text × ColumnType) :=
  [("varchar".toList, varchar), ("nvarchar".toList, varchar),
    ("text".toList, varchar), ("ntext".toList, varchar),
    ("tinytext".toList, varchar), ("mediumtext".toList, varchar),
    ("longtext".toList, varchar), ("clob".toList, varchar),
    ("json".toList, varchar), ("enum".toList, varchar),
    ("set".toList, varchar), ("char".toList, char), ("nchar".toList, char),
    ("character".toList, char), ("blob".toList, varchar),
    ("tinyblob".toList, varchar), ("mediumblob".toList, varchar),
    ("longblob".toList, varchar), ("int".toList, int),
    ("integer".toList, int), ("tinyint".toList, int),
    ("smallint".toList, int), ("mediumint".toList, int),
    ("bigint".toList, int), ("serial".toList, int),
    ("smallserial".toList, int), ("bigserial".toList, int),
    ("year".toList, int), ("decimal".toList, decimal),
    ("numeric".toList, decimal), ("money".toList, decimal),
    ("float".toList, float), ("double".toList, float),
    ("real".toList, float), ("datetime".toList, datetime),
    ("datetime2".toList, datetime), ("smalldatetime".toList, datetime),
    ("timestamp".toList, datetime), ("timestamptz".toList, datetime),
    ("date".toList, date), ("time".toList, time), ("timetz".toList, time),
    ("bit".toList, boolean), ("bool".toList, boolean),
    ("boolean".toList, boolean)]

/-- The column type of a SQL type name in any letter case, whose size and the
blanks around it do not count. -/
def ofSqlName? (text : Text) : Option ColumnType :=
  sqlNames.lookup (trim (before '(' (lower (trim text))))

/-- The column type shown for a SQL type name; an unknown one shows as
text. -/
def ofSqlName (text : Text) : ColumnType :=
  (ofSqlName? text).getD varchar

theorem ofSqlName?_name (type : ColumnType) :
    ofSqlName? type.name = some type := by
  cases type <;> decide

end ColumnType

end DdlDiagram
