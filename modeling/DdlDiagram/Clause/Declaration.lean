/-
Column declarations: a name, a type, and the keys declared with them.
-/
import DdlDiagram.Clause.Key
import DdlDiagram.ColumnType
import DdlDiagram.Lexis.Literal

namespace DdlDiagram.Clause

open Text

/-- Words that are never the type of a column. -/
def reservedWords : List Text :=
  ["PRIMARY".toList, "FOREIGN".toList, "KEY".toList, "INDEX".toList,
    "UNIQUE".toList, "CONSTRAINT".toList, "CHECK".toList,
    "REFERENCES".toList, "FULLTEXT".toList, "SPATIAL".toList,
    "EXCLUDE".toList, "LIKE".toList, "PERIOD".toList, "NOT".toList,
    "NULL".toList, "DEFAULT".toList]

/-- Whether a type name and the word after it spell the varying character
type. -/
def isVarying (typeName : Text) (next : Option Text) : Bool :=
  ["character".toList, "char".toList].contains (lower typeName) &&
    next.any fun word => "varying".toList.isPrefixOf (lower word)

/-- The name and the type name a clause declares.  The type name is the run of
ASCII letters in front of the second word. -/
def declared? (clause : Text) : Option (Text × Text) :=
  match words clause with
  | first :: second :: others =>
      let name := unquoted first
      let typeName := second.takeWhile Char.isAlpha
      if !isColumnName name || typeName.isEmpty ||
          reservedWords.contains (upper typeName) then none
      else if isVarying typeName others.head? then
        some (name, "VARCHAR".toList)
      else some (name, typeName)
  | _ => none

/-- A column as its clause declares it. -/
structure Declaration where
  name : Text
  typeName : Text
  isKey : Bool
  reference : Option (Text × Text)
deriving DecidableEq, Repr

/-- The column a clause declares.  Its keys are looked for outside string
literals. -/
def Declaration.read? (lexis : Lexis) (clause : Text) :
    Option Declaration :=
  (declared? clause).map fun (name, typeName) =>
    let code := lexis.blankLiterals clause
    ⟨name, typeName, declaresKey code, reference? code⟩

/-- The column type shown for a declared column. -/
def Declaration.type (declaration : Declaration) : ColumnType :=
  ColumnType.ofSqlName declaration.typeName

example : declared? "[title] character varying(80)".toList =
    some ("title".toList, "VARCHAR".toList) := by
  decide

example : declared? "x (1)".toList = none := by
  decide

end DdlDiagram.Clause
