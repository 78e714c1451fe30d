/-
Names in clauses: what quotes around a name are, what a column may be called,
and how a list of columns is written.
-/
import DdlDiagram.Text.Blank
import DdlDiagram.Text.LetterCase
import DdlDiagram.Text.Word

namespace DdlDiagram.Clause

open Text

/-- A quote of any dialect. -/
def isQuote (c : Char) : Bool :=
  c == '`' || c == '"' || c == '[' || c == ']'

/-- A name without the quotes around it. -/
def unquoted (text : Text) : Text :=
  trimMatching isQuote text

/-- The word in front of a clause, without quotes and what a bracket opens, in
upper case. -/
def leadingWord (clause : Text) : Text :=
  upper (unquoted (before '(' (firstWord clause)))

/-- The columns of a list: of each entry the first word, without quotes and
without the length that a bracket opens. -/
def columnNames (list : Text) : List Text :=
  ((splitAt ',' list).map fun entry =>
    unquoted (before '(' (firstWord entry))).filter fun name => !name.isEmpty

/-- Words that begin another kind of clause than a column's. -/
def neverColumn : List Text :=
  ["PRIMARY".toList, "FOREIGN".toList, "LIKE".toList, "PERIOD".toList]

/-- A name a column may have. -/
def isColumnName (name : Text) : Bool :=
  !name.isEmpty &&
    name.all (fun c => isAlphanumeric c || c == '_' || c == '$') &&
    !neverColumn.contains (upper name)

example : columnNames "`a`, \"b\", [c], name(10) ASC, , (d)".toList =
    ["a".toList, "b".toList, "c".toList, "name".toList] := by
  decide

end DdlDiagram.Clause
