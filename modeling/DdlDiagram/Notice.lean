/-
Notices: what reading a schema passed over or guessed, and the line of text
that tells it.
-/
import DdlDiagram.Text.Blank

namespace DdlDiagram

open Text

/-- Something that reading went on from. -/
inductive Notice where
  /-- A table whose opening bracket, at a byte offset, is never closed. -/
  | unclosedBody (table : Text) (offset : Nat)
  /-- A second definition of a table. -/
  | repeatedTable (table : Text)
  /-- A second declaration of a column. -/
  | repeatedColumn (table column : Text)
  /-- A clause that declares neither a column nor a known constraint. -/
  | discardedClause (table clause : Text)
  /-- A column whose SQL type is not known and shows as text. -/
  | unknownType (table column typeName : Text)
deriving DecidableEq, Repr

namespace Notice

/-- The greatest number of characters a preview has. -/
def previewLength : Nat := 60

/-- A clause on one line: single spaces between its words, and its end replaced
by three dots where it is too long. -/
def preview (clause : Text) : Text :=
  let flat := joined [' '] (words clause)
  if previewLength < flat.length then
    flat.take (previewLength - 3) ++ "...".toList
  else flat

/-- The line that tells a notice. -/
def message : Notice → Text
  | unclosedBody table offset =>
      "Skipped table '".toList ++ table ++
        "': unmatched '(' at byte ".toList ++ decimal offset
  | repeatedTable table =>
      "Skipped duplicate definition of table '".toList ++ table ++ ['\'']
  | repeatedColumn table column =>
      "Skipped duplicate column ".toList ++ table ++ ['.'] ++ column
  | discardedClause table clause =>
      "Discarded clause in '".toList ++ table ++ "': ".toList ++
        preview clause
  | unknownType table column typeName =>
      "Unknown type '".toList ++ typeName ++ "' for ".toList ++ table ++
        ['.'] ++ column ++ ", using VARCHAR".toList

theorem length_preview_le (clause : Text) :
    (preview clause).length ≤ previewLength := by
  have hdots : "...".toList.length = 3 := by decide
  have hlimit : previewLength = 60 := rfl
  simp only [preview]
  split
  · rw [List.length_append, List.length_take, hdots]
    omega
  · next hshort => exact Nat.le_of_not_lt hshort

end Notice

end DdlDiagram
