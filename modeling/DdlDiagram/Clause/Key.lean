/-
The key phrases: table-level `FOREIGN KEY` and `PRIMARY KEY`, and the same
declared on a column.
-/
import DdlDiagram.Clause.Name
import DdlDiagram.Phrase

namespace DdlDiagram.Clause

open Text Phrase

/-- One column of a foreign key and the column it refers to. -/
structure Link where
  column : Text
  table : Text
  target : Text
deriving DecidableEq, Repr

/-- A foreign key at the front of a text: its columns are paired in order with
those they refer to, and a column left over on either side is dropped. -/
def foreignKeyHere? (text : Text) : Option (List Link) := do
  let text ← afterSpacedKeyword? "FOREIGN".toList text
  let text ← afterKeyword? "KEY".toList text
  let text := trimStart text
  let text := ((quotedWord? text).map fun read => trimStart read.2).getD text
  let text ← afterChar? '(' text
  let (columns, text) ← upToBracket? text
  let text ← afterSpacedKeyword? "REFERENCES".toList (trimStart text)
  let (table, text) ← nameBeforeBracket? text
  let (targets, _) ← upToBracket? text
  return List.zipWith (fun column target => ⟨column, table, target⟩)
    (columnNames columns) (columnNames targets)

/-- The first foreign key of a clause. -/
def foreignKey? (clause : Text) : Option (List Link) :=
  search foreignKeyHere? clause

/-- The text behind the storage word that may stand before the columns of a
primary key. -/
def afterStorage? (text : Text) : Option Text :=
  (afterSpacedKeyword? "CLUSTERED".toList text).or
    (afterSpacedKeyword? "NONCLUSTERED".toList text)

/-- A primary key with its columns at the front of a text. -/
def primaryKeyHere? (text : Text) : Option (List Text) := do
  let text ← afterSpacedKeyword? "PRIMARY".toList text
  let text ← afterKeyword? "KEY".toList text
  let text := trimStart text
  let text ← afterChar? '(' ((afterStorage? text).getD text)
  let (columns, _) ← upToBracket? text
  return columnNames columns

/-- The columns of the first primary key of a clause. -/
def primaryKey? (clause : Text) : Option (List Text) :=
  search primaryKeyHere? clause

/-- The words `PRIMARY KEY` at the front of a text. -/
def keyWordsHere? (text : Text) : Option Unit := do
  let text ← afterSpacedKeyword? "PRIMARY".toList text
  let text ← afterKeyword? "KEY".toList text
  if text.head?.any isWordChar then none else some ()

/-- Whether a column's clause declares it the primary key. -/
def declaresKey (clause : Text) : Bool :=
  (searchAtWord keyWordsHere? none clause).isSome

/-- A reference to one column at the front of a text: the table and the
column. -/
def referenceHere? (text : Text) : Option (Text × Text) := do
  let text ← afterSpacedKeyword? "REFERENCES".toList text
  let (table, text) ← nameBeforeBracket? text
  let (column, text) ← quotedWord? (trimStart text)
  let _ ← afterChar? ')' (trimStart text)
  return (table, column)

/-- The first reference that a column's clause declares. -/
def reference? (clause : Text) : Option (Text × Text) :=
  searchAtWord referenceHere? none clause

example : foreignKey?
    "CONSTRAINT f FOREIGN KEY (a, b) REFERENCES s.t (x, y) ON DELETE CASCADE".toList =
      some [⟨"a".toList, "t".toList, "x".toList⟩,
        ⟨"b".toList, "t".toList, "y".toList⟩] := by
  decide +kernel

example : primaryKey? "PRIMARY KEY CLUSTERED ([a] ASC)".toList =
    some ["a".toList] := by
  decide +kernel

end DdlDiagram.Clause
