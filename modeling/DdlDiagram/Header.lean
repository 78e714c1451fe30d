/-
Table headers: `CREATE TABLE` up to the bracket that opens the table's body,
with the optional words between and a possibly dotted, possibly quoted name.
-/
import DdlDiagram.Phrase

namespace DdlDiagram

open Text Phrase

/-- A header that was found: the table's name and the byte offset of the
bracket that opens the body. -/
structure Header where
  name : Text
  opening : Nat
deriving DecidableEq, Repr

namespace Header

/-- The text behind `TEMPORARY` or `TEMP`, possibly after `GLOBAL` or
`LOCAL`. -/
def afterTemporary? (text : Text) : Option Text :=
  let scope := (afterSpacedKeyword? "GLOBAL".toList text).or
    (afterSpacedKeyword? "LOCAL".toList text)
  let start := scope.getD text
  (afterSpacedKeyword? "TEMPORARY".toList start).or
    (afterSpacedKeyword? "TEMP".toList start)

/-- The text behind `IF NOT EXISTS`. -/
def afterIfNotExists? (text : Text) : Option Text := do
  let text ← afterSpacedKeyword? "IF".toList text
  let text ← afterSpacedKeyword? "NOT".toList text
  afterSpacedKeyword? "EXISTS".toList text

/-- A header at the front of a text: the table's name and the text behind the
bracket. -/
def read? (text : Text) : Option (Text × Text) := do
  let text ← afterSpacedKeyword? "CREATE".toList text
  let text := (afterTemporary? text).getD text
  let text ← afterSpacedKeyword? "TABLE".toList text
  nameBeforeBracket? ((afterIfNotExists? text).getD text)

/-- The headers of a text that starts at a byte offset, behind a given
character.  A header begins where no word character precedes it, and the
search goes on behind it: `skip` counts the characters that belong to the
header found last. -/
def searchFrom (previous : Option Char) (offset skip : Nat) :
    Text → List Header
  | [] => []
  | c :: rest =>
      let next := offset + c.utf8Size
      match skip with
      | left + 1 => searchFrom (some c) next left rest
      | 0 =>
          let here := if previous.any isWordChar then none
            else read? (c :: rest)
          match here with
          | none => searchFrom (some c) next 0 rest
          | some (name, body) =>
              let length := (c :: rest).length - body.length
              ⟨name, offset + byteLength ((c :: rest).take (length - 1))⟩ ::
                searchFrom (some c) next (length - 1) rest

/-- Every header of a text, in order. -/
def all (text : Text) : List Header :=
  searchFrom none 0 0 text

example : all "create temp table IF NOT EXISTS [a].[é b (create table c(".toList =
    [⟨"c".toList, 57⟩] := by
  decide +kernel

end Header

end DdlDiagram
