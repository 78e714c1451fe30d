/-
The two character classes of names: word characters, which make up a name in
running SQL, and alphanumeric characters, which a column name may hold.

Word characters are those of version 16 of the Unicode standard, alphanumeric
characters those of version 17.  Up to version 16 the two classes agree on
letters and decimal digits and differ beyond them; a letter that version 17
added is alphanumeric only.
-/
import DdlDiagram.Text.Property
import DdlDiagram.Text.Blank

namespace DdlDiagram.Text

/-- A character of a word: a letter, a decimal digit, a combining mark,
connecting punctuation such as `_`, or a zero width joiner, each known to
version 16 of the standard. -/
def isWordChar (c : Char) : Bool :=
  if c.toNat < 0x80 then c.isAlphanum || c == '_'
  else
    !addedLast.holds c.toNat &&
      (alphabetic.holds c.toNat || decimalDigit.holds c.toNat ||
        detachedMark.holds c.toNat || connector.holds c.toNat ||
        joiner.holds c.toNat)

/-- A letter or a number of any kind, known to version 17 of the standard. -/
def isAlphanumeric (c : Char) : Bool :=
  if c.toNat < 0x80 then c.isAlphanum
  else
    alphabetic.holds c.toNat || decimalDigit.holds c.toNat ||
      otherNumber.holds c.toNat

example : isWordChar '²' = false ∧ isAlphanumeric '²' = true := by
  decide +kernel

example : isWordChar '_' = true ∧ isAlphanumeric '_' = false := by
  decide

example : isWordChar '日' = true ∧ isAlphanumeric '日' = true := by
  decide +kernel

example : isWordChar '\u088f' = false ∧ isAlphanumeric '\u088f' = true := by
  decide +kernel

example : isWordChar '\u0897' = true ∧ isAlphanumeric '\u0897' = true := by
  decide +kernel

end DdlDiagram.Text
