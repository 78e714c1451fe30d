/-
White space: the twenty-five characters with the Unicode property
`White_Space`, and how text is trimmed and cut into words at them.
-/
import DdlDiagram.Text.Basic

namespace DdlDiagram.Text

/-- The characters with the Unicode property `White_Space`. -/
def isBlank (c : Char) : Bool :=
  let code := c.toNat
  (9 ≤ code && code ≤ 13) || code == 0x20 || code == 0x85 || code == 0xA0 ||
    code == 0x1680 || (0x2000 ≤ code && code ≤ 0x200A) || code == 0x2028 ||
    code == 0x2029 || code == 0x202F || code == 0x205F || code == 0x3000

/-- The text from its first character that is not blank. -/
def trimStart (text : Text) : Text :=
  text.dropWhile isBlank

/-- The text up to its last character that is not blank. -/
def trimEnd (text : Text) : Text :=
  (text.reverse.dropWhile isBlank).reverse

/-- The text without the blanks around it. -/
def trim (text : Text) : Text :=
  trimEnd (trimStart text)

/-- The word in front and all words after it; the front word is empty exactly
when the text is empty or starts with a blank. -/
def cutWords : Text → Text × List Text
  | [] => ([], [])
  | c :: rest =>
      let cut := cutWords rest
      if isBlank c then ([], if cut.1.isEmpty then cut.2 else cut.1 :: cut.2)
      else (c :: cut.1, cut.2)

/-- The maximal runs of characters that are not blank. -/
def words (text : Text) : List Text :=
  let cut := cutWords text
  if cut.1.isEmpty then cut.2 else cut.1 :: cut.2

/-- The first word, empty when there is none. -/
def firstWord (text : Text) : Text :=
  (trimStart text).takeWhile fun c => !isBlank c

/-- The text before the first occurrence of a character, or all of it. -/
def before (mark : Char) (text : Text) : Text :=
  text.takeWhile (· != mark)

/-- The parts between the occurrences of a character: the part in front and
the parts after each occurrence. -/
def cutAt (mark : Char) : Text → Text × List Text
  | [] => ([], [])
  | c :: rest =>
      let cut := cutAt mark rest
      if c = mark then ([], cut.1 :: cut.2) else (c :: cut.1, cut.2)

/-- The parts between the occurrences of a character, at least one. -/
def splitAt (mark : Char) (text : Text) : List Text :=
  let cut := cutAt mark text
  cut.1 :: cut.2

/-- The text without the characters of a class at its two ends. -/
def trimMatching (isEdge : Char → Bool) (text : Text) : Text :=
  ((text.dropWhile isEdge).reverse.dropWhile isEdge).reverse

theorem length_trimStart_le (text : Text) :
    (trimStart text).length ≤ text.length :=
  (List.dropWhile_suffix isBlank).length_le

example : words " a\tb  c ".toList = ["a".toList, "b".toList, "c".toList] := by
  decide

example : splitAt ',' "a,,b".toList = ["a".toList, [], "b".toList] := by
  decide

end DdlDiagram.Text
