/-
Recognisers for the fixed phrases of a table definition.  Each looks at the
front of a text and gives what it read and the rest behind it.  Where a phrase
has an optional part that is present, reading commits to it: what follows the
part cannot begin the way the part does.
-/
import DdlDiagram.Text.LetterCase
import DdlDiagram.Text.Word

namespace DdlDiagram.Phrase

open Text

/-- The text behind at least one blank. -/
def afterBlanks? : Text → Option Text
  | [] => none
  | c :: rest => if isBlank c then some (trimStart rest) else none

/-- The text behind one given character. -/
def afterChar? (expected : Char) : Text → Option Text
  | [] => none
  | c :: rest => if c = expected then some rest else none

/-- The text behind a keyword and at least one blank. -/
def afterSpacedKeyword? (keyword text : Text) : Option Text :=
  (afterKeyword? keyword text).bind afterBlanks?

/-- A character that may open a quoted name, in any dialect. -/
def opensName (c : Char) : Bool :=
  c == '[' || c == '`' || c == '"'

/-- A character that may close a quoted name, in any dialect. -/
def closesName (c : Char) : Bool :=
  c == ']' || c == '`' || c == '"'

/-- The text without a first character of a class. -/
def dropOne (belongs : Char → Bool) : Text → Text
  | [] => []
  | c :: rest => if belongs c then rest else c :: rest

/-- A word with an optional quote on either side: the word and the rest. -/
def quotedWord? (text : Text) : Option (Text × Text) :=
  let start := dropOne opensName text
  let word := start.takeWhile isWordChar
  if word.isEmpty then none
  else some (word, dropOne closesName (start.dropWhile isWordChar))

theorem length_afterBlanks? {text rest : Text}
    (h : afterBlanks? text = some rest) : rest.length < text.length := by
  cases text with
  | nil => simp [afterBlanks?] at h
  | cons c tail =>
      by_cases hc : isBlank c
      · simp only [afterBlanks?, hc, ↓reduceIte, Option.some.injEq] at h
        subst h
        exact Nat.lt_succ_of_le (length_trimStart_le tail)
      · simp [afterBlanks?, hc] at h

theorem length_dropOne_le (belongs : Char → Bool) (text : Text) :
    (dropOne belongs text).length ≤ text.length := by
  cases text with
  | nil => simp [dropOne]
  | cons c rest =>
      simp only [dropOne]
      split
      · simp
      · exact Nat.le_refl _

theorem length_quotedWord? {text word rest : Text}
    (h : quotedWord? text = some (word, rest)) :
    rest.length < text.length := by
  simp only [quotedWord?] at h
  split at h
  · simp at h
  · next hword =>
      simp only [Option.some.injEq, Prod.mk.injEq] at h
      obtain ⟨_, rfl⟩ := h
      have hstart := length_dropOne_le opensName text
      have hrest := length_dropOne_le closesName
        ((dropOne opensName text).dropWhile isWordChar)
      have hsplit := congrArg List.length
        (List.takeWhile_append_dropWhile (p := isWordChar)
          (l := dropOne opensName text))
      have hpos : 0 < ((dropOne opensName text).takeWhile isWordChar).length :=
        List.length_pos_iff.mpr (by simpa using hword)
      simp only [List.length_append] at hsplit
      omega

/-- A dotted name up to the bracket that follows it: its last word and the
text behind the bracket. -/
def nameBeforeBracket? (text : Text) : Option (Text × Text) :=
  match _hword : quotedWord? text with
  | none => none
  | some (word, rest) =>
      match _hrest : trimStart rest with
      | [] => none
      | c :: more =>
          if c = '(' then some (word, more)
          else if c = '.' then nameBeforeBracket? (trimStart more)
          else none
termination_by text.length
decreasing_by
  have hword := length_quotedWord? _hword
  have htrim := length_trimStart_le rest
  have hmore := length_trimStart_le more
  rw [_hrest, List.length_cons] at htrim
  omega

/-- The text up to the next closing bracket, not empty, and the rest behind
that bracket. -/
def upToBracket? (text : Text) : Option (Text × Text) :=
  match text.takeWhile (· != ')'), text.dropWhile (· != ')') with
  | c :: inside, _ :: rest => some (c :: inside, rest)
  | _, _ => none

/-- The first result of a recogniser over all places of a text. -/
def search {α : Type} (recognise : Text → Option α) : Text → Option α
  | [] => none
  | c :: rest => (recognise (c :: rest)).or (search recognise rest)

/-- The first result of a recogniser over the places of a text that no word
character precedes; `previous` is the character in front of the text. -/
def searchAtWord {α : Type} (recognise : Text → Option α)
    (previous : Option Char) : Text → Option α
  | [] => none
  | c :: rest =>
      let here := if previous.any isWordChar then none
        else recognise (c :: rest)
      here.or (searchAtWord recognise (some c) rest)

example : nameBeforeBracket? "a . [b] ( x".toList =
    some ("b".toList, " x".toList) := by
  decide +kernel

end DdlDiagram.Phrase
