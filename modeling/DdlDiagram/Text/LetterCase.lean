/-
Letter case.  Three comparisons are in use.  Names are compared by ASCII case
alone.  A keyword in running text is read by simple case folding, which adds
the long s and the Kelvin sign to the ASCII letters.  A single word is compared
after its full upper or lower case mapping, where a few more characters are
written with ASCII capitals.
-/
import DdlDiagram.Text.Basic

namespace DdlDiagram.Text

/-- The text in ASCII lower case; other characters stay. -/
def asciiLower (text : Text) : Text :=
  text.map Char.toLower

/-- Equality of names up to ASCII case. -/
def sameName (left right : Text) : Bool :=
  asciiLower left == asciiLower right

/-- The ASCII capital that simple case folding identifies a character with, or
the character itself. -/
def foldCapital (c : Char) : Char :=
  if c = 'ſ' then 'S' else if c = '\u212A' then 'K' else c.toUpper

/-- The ASCII capitals that spell a character in upper case, or the character
itself when its upper case is not ASCII. -/
def capitals (c : Char) : Text :=
  match c with
  | 'ı' => ['I']
  | 'ſ' => ['S']
  | 'ß' => ['S', 'S']
  | 'ﬀ' => ['F', 'F']
  | 'ﬁ' => ['F', 'I']
  | 'ﬂ' => ['F', 'L']
  | 'ﬃ' => ['F', 'F', 'I']
  | 'ﬄ' => ['F', 'F', 'L']
  | 'ﬅ' => ['S', 'T']
  | 'ﬆ' => ['S', 'T']
  | c => [c.toUpper]

/-- Upper case, exact as far as the result is ASCII. -/
def upper (text : Text) : Text :=
  text.flatMap capitals

/-- Lower case, exact as far as the result is ASCII. -/
def lower (text : Text) : Text :=
  text.map fun c => if c = '\u212A' then 'k' else c.toLower

/-- The rest of the text behind a keyword in capitals, when the text begins
with that keyword in any letter case. -/
def afterKeyword? : Text → Text → Option Text
  | [], text => some text
  | _ :: _, [] => none
  | k :: keyword, c :: text =>
      if foldCapital c = k then afterKeyword? keyword text else none

theorem sameName_iff {left right : Text} :
    sameName left right = true ↔ asciiLower left = asciiLower right := by
  simp [sameName]

@[simp] theorem sameName_refl (name : Text) : sameName name name = true := by
  simp [sameName]

theorem sameName_comm (left right : Text) :
    sameName left right = sameName right left := by
  rw [Bool.eq_iff_iff, sameName_iff, sameName_iff, eq_comm]

theorem length_afterKeyword? {keyword text rest : Text}
    (h : afterKeyword? keyword text = some rest) :
    rest.length + keyword.length = text.length := by
  induction keyword generalizing text with
  | nil => simp_all [afterKeyword?]
  | cons k keyword ih =>
      cases text with
      | nil => simp [afterKeyword?] at h
      | cons c text =>
          by_cases hc : foldCapital c = k
          · simp only [afterKeyword?, hc, ↓reduceIte] at h
            have := ih h
            simp only [List.length_cons]
            omega
          · simp [afterKeyword?, hc] at h

example : afterKeyword? "KEY".toList "\u212Aey x".toList = some " x".toList := by
  decide

example : upper "ındex".toList = "INDEX".toList := by
  decide

end DdlDiagram.Text
