/-
A table body cut into its parts at the commas that stand in code outside all
brackets.
-/
import DdlDiagram.Lexis.Basic
import DdlDiagram.Text.Blank

namespace DdlDiagram.Lexis

open Text

/-- Bracket depth after one character; it falls below zero at a stray
closing bracket.  It is taken as unbounded; a counter of 32 bits runs over
only where 2^31 brackets are open at once. -/
def depthAfter (depth : Int) (glyph : Glyph) : Int :=
  if glyph.isCode '(' then depth + 1
  else if glyph.isCode ')' then depth - 1
  else depth

/-- A comma that ends a part. -/
def isSeparator (depth : Int) (glyph : Glyph) : Bool :=
  glyph.isCode ',' && depth == 0

/-- The text before the first separator and the texts after each one. -/
def cutParts (depth : Int) : List Glyph → Text × List Text
  | [] => ([], [])
  | glyph :: rest =>
      let cut := cutParts (depthAfter depth glyph) rest
      if isSeparator depth glyph then ([], cut.1 :: cut.2)
      else (glyph.char :: cut.1, cut.2)

/-- The list without its last part when that part is empty. -/
def dropEmptyLast : List Text → List Text
  | [] => []
  | [part] => if part.isEmpty then [] else [part]
  | part :: next :: rest => part :: dropEmptyLast (next :: rest)

/-- The parts of a body without the blanks around them.  An empty part between
two separators counts, an empty part at the end does not. -/
def parts (lexis : Lexis) (body : Text) : List Text :=
  let cut := cutParts 0 (lexis.trace .code body)
  dropEmptyLast ((cut.1 :: cut.2).map trim)

example : Dialect.mysql.literalLexis.parts
    "a INT, b ENUM('p,q', 'r') , , c CHAR(1), ".toList =
      ["a INT".toList, "b ENUM('p,q', 'r')".toList, [],
        "c CHAR(1)".toList] := by
  decide

/-- The texts that glyphs are cut into. -/
def cuts (depth : Int) (glyphs : List Glyph) : List Text :=
  (cutParts depth glyphs).1 :: (cutParts depth glyphs).2

theorem dropEmptyLast_append (front : List Text) {back : List Text} (h : back ≠ []) :
    dropEmptyLast (front ++ back) = front ++ dropEmptyLast back := by
  induction front with
  | nil => rfl
  | cons part rest ih =>
      cases hrest : rest ++ back with
      | nil => exact absurd (List.append_eq_nil_iff.mp hrest).2 h
      | cons next more =>
          rw [List.cons_append, hrest, dropEmptyLast, ← hrest, ih, List.cons_append]

theorem parts_eq_cuts (lexis : Lexis) (text : Text) :
    lexis.parts text = dropEmptyLast ((cuts 0 (lexis.trace .code text)).map trim) := rfl

end DdlDiagram.Lexis
