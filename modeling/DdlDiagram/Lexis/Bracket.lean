/-
Brackets of code and how they pair.  Brackets in literals and comments do not
count, a closing bracket with nothing open is ignored, and an opening bracket
may stay open to the end of the text.
-/
import DdlDiagram.Lexis.Basic

namespace DdlDiagram

open Text

inductive Side where
  | opening
  | closing
deriving DecidableEq, Repr

/-- A bracket of code at its byte offset. -/
structure Bracket where
  offset : Nat
  side : Side
deriving DecidableEq, Repr

/-- An opening bracket and the one that closes it, if any does. -/
structure BracketPair where
  opening : Nat
  closing : Option Nat
deriving DecidableEq, Repr

namespace Bracket

/-- The brackets of code among characters that start at a byte offset. -/
def ofGlyphs (offset : Nat) : List Glyph → List Bracket
  | [] => []
  | glyph :: rest =>
      let others := ofGlyphs (offset + glyph.char.utf8Size) rest
      if glyph.isCode '(' then ⟨offset, .opening⟩ :: others
      else if glyph.isCode ')' then ⟨offset, .closing⟩ :: others
      else others

/-- Pair brackets from the right.  The second component lists the closing
brackets that still wait for a partner, nearest first. -/
def pairUp : List Bracket → List BracketPair × List Nat
  | [] => ([], [])
  | bracket :: rest =>
      let (pairs, waiting) := pairUp rest
      match bracket.side, waiting with
      | .closing, _ => (pairs, bracket.offset :: waiting)
      | .opening, [] => (⟨bracket.offset, none⟩ :: pairs, [])
      | .opening, nearest :: others =>
          (⟨bracket.offset, some nearest⟩ :: pairs, others)

end Bracket

namespace Lexis

/-- The brackets of code, by ascending offset. -/
def brackets (lexis : Lexis) (text : Text) : List Bracket :=
  Bracket.ofGlyphs 0 (lexis.trace .code text)

/-- Every opening bracket of code with its closing bracket, by ascending
offset. -/
def bracketPairs (lexis : Lexis) (text : Text) : List BracketPair :=
  (Bracket.pairUp (lexis.brackets text)).1

example : Dialect.mysql.lexis.bracketPairs ")(a ')' (b) -- (\n /* ) */".toList =
    [⟨1, none⟩, ⟨8, some 10⟩] := by
  decide

end Lexis

end DdlDiagram
