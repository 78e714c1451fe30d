/-
Text with the contents of its string literals blanked out, for the questions
that a literal must not answer.
-/
import DdlDiagram.Lexis.Basic

namespace DdlDiagram.Lexis

/-- What reading one character adds to the blanked text.  A quote inside a
literal waits: it is kept when it closes the literal and blanked together with
its double otherwise. -/
def blanked (lexis : Lexis) (glyph : Glyph) : Text :=
  let c := glyph.char
  match glyph.mode with
  | .literal =>
      if c = '\'' then []
      else if lexis.escapes && c == '\\' then [' ', ' ']
      else [' ']
  | .escaped => []
  | .closed => if c = '\'' then [' ', ' '] else ['\'', c]
  | _ => [c]

/-- The text with spaces for the contents of literals; comments are not looked
for. -/
def blankLiterals (lexis : Lexis) (text : Text) : Text :=
  (lexis.trace .code text).flatMap lexis.blanked ++
    if lexis.run .code text = .closed then ['\''] else []

example : Dialect.postgres.literalLexis.blankLiterals
    "a TEXT DEFAULT 'it''s' x".toList =
      "a TEXT DEFAULT '     ' x".toList := by
  decide

example : Dialect.mysql.literalLexis.blankLiterals "'\\'x'".toList =
    "'   '".toList := by
  decide

/-- The blanked text behind a place that is read in a given mode. -/
def blankedFrom (lexis : Lexis) (mode : Mode) (text : Text) : Text :=
  (lexis.trace mode text).flatMap lexis.blanked ++
    if lexis.run mode text = .closed then ['\''] else []

theorem blankedFrom_cons (lexis : Lexis) (mode : Mode) (c : Char) (rest : Text) :
    lexis.blankedFrom mode (c :: rest) =
      lexis.blanked ⟨mode, c⟩ ++ lexis.blankedFrom (lexis.step mode c) rest := by
  rw [blankedFrom, trace_cons, run_cons, List.flatMap_cons, List.append_assoc, blankedFrom]

/-- The quote that closed a literal waits for the character behind it. -/
theorem blankedFrom_closed {lexis : Lexis} {text : Text} (htext : ∀ c ∈ text.head?, c ≠ '\'') :
    lexis.blankedFrom .closed text = '\'' :: lexis.blankedFrom .code text := by
  cases text with
  | nil => rfl
  | cons c rest =>
      have hc : c ≠ '\'' := htext c rfl
      rw [blankedFrom_cons, blankedFrom_cons]
      simp only [blanked, if_neg hc]
      rfl

end DdlDiagram.Lexis
