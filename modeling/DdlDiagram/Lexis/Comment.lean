/-
Text without its comments.  A line comment leaves the newline that ends it, a
block comment leaves one space, and literals stay as they are.
-/
import DdlDiagram.Lexis.Basic

namespace DdlDiagram.Lexis

/-- What a character of code leaves at once: `-` and `/` wait until it is known
whether they begin a comment. -/
def released (c : Char) : Text :=
  if c = '-' || c = '/' then [] else [c]

/-- What reading one character adds to the text without comments. -/
def kept (glyph : Glyph) : Text :=
  let c := glyph.char
  match glyph.mode with
  | .code | .closed => released c
  | .dash => if c = '-' then [] else '-' :: released c
  | .slash => if c = '*' then [] else '/' :: released c
  | .literal | .escaped => [c]
  | .line => if c = '\n' then ['\n'] else []
  | .block => []
  | .star => if c = '/' then [' '] else []

/-- What the end of the text adds: a waiting character, or the space of a
block comment that is never closed. -/
def keptAtEnd : Mode → Text
  | .dash => ['-']
  | .slash => ['/']
  | .block | .star => [' ']
  | _ => []

/-- The text with every comment replaced by its separator. -/
def withoutComments (lexis : Lexis) (text : Text) : Text :=
  (lexis.trace .code text).flatMap kept ++ keptAtEnd (lexis.run .code text)

example : Dialect.mysql.lexis.withoutComments
    "a-b/c/*/ x */'--' -- y\nz".toList = "a-b/c '--' \nz".toList := by
  decide

end DdlDiagram.Lexis
