/-
How SQL text is read character by character: which characters are code, which
stand in a string literal and which in a comment.  One automaton serves every
later stage; a stage that looks at text without comments runs it with comments
switched off.
-/
import DdlDiagram.Dialect

namespace DdlDiagram

/-- The rules that differ between readings: whether a backslash in a literal
takes the next character with it, and whether comments exist. -/
structure Lexis where
  escapes : Bool
  comments : Bool
deriving DecidableEq, Repr

/-- The reading of a dialect's full text. -/
def Dialect.lexis (dialect : Dialect) : Lexis :=
  ⟨dialect.backslashEscapes, true⟩

/-- The reading of a dialect's text that knows literals and no comments. -/
def Dialect.literalLexis (dialect : Dialect) : Lexis :=
  ⟨dialect.backslashEscapes, false⟩

/-- Where the reader stands before a character.  `dash` and `slash` are code
after a character that may begin a comment, `closed` is code right after the
quote that closed a literal, `star` is a block comment after a `*`. -/
inductive Mode where
  | code
  | dash
  | slash
  | closed
  | literal
  | escaped
  | line
  | block
  | star
deriving DecidableEq, Repr

namespace Mode

def inLiteral : Mode → Bool
  | literal | escaped => true
  | _ => false

def inComment : Mode → Bool
  | line | block | star => true
  | _ => false

def inCode (mode : Mode) : Bool :=
  !mode.inLiteral && !mode.inComment

end Mode

/-- One character together with the mode it is read in. -/
structure Glyph where
  mode : Mode
  char : Char
deriving DecidableEq, Repr

/-- A character of code that is the given one. -/
def Glyph.isCode (glyph : Glyph) (c : Char) : Bool :=
  glyph.mode.inCode && glyph.char == c

namespace Lexis

/-- The mode after a character of code that does not complete a comment
opener. -/
def afterCode (lexis : Lexis) (c : Char) : Mode :=
  if c = '\'' then .literal
  else if lexis.comments && c == '-' then .dash
  else if lexis.comments && c == '/' then .slash
  else .code

/-- The mode after a character.  A doubled quote closes a literal and opens it
again, so the characters on both sides of it are read alike. -/
def step (lexis : Lexis) : Mode → Char → Mode
  | .code, c => lexis.afterCode c
  | .closed, c => lexis.afterCode c
  | .dash, c => if c = '-' then .line else lexis.afterCode c
  | .slash, c => if c = '*' then .block else lexis.afterCode c
  | .literal, c =>
      if c = '\'' then .closed
      else if lexis.escapes && c == '\\' then .escaped
      else .literal
  | .escaped, _ => .literal
  | .line, c => if c = '\n' then .code else .line
  | .block, c => if c = '*' then .star else .block
  | .star, c =>
      if c = '/' then .code else if c = '*' then .star else .block

/-- The mode after a whole text. -/
def run (lexis : Lexis) (mode : Mode) (text : Text) : Mode :=
  text.foldl lexis.step mode

/-- The characters of a text with the modes they are read in. -/
def trace (lexis : Lexis) : Mode → Text → List Glyph
  | _, [] => []
  | mode, c :: rest => ⟨mode, c⟩ :: trace lexis (lexis.step mode c) rest

@[simp] theorem run_nil (lexis : Lexis) (mode : Mode) :
    lexis.run mode [] = mode := rfl

@[simp] theorem run_cons (lexis : Lexis) (mode : Mode) (c : Char)
    (rest : Text) :
    lexis.run mode (c :: rest) = lexis.run (lexis.step mode c) rest := rfl

theorem run_append (lexis : Lexis) (mode : Mode) (left right : Text) :
    lexis.run mode (left ++ right) =
      lexis.run (lexis.run mode left) right := by
  simp [run]

@[simp] theorem trace_nil (lexis : Lexis) (mode : Mode) :
    lexis.trace mode [] = [] := rfl

@[simp] theorem trace_cons (lexis : Lexis) (mode : Mode) (c : Char)
    (rest : Text) :
    lexis.trace mode (c :: rest) =
      ⟨mode, c⟩ :: lexis.trace (lexis.step mode c) rest := rfl

/-- Reading a text in two parts is reading the first, then the second from the
mode the first ends in. -/
theorem trace_append (lexis : Lexis) (mode : Mode) (left right : Text) :
    lexis.trace mode (left ++ right) =
      lexis.trace mode left ++ lexis.trace (lexis.run mode left) right := by
  induction left generalizing mode with
  | nil => rfl
  | cons c rest ih => simp [ih]

@[simp] theorem map_char_trace (lexis : Lexis) (mode : Mode) (text : Text) :
    (lexis.trace mode text).map Glyph.char = text := by
  induction text generalizing mode with
  | nil => rfl
  | cons c rest ih => simp [ih]

@[simp] theorem length_trace (lexis : Lexis) (mode : Mode) (text : Text) :
    (lexis.trace mode text).length = text.length := by
  induction text generalizing mode with
  | nil => rfl
  | cons c rest ih => simp [ih]

end Lexis

end DdlDiagram
