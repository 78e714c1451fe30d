/-
A second reading of SQL text: cut into whole lexemes, each found by looking
ahead.  A quote starts a literal that runs to the first quote which is neither
doubled nor escaped, `--` starts a comment that runs to the end of its line,
`/*` one that runs to the next `*/`, and every other character is code.  A
literal or a comment that is never closed runs to the end of the text.

The reader with modes finds the same brackets in code as this one.
-/
import DdlDiagram.Lexis.Bracket

namespace DdlDiagram

open Text

inductive Lexeme where
  | code (c : Char)
  | literal (text : Text)
  | comment (text : Text)
deriving DecidableEq, Repr

namespace Lexeme

/-- The characters of a lexeme. -/
def text : Lexeme → Text
  | code c => [c]
  | literal text => text
  | comment text => text

/-- The text behind the quote that opens a literal, cut behind the quote that
closes it. -/
def cutLiteral (escapes : Bool) : Text → Text × Text
  | [] => ([], [])
  | [c] => ([c], [])
  | c :: next :: rest =>
      if c = '\'' then
        if next = '\'' then
          let cut := cutLiteral escapes rest
          (c :: next :: cut.1, cut.2)
        else ([c], next :: rest)
      else if escapes && c == '\\' then
        let cut := cutLiteral escapes rest
        (c :: next :: cut.1, cut.2)
      else
        let cut := cutLiteral escapes (next :: rest)
        (c :: cut.1, cut.2)

/-- A text cut in front of its first newline. -/
def cutLine (text : Text) : Text × Text :=
  (text.takeWhile (· != '\n'), text.dropWhile (· != '\n'))

/-- The text behind the characters that open a block comment, cut behind those
that close it. -/
def cutBlock : Text → Text × Text
  | [] => ([], [])
  | [c] => ([c], [])
  | c :: next :: rest =>
      if c = '*' ∧ next = '/' then ([c, next], rest)
      else
        let cut := cutBlock (next :: rest)
        (c :: cut.1, cut.2)

/-- The first lexeme of a text that is not empty, and the text behind it. -/
def first (escapes : Bool) (c : Char) (rest : Text) : Lexeme × Text :=
  if c = '\'' then
    let cut := cutLiteral escapes rest
    (literal (c :: cut.1), cut.2)
  else if c = '-' ∧ rest.head? = some '-' then
    let cut := cutLine rest
    (comment (c :: cut.1), cut.2)
  else if c = '/' ∧ rest.head? = some '*' then
    let cut := cutBlock rest.tail
    (comment (c :: '*' :: cut.1), cut.2)
  else (code c, rest)

theorem cutLiteral_append (escapes : Bool) (text : Text) :
    (cutLiteral escapes text).1 ++ (cutLiteral escapes text).2 = text := by
  fun_induction cutLiteral escapes text with
  | case1 => rfl
  | case2 c => rfl
  | case3 rest cut ih => exact congrArg ('\'' :: '\'' :: ·) ih
  | case4 next rest hnext => rfl
  | case5 c next rest hc hescape cut ih =>
      exact congrArg (c :: next :: ·) ih
  | case6 c next rest hc hescape cut ih => exact congrArg (c :: ·) ih

theorem cutLine_append (text : Text) :
    (cutLine text).1 ++ (cutLine text).2 = text :=
  List.takeWhile_append_dropWhile

theorem cutBlock_append (text : Text) :
    (cutBlock text).1 ++ (cutBlock text).2 = text := by
  fun_induction cutBlock text with
  | case1 => rfl
  | case2 c => rfl
  | case3 c next rest hend =>
      rfl
  | case4 c next rest hend cut ih => exact congrArg (c :: ·) ih

/-- A lexeme and the text behind it are the whole text. -/
theorem first_append (escapes : Bool) (c : Char) (rest : Text) :
    (first escapes c rest).1.text ++ (first escapes c rest).2 =
      c :: rest := by
  unfold first
  split
  · simp [text, cutLiteral_append]
  · split
    · simp [text, cutLine_append]
    · split
      · next hopens =>
          obtain ⟨tail, rfl⟩ := List.head?_eq_some_iff.mp hopens.2
          simp [text, cutBlock_append]
      · rfl

theorem first_ne_nil (escapes : Bool) (c : Char) (rest : Text) :
    (first escapes c rest).1.text ≠ [] := by
  unfold first
  split
  · simp [text]
  · split
    · simp [text]
    · split <;> simp [text]

theorem length_first_lt (escapes : Bool) (c : Char) (rest : Text) :
    (first escapes c rest).2.length < (c :: rest).length := by
  have happend := congrArg List.length (first_append escapes c rest)
  have hpos := List.length_pos_iff.mpr (first_ne_nil escapes c rest)
  rw [List.length_append] at happend
  omega

/-- The lexemes of a text, in order. -/
def all (escapes : Bool) : Text → List Lexeme
  | [] => []
  | c :: rest =>
      (first escapes c rest).1 :: all escapes (first escapes c rest).2
termination_by text => text.length
decreasing_by exact length_first_lt escapes c rest

@[simp] theorem all_nil (escapes : Bool) : all escapes [] = [] := by
  rw [all]

theorem all_cons (escapes : Bool) (c : Char) (rest : Text) :
    all escapes (c :: rest) =
      (first escapes c rest).1 :: all escapes (first escapes c rest).2 := by
  rw [all]

/-- The lexemes put together are the text. -/
theorem flatMap_text_all (escapes : Bool) (sql : Text) :
    (all escapes sql).flatMap text = sql := by
  fun_induction all escapes sql with
  | case1 => rfl
  | case2 c rest ih => rw [List.flatMap_cons, ih, first_append]

/-- The brackets among lexemes that start at a byte offset: those that are code
by themselves. -/
def brackets (offset : Nat) : List Lexeme → List Bracket
  | [] => []
  | lexeme :: rest =>
      let others := brackets (offset + byteLength lexeme.text) rest
      if lexeme = code '(' then ⟨offset, .opening⟩ :: others
      else if lexeme = code ')' then ⟨offset, .closing⟩ :: others
      else others

theorem brackets_cons (offset : Nat) (lexeme : Lexeme)
    (rest : List Lexeme) :
    brackets offset (lexeme :: rest) =
      brackets offset [lexeme] ++
        brackets (offset + byteLength lexeme.text) rest := by
  simp only [brackets]
  split
  · rfl
  · split <;> rfl

end Lexeme

namespace Bracket

theorem ofGlyphs_cons (offset : Nat) (glyph : Glyph) (rest : List Glyph) :
    ofGlyphs offset (glyph :: rest) =
      ofGlyphs offset [glyph] ++
        ofGlyphs (offset + glyph.char.utf8Size) rest := by
  simp only [ofGlyphs]
  split
  · rfl
  · split <;> rfl

/-- Two glyphs of one character give the same bracket when both are code or
neither is. -/
theorem ofGlyphs_congr {left right : Mode} (h : left.inCode = right.inCode)
    (offset : Nat) (c : Char) (rest : List Glyph) :
    ofGlyphs offset (⟨left, c⟩ :: rest) =
      ofGlyphs offset (⟨right, c⟩ :: rest) := by
  simp [ofGlyphs, Glyph.isCode, h]

/-- A character outside code is no bracket. -/
theorem ofGlyphs_of_not_inCode {mode : Mode} (h : mode.inCode = false)
    (offset : Nat) (c : Char) (rest : List Glyph) :
    ofGlyphs offset (⟨mode, c⟩ :: rest) =
      ofGlyphs (offset + c.utf8Size) rest := by
  simp [ofGlyphs, Glyph.isCode, h]

/-- A character that is neither bracket adds none. -/
theorem ofGlyphs_of_ne {c : Char} (hopening : c ≠ '(') (hclosing : c ≠ ')')
    (offset : Nat) (mode : Mode) (rest : List Glyph) :
    ofGlyphs offset (⟨mode, c⟩ :: rest) =
      ofGlyphs (offset + c.utf8Size) rest := by
  simp [ofGlyphs, Glyph.isCode, hopening, hclosing]

end Bracket

namespace Lexeme

open DdlDiagram.Bracket

variable (escapes : Bool)

/-- A mode of code that reads the next character as `code` does finds the same
brackets. -/
theorem ofGlyphs_trace_congr {lexis : Lexis} {mode : Mode} {c : Char}
    (hmode : mode.inCode = true)
    (hstep : lexis.step mode c = lexis.step .code c)
    (offset : Nat) (rest : Text) :
    ofGlyphs offset (lexis.trace mode (c :: rest)) =
      ofGlyphs offset (lexis.trace .code (c :: rest)) := by
  rw [Lexis.trace_cons, Lexis.trace_cons, hstep]
  exact ofGlyphs_congr hmode offset c _

/-- Reading on inside a literal finds the brackets behind it. -/
theorem ofGlyphs_literal (offset : Nat) (text : Text) :
    ofGlyphs offset ((Lexis.mk escapes true).trace .literal text) =
      ofGlyphs (offset + byteLength (cutLiteral escapes text).1)
        ((Lexis.mk escapes true).trace .code (cutLiteral escapes text).2) := by
  fun_induction cutLiteral escapes text generalizing offset with
  | case1 => rfl
  | case2 c => simp [ofGlyphs_of_not_inCode, Mode.inCode, Mode.inLiteral]
  | case3 rest cut ih =>
      rw [Lexis.trace_cons, Lexis.trace_cons,
        ofGlyphs_of_not_inCode rfl, ofGlyphs_of_ne (by decide) (by decide)]
      change ofGlyphs _ ((Lexis.mk escapes true).trace .literal rest) = _
      simp only [ih, byteLength_cons, Nat.add_assoc, cut]
  | case4 next rest hnext =>
      rw [Lexis.trace_cons, ofGlyphs_of_not_inCode rfl]
      change ofGlyphs _
        ((Lexis.mk escapes true).trace .closed (next :: rest)) = _
      rw [ofGlyphs_trace_congr rfl rfl]
      rfl
  | case5 c next rest hc hescape cut ih =>
      rw [Lexis.trace_cons, Lexis.trace_cons,
        ofGlyphs_of_not_inCode rfl]
      simp only [Lexis.step, hc, hescape, ↓reduceIte]
      rw [ofGlyphs_of_not_inCode rfl]
      simp only [ih, byteLength_cons, Nat.add_assoc, cut]
  | case6 c next rest hc hescape cut ih =>
      rw [Lexis.trace_cons, ofGlyphs_of_not_inCode rfl]
      simp only [Lexis.step, hc, hescape, ↓reduceIte, Bool.false_eq_true]
      simp only [ih, byteLength_cons, Nat.add_assoc, cut]

/-- Reading on inside a line comment finds the brackets from the end of its
line. -/
theorem ofGlyphs_line (offset : Nat) (text : Text) :
    ofGlyphs offset ((Lexis.mk escapes true).trace .line text) =
      ofGlyphs (offset + byteLength (cutLine text).1)
        ((Lexis.mk escapes true).trace .code (cutLine text).2) := by
  induction text generalizing offset with
  | nil => rfl
  | cons c rest ih =>
      by_cases hc : c = '\n'
      · subst hc
        rfl
      · have hcut : cutLine (c :: rest) =
            (c :: (cutLine rest).1, (cutLine rest).2) := by
          simp [cutLine, hc]
        rw [Lexis.trace_cons, ofGlyphs_of_not_inCode rfl, hcut]
        simp only [Lexis.step, hc, ↓reduceIte]
        rw [ih, byteLength_cons, Nat.add_assoc]

/-- Reading on inside a block comment finds the brackets behind it. -/
theorem ofGlyphs_block (offset : Nat) (text : Text) :
    ofGlyphs offset ((Lexis.mk escapes true).trace .block text) =
      ofGlyphs (offset + byteLength (cutBlock text).1)
        ((Lexis.mk escapes true).trace .code (cutBlock text).2) := by
  fun_induction cutBlock text generalizing offset with
  | case1 => rfl
  | case2 c => simp [ofGlyphs_of_not_inCode, Mode.inCode, Mode.inComment]
  | case3 c next rest hend =>
      obtain ⟨rfl, rfl⟩ := hend
      rfl
  | case4 c next rest hend cut ih =>
      -- After a star that `/` does not follow, reading goes on as before it.
      have hstar : ofGlyphs (offset + c.utf8Size)
          ((Lexis.mk escapes true).trace
            ((Lexis.mk escapes true).step .block c) (next :: rest)) =
          ofGlyphs (offset + c.utf8Size)
            ((Lexis.mk escapes true).trace .block (next :: rest)) := by
        by_cases hc : c = '*'
        · have hnext : next ≠ '/' := fun h => hend ⟨hc, h⟩
          simp only [Lexis.step, hc, ↓reduceIte, Lexis.trace_cons, hnext]
          exact ofGlyphs_congr rfl _ next _
        · simp only [Lexis.step, hc, ↓reduceIte]
      rw [Lexis.trace_cons, ofGlyphs_of_not_inCode rfl, hstar, ih,
        byteLength_cons, Nat.add_assoc]

/-- Behind a character that opens neither a literal nor a comment, reading goes
on as in code. -/
theorem ofGlyphs_afterCode {c : Char} {rest : Text} (hquote : c ≠ '\'')
    (hline : ¬(c = '-' ∧ rest.head? = some '-'))
    (hblock : ¬(c = '/' ∧ rest.head? = some '*')) (offset : Nat) :
    ofGlyphs offset ((Lexis.mk escapes true).trace
        ((Lexis.mk escapes true).afterCode c) rest) =
      ofGlyphs offset ((Lexis.mk escapes true).trace .code rest) := by
  cases rest with
  | nil => rfl
  | cons next tail =>
      by_cases hdash : c = '-'
      · subst hdash
        have hnext : next ≠ '-' := fun h => hline ⟨rfl, by rw [h]; rfl⟩
        have hstep : (Lexis.mk escapes true).step .dash next =
            (Lexis.mk escapes true).step .code next := if_neg hnext
        exact ofGlyphs_trace_congr rfl hstep offset tail
      · by_cases hslash : c = '/'
        · subst hslash
          have hnext : next ≠ '*' := fun h => hblock ⟨rfl, by rw [h]; rfl⟩
          have hstep : (Lexis.mk escapes true).step .slash next =
              (Lexis.mk escapes true).step .code next := if_neg hnext
          exact ofGlyphs_trace_congr rfl hstep offset tail
        · have hcode : (Lexis.mk escapes true).afterCode c = .code := by
            simp [Lexis.afterCode, hquote, hdash, hslash]
          rw [hcode]

/-- Reading code finds the brackets of the first lexeme, then those behind
it. -/
theorem ofGlyphs_first (offset : Nat) (c : Char) (rest : Text) :
    ofGlyphs offset ((Lexis.mk escapes true).trace .code (c :: rest)) =
      brackets offset [(first escapes c rest).1] ++
        ofGlyphs (offset + byteLength (first escapes c rest).1.text)
          ((Lexis.mk escapes true).trace .code (first escapes c rest).2) := by
  unfold first
  split
  · next hc =>
      subst hc
      rw [Lexis.trace_cons, ofGlyphs_of_ne (by decide) (by decide)]
      change ofGlyphs _ ((Lexis.mk escapes true).trace .literal rest) = _
      rw [ofGlyphs_literal, Nat.add_assoc]
      rfl
  · next hquote =>
      split
      · next hopens =>
          obtain ⟨rfl, hnext⟩ := hopens
          obtain ⟨tail, rfl⟩ := List.head?_eq_some_iff.mp hnext
          have hline := ofGlyphs_line escapes (offset + '-'.utf8Size)
            ('-' :: tail)
          rw [Lexis.trace_cons, ofGlyphs_of_not_inCode rfl] at hline
          rw [Lexis.trace_cons, ofGlyphs_of_ne (by decide) (by decide),
            Lexis.trace_cons, ofGlyphs_of_ne (by decide) (by decide)]
          rw [text, byteLength_cons, ← Nat.add_assoc]
          exact hline
      · next hline =>
          split
          · next hopens =>
              obtain ⟨rfl, hnext⟩ := hopens
              obtain ⟨tail, rfl⟩ := List.head?_eq_some_iff.mp hnext
              rw [Lexis.trace_cons, ofGlyphs_of_ne (by decide) (by decide),
                Lexis.trace_cons, ofGlyphs_of_ne (by decide) (by decide)]
              change ofGlyphs _ ((Lexis.mk escapes true).trace .block tail) = _
              rw [ofGlyphs_block, Nat.add_assoc, Nat.add_assoc]
              rfl
          · next hblock =>
              rw [Lexis.trace_cons]
              change _ = _ ++ ofGlyphs (offset + (c.utf8Size + 0)) _
              rw [← ofGlyphs_afterCode escapes hquote hline hblock]
              by_cases hopening : c = '('
              · subst hopening
                rfl
              · by_cases hclosing : c = ')'
                · subst hclosing
                  rfl
                · rw [ofGlyphs_of_ne hopening hclosing]
                  simp [brackets, hopening, hclosing, Lexis.step]

/-- The reader with modes finds the brackets of the lexemes. -/
theorem ofGlyphs_trace (offset : Nat) (sql : Text) :
    ofGlyphs offset ((Lexis.mk escapes true).trace .code sql) =
      brackets offset (all escapes sql) := by
  fun_induction all escapes sql generalizing offset with
  | case1 => rfl
  | case2 c rest ih => rw [ofGlyphs_first, ih, ← brackets_cons]

end Lexeme

/-- The structural brackets of a text: those outside its literals and
comments, by ascending offset. -/
def Dialect.structural (dialect : Dialect) (text : Text) : List Bracket :=
  Lexeme.brackets 0 (Lexeme.all dialect.backslashEscapes text)

theorem Dialect.brackets_eq_structural (dialect : Dialect) (text : Text) :
    dialect.lexis.brackets text = dialect.structural text :=
  Lexeme.ofGlyphs_trace dialect.backslashEscapes 0 text

end DdlDiagram
