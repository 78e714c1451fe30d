/-
The readers of literals as loops over characters, each with a state of its own.  Blanking
and taking out comments look one character ahead and may pass two at once; cutting a body
and taking out name quotes go character by character and raise a flag behind a backslash,
and cutting turns its literal off and on again at a doubled quote.  Each of the loops gives
what is read off the modes.
-/
import DdlDiagram.Lexis.Literal
import DdlDiagram.Proofs.Cleaning

namespace DdlDiagram

open Text

namespace CharLoop

/-- Blank the literals, from inside of one or from outside. -/
def blankFrom (escapes : Bool) : Bool → Text → Text
  | _, [] => []
  | false, c :: rest => c :: blankFrom escapes (c == '\'') rest
  | true, c :: rest =>
      if c = '\\' ∧ escapes = true then ' ' :: ' ' :: blankFrom escapes true rest.tail
      else if c = '\'' ∧ rest.head? = some '\'' then
        ' ' :: ' ' :: blankFrom escapes true rest.tail
      else if c = '\'' then c :: blankFrom escapes false rest
      else ' ' :: blankFrom escapes true rest
termination_by _ text => text.length
decreasing_by all_goals
  simp only [List.length_cons, List.length_tail]
  omega

/-- The text with its literals blanked. -/
def blank (escapes : Bool) (text : Text) : Text :=
  blankFrom escapes false text

/-- What a line comment leaves, and the text behind it: the newline is kept and passed. -/
def passLine : Text → Text × Text
  | [] => ([], [])
  | c :: rest => if c = '\n' then ([c], rest) else passLine rest

/-- The text behind a block comment; `previous` is the character in front. -/
def passBlock (previous : Char) : Text → Text
  | [] => []
  | c :: rest => if previous = '*' ∧ c = '/' then rest else passBlock c rest

theorem length_passLine_le (text : Text) : (passLine text).2.length ≤ text.length := by
  induction text with
  | nil => exact Nat.le_refl 0
  | cons c rest ih =>
      rw [passLine]
      split
      · exact Nat.le_succ _
      · exact Nat.le_succ_of_le ih

theorem length_passBlock_le (previous : Char) (text : Text) :
    (passBlock previous text).length ≤ text.length := by
  induction text generalizing previous with
  | nil => exact Nat.le_refl 0
  | cons c rest ih =>
      rw [passBlock]
      split
      · exact Nat.le_succ _
      · exact Nat.le_succ_of_le (ih c)

/-- Take out the comments, from inside of a literal or from outside. -/
def stripFrom (escapes : Bool) : Bool → Text → Text
  | _, [] => []
  | true, c :: rest =>
      if c = '\\' ∧ escapes = true then
        c :: (rest.head?.toList ++ stripFrom escapes true rest.tail)
      else c :: stripFrom escapes (c != '\'') rest
  | false, c :: rest =>
      if c = '\'' then c :: stripFrom escapes true rest
      else if c = '-' ∧ rest.head? = some '-' then
        (passLine rest).1 ++ stripFrom escapes false (passLine rest).2
      else if c = '/' ∧ rest.head? = some '*' then
        ' ' :: stripFrom escapes false (passBlock '\x00' rest.tail)
      else c :: stripFrom escapes false rest
termination_by _ text => text.length
decreasing_by
  · rw [List.length_tail, List.length_cons]
    omega
  · exact Nat.lt_succ_self _
  · exact Nat.lt_succ_self _
  · exact Nat.lt_succ_of_le (length_passLine_le rest)
  · have hpassed := length_passBlock_le '\x00' rest.tail
    rw [List.length_tail] at hpassed
    rw [List.length_cons]
    omega
  · exact Nat.lt_succ_self _

/-- The text without its comments. -/
def strip (escapes : Bool) (text : Text) : Text :=
  stripFrom escapes false text

/-- A body that is being cut: the parts so far, the one that is read, the depth, and what
is known about the next character. -/
structure Cutter where
  parts : List Text
  current : Text
  depth : Int
  inString : Bool
  escapeNext : Bool
deriving DecidableEq, Repr

namespace Cutter

def start : Cutter := ⟨[], [], 0, false, false⟩

/-- Add a character to the part that is read. -/
def push (cutter : Cutter) (c : Char) : Cutter :=
  { cutter with current := cutter.current ++ [c] }

/-- Read a character. -/
def read (escapes : Bool) (cutter : Cutter) (c : Char) : Cutter :=
  if cutter.escapeNext then { cutter.push c with escapeNext := false }
  else if c = '\\' ∧ cutter.inString = true ∧ escapes = true then
    { cutter.push c with escapeNext := true }
  else if c = '\'' then { cutter.push c with inString := !cutter.inString }
  else if cutter.inString then cutter.push c
  else if c = '(' then { cutter.push c with depth := cutter.depth + 1 }
  else if c = ')' then { cutter.push c with depth := cutter.depth - 1 }
  else if c = ',' ∧ cutter.depth = 0 then
    { cutter with parts := cutter.parts ++ [trim cutter.current], current := [] }
  else cutter.push c

/-- Read a text from its beginning. -/
def run (escapes : Bool) (text : Text) : Cutter :=
  text.foldl (read escapes) start

/-- All parts, the last one if it is not empty. -/
def finish (cutter : Cutter) : List Text :=
  if (trim cutter.current).isEmpty then cutter.parts
  else cutter.parts ++ [trim cutter.current]

end Cutter

/-- The parts of a body. -/
def split (escapes : Bool) (body : Text) : List Text :=
  (Cutter.run escapes body).finish

/-- A text that is losing its name quotes: what is left so far, and what is known about
the next character. -/
structure Unquoter where
  left : Text
  inString : Bool
  escapeNext : Bool
deriving DecidableEq, Repr

namespace Unquoter

def start : Unquoter := ⟨[], false, false⟩

/-- Keep a character. -/
def push (unquoter : Unquoter) (c : Char) : Unquoter :=
  { unquoter with left := unquoter.left ++ [c] }

/-- Read a character. -/
def read (dialect : Dialect) (unquoter : Unquoter) (c : Char) : Unquoter :=
  if unquoter.escapeNext then { unquoter.push c with escapeNext := false }
  else if unquoter.inString then
    if c = '\\' ∧ dialect.backslashEscapes = true then
      { unquoter.push c with escapeNext := true }
    else if c = '\'' then { unquoter.push c with inString := false }
    else unquoter.push c
  else if c = '\'' then { unquoter.push c with inString := true }
  else if dialect.nameQuotes.contains c then unquoter
  else unquoter.push c

/-- Read a text from its beginning. -/
def run (dialect : Dialect) (text : Text) : Unquoter :=
  text.foldl (read dialect) start

end Unquoter

/-- The text without its name quotes. -/
def unquote (dialect : Dialect) (text : Text) : Text :=
  if dialect.nameQuotes.isEmpty then text else (Unquoter.run dialect text).left

end CharLoop

open CharLoop

namespace Lexis

/-- Blanking from inside of a literal or from outside is blanking from that mode. -/
theorem blankFrom_eq (escapes inString : Bool) (text : Text) :
    blankFrom escapes inString text =
      (Lexis.mk escapes false).blankedFrom (if inString then .literal else .code) text := by
  fun_induction blankFrom escapes inString text with
  | case1 => cases ‹Bool› <;> rfl
  | case2 c rest ih =>
      rw [ih, blankedFrom_cons]
      by_cases hc : c = '\''
      · subst hc
        rfl
      · simp [blanked, step, afterCode, hc]
  | case3 c rest hescape ih =>
      obtain ⟨rfl, rfl⟩ := hescape
      rw [ih, blankedFrom_cons]
      cases rest with
      | nil => rfl
      | cons next tail => rfl
  | case4 c rest hescape hdouble ih =>
      obtain ⟨rfl, hnext⟩ := hdouble
      obtain ⟨tail, rfl⟩ := List.head?_eq_some_iff.mp hnext
      rw [ih]
      rfl
  | case5 rest hescape hdouble ih =>
      have hnext : ∀ c ∈ rest.head?, c ≠ '\'' := by
        rintro c hc rfl
        exact hdouble ⟨rfl, hc⟩
      rw [ih]
      exact (blankedFrom_closed hnext).symm
  | case6 c rest hescape hdouble hquote ih =>
      have hkept : ((Lexis.mk escapes false).escapes && c == '\\') = false := by
        simpa using fun hescapes hc => hescape ⟨hc, hescapes⟩
      rw [ih, if_pos rfl, blankedFrom_cons]
      simp only [blanked, step, hquote, hkept]
      rfl

/-- The loop that blanks literals. -/
theorem blank_eq (dialect : Dialect) (text : Text) :
    blank dialect.backslashEscapes text = dialect.literalLexis.blankLiterals text :=
  blankFrom_eq dialect.backslashEscapes false text

section strip

variable (escapes : Bool)

/-- Passing a line comment is reading it. -/
theorem passLine_append (text : Text) :
    (passLine text).1 ++ (Lexis.mk escapes true).withoutComments (passLine text).2 =
      (Lexis.mk escapes true).withoutCommentsFrom .line text := by
  induction text with
  | nil => rfl
  | cons c rest ih =>
      rw [withoutCommentsFrom_cons, passLine]
      by_cases hc : c = '\n'
      · subst hc
        rfl
      · simpa [kept, step, hc] using ih

/-- Passing a block comment is reading it: behind a star its end may follow. -/
theorem cons_passBlock (previous : Char) (text : Text) :
    ' ' :: (Lexis.mk escapes true).withoutComments (passBlock previous text) =
      (Lexis.mk escapes true).withoutCommentsFrom
        (if previous = '*' then .star else .block) text := by
  induction text generalizing previous with
  | nil => split <;> rfl
  | cons c rest ih =>
      rw [withoutCommentsFrom_cons, passBlock]
      by_cases hprevious : previous = '*'
      · by_cases hc : c = '/'
        · simp only [hprevious, hc, and_self, ↓reduceIte]
          rfl
        · simp only [hprevious, hc, and_false, ↓reduceIte, ih, kept, step, List.nil_append]
      · simp only [hprevious, false_and, ↓reduceIte, ih, kept, step, List.nil_append]

/-- Taking out comments from inside of a literal or from outside is doing so from that
mode. -/
theorem stripFrom_eq (inString : Bool) (text : Text) :
    stripFrom escapes inString text =
      (Lexis.mk escapes true).withoutCommentsFrom (if inString then .literal else .code)
        text := by
  fun_induction stripFrom escapes inString text with
  | case1 => cases ‹Bool› <;> rfl
  | case2 c rest hescape ih =>
      obtain ⟨rfl, rfl⟩ := hescape
      rw [ih]
      cases rest <;> rfl
  | case3 c rest hescape ih =>
      rw [ih, if_pos rfl, withoutCommentsFrom_cons]
      by_cases hc : c = '\''
      · subst hc
        cases rest <;> rfl
      · have hkept : (escapes && c == '\\') = false := by
          simpa using fun hescapes hc => hescape ⟨hc, hescapes⟩
        simp [kept, step, hc, hkept]
  | case4 rest ih =>
      rw [ih]
      rfl
  | case5 c rest hquote hline ih =>
      obtain ⟨rfl, hnext⟩ := hline
      obtain ⟨tail, rfl⟩ := List.head?_eq_some_iff.mp hnext
      rw [ih]
      exact passLine_append escapes ('-' :: tail)
  | case6 c rest hquote hline hblock ih =>
      obtain ⟨rfl, hnext⟩ := hblock
      obtain ⟨tail, rfl⟩ := List.head?_eq_some_iff.mp hnext
      rw [ih]
      exact cons_passBlock escapes '\x00' tail
  | case7 c rest hquote hline hblock ih =>
      rw [ih]
      exact (withoutComments_code escapes hquote hline hblock).symm

/-- The loop that takes out comments. -/
theorem strip_eq (dialect : Dialect) (text : Text) :
    strip dialect.backslashEscapes text = dialect.lexis.withoutComments text :=
  stripFrom_eq dialect.backslashEscapes false text

end strip

end Lexis

namespace CharLoop

open Lexis

variable {dialect : Dialect} {mode : Mode}

/-- The state of the loop that cuts, in a mode. -/
def Cutter.ofMode (parts : List Text) (current : Text) (depth : Int) (mode : Mode) : Cutter :=
  ⟨parts, current, depth, mode.inLiteral, decide (mode = .escaped)⟩

/-- The state of the loop that takes out name quotes, in a mode. -/
def Unquoter.ofMode (left : Text) (mode : Mode) : Unquoter :=
  ⟨left, mode.inLiteral, decide (mode = .escaped)⟩

/-- Outside literals each loop goes by the character alone. -/
theorem Cutter.read_outside (hmode : Outside mode) (parts : List Text) (current : Text)
    (depth : Int) (c : Char) :
    (ofMode parts current depth mode).read dialect.backslashEscapes c =
      if isSeparator depth ⟨mode, c⟩ then
        ofMode (parts ++ [trim current]) [] depth (dialect.literalLexis.step mode c)
      else
        ofMode parts (current ++ [c]) (depthAfter depth ⟨mode, c⟩)
          (dialect.literalLexis.step mode c) := by
  have hstate : ofMode parts current depth mode = ⟨parts, current, depth, false, false⟩ := by
    rcases hmode with rfl | rfl <;> rfl
  rw [hstate]
  by_cases hquote : c = '\''
  · subst hquote
    rcases hmode with rfl | rfl <;> rfl
  · rw [step_literalLexis hmode hquote]
    by_cases hopening : c = '('
    · subst hopening
      rcases hmode with rfl | rfl <;> rfl
    · by_cases hclosing : c = ')'
      · subst hclosing
        rcases hmode with rfl | rfl <;> rfl
      · simp [read, isSeparator, depthAfter, Glyph.isCode, hmode.inCode, hquote, hopening,
          hclosing, push, ofMode, Mode.inLiteral]

theorem Cutter.read_literal (hmode : mode.inLiteral = true) (parts : List Text)
    (current : Text) (depth : Int) (c : Char) :
    (ofMode parts current depth mode).read dialect.backslashEscapes c =
      ofMode parts (current ++ [c]) depth (dialect.literalLexis.step mode c) := by
  cases mode with
  | escaped => rfl
  | literal =>
      by_cases hquote : c = '\''
      · subst hquote
        rfl
      · by_cases hescape : c = '\\' ∧ dialect.backslashEscapes = true
        · simp [read, step, Dialect.literalLexis, hescape.1, hescape.2, push, ofMode,
            Mode.inLiteral]
        · have hplain : (dialect.backslashEscapes && c == '\\') = false := by
            simpa using fun hescapes hc => hescape ⟨hc, hescapes⟩
          simp [read, step, Dialect.literalLexis, hquote, hescape, hplain, push, ofMode,
            Mode.inLiteral]
  | code | closed | dash | slash | line | block | star => contradiction

/-- Cutting reads a character as the modes do: a comma that ends a part cuts, and every
other character is added. -/
theorem Cutter.read_ofMode (hmode : Outside mode ∨ mode.inLiteral = true)
    (parts : List Text) (current : Text) (depth : Int) (c : Char) :
    (ofMode parts current depth mode).read dialect.backslashEscapes c =
      if isSeparator depth ⟨mode, c⟩ then
        ofMode (parts ++ [trim current]) [] depth (dialect.literalLexis.step mode c)
      else
        ofMode parts (current ++ [c]) (depthAfter depth ⟨mode, c⟩)
          (dialect.literalLexis.step mode c) := by
  rcases hmode with hmode | hmode
  · exact read_outside hmode parts current depth c
  · have hcode : mode.inCode = false := by
      rw [Mode.inCode, hmode]
      rfl
    rw [read_literal hmode]
    simp [isSeparator, depthAfter, Glyph.isCode, hcode]

/-- Cutting a text leads to the depth and the mode behind it, and to the parts that its
glyphs are cut into. -/
theorem Cutter.foldl_ofMode (hmode : Outside mode ∨ mode.inLiteral = true)
    (parts : List Text) (current : Text) (depth : Int) (text : Text) :
    ∃ parts' current',
      text.foldl (read dialect.backslashEscapes) (ofMode parts current depth mode) =
        ofMode parts' current' (depthOf depth (dialect.literalLexis.trace mode text))
          (dialect.literalLexis.run mode text) ∧
      parts' ++ [trim current'] =
        parts ++ ((current ++ (cutParts depth (dialect.literalLexis.trace mode text)).1) ::
          (cutParts depth (dialect.literalLexis.trace mode text)).2).map trim := by
  induction text generalizing mode parts current depth with
  | nil => exact ⟨parts, current, rfl, by simp [cutParts]⟩
  | cons c rest ih =>
      have hstep := step_literalLexis_cases dialect hmode c
      rw [List.foldl_cons, read_ofMode hmode, trace_cons, run_cons, cutParts]
      by_cases hcut : isSeparator depth ⟨mode, c⟩ = true
      · have hdepth : depthAfter depth ⟨mode, c⟩ = depth := by
          simp only [isSeparator, Glyph.isCode, Bool.and_eq_true, beq_iff_eq] at hcut
          simp [depthAfter, Glyph.isCode, hcut.1.2]
        obtain ⟨parts', current', hstate, hparts⟩ := ih hstep (parts ++ [trim current]) [] depth
        refine ⟨parts', current', ?_, ?_⟩
        · rw [if_pos hcut, hstate, depthOf, depthOf, List.foldl_cons, hdepth]
        · rw [hparts, if_pos hcut, hdepth]
          simp
      · obtain ⟨parts', current', hstate, hparts⟩ :=
          ih hstep parts (current ++ [c]) (depthAfter depth ⟨mode, c⟩)
        refine ⟨parts', current', ?_, ?_⟩
        · rw [if_neg hcut, hstate, depthOf, depthOf, List.foldl_cons]
        · rw [hparts, if_neg hcut]
          simp

/-- Behind a text the loop that cuts stands where the modes stand. -/
theorem Cutter.run_eq (dialect : Dialect) (text : Text) :
    ∃ parts current, run dialect.backslashEscapes text =
        ofMode parts current (depthOf 0 (dialect.literalLexis.trace .code text))
          (dialect.literalLexis.run .code text) ∧
      parts ++ [trim current] =
        (cuts 0 (dialect.literalLexis.trace .code text)).map trim :=
  foldl_ofMode (Or.inl (Or.inl rfl)) [] [] 0 text

/-- The loop that cuts a body. -/
theorem split_eq (dialect : Dialect) (body : Text) :
    split dialect.backslashEscapes body = dialect.literalLexis.parts body := by
  obtain ⟨parts, current, hrun, hparts⟩ := Cutter.run_eq dialect body
  have hlast : dropEmptyLast (parts ++ [trim current]) =
      if (trim current).isEmpty then parts else parts ++ [trim current] := by
    rw [dropEmptyLast_append parts (List.cons_ne_nil _ _), dropEmptyLast]
    split <;> simp
  rw [split, hrun, parts_eq_cuts, ← hparts, hlast]
  rfl

/-- Taking out name quotes reads a character as the modes do. -/
theorem Unquoter.read_ofMode (hmode : Outside mode ∨ mode.inLiteral = true) (left : Text)
    (c : Char) :
    (ofMode left mode).read dialect c =
      ofMode (left ++ if mode.inLiteral || !dialect.nameQuotes.contains c then [c] else [])
        (dialect.literalLexis.step mode c) := by
  rcases hmode with hmode | hmode
  · have hstate : ofMode left mode = ⟨left, false, false⟩ := by
      rcases hmode with rfl | rfl <;> rfl
    have hnot : '\'' ∉ dialect.nameQuotes := CleanText.not_mem_nameQuotes dialect
    rw [hstate]
    by_cases hquote : c = '\''
    · subst hquote
      rcases hmode with rfl | rfl <;>
        simp [read, push, ofMode, step, afterCode, hnot, Mode.inLiteral]
    · rw [step_literalLexis hmode hquote, inLiteral_of_inCode hmode.inCode]
      by_cases hname : c ∈ dialect.nameQuotes <;>
        simp [read, push, ofMode, hquote, hname, Mode.inLiteral]
  · rw [hmode, Bool.true_or, if_pos rfl]
    cases mode with
    | escaped => rfl
    | literal =>
        by_cases hquote : c = '\''
        · subst hquote
          rfl
        · by_cases hescape : c = '\\' ∧ dialect.backslashEscapes = true
          · simp [read, step, Dialect.literalLexis, hescape.1, hescape.2, push, ofMode,
              Mode.inLiteral]
          · have hplain : (dialect.backslashEscapes && c == '\\') = false := by
              simpa using fun hescapes hc => hescape ⟨hc, hescapes⟩
            simp [read, step, Dialect.literalLexis, hquote, hescape, hplain, push, ofMode,
              Mode.inLiteral]
    | code | closed | dash | slash | line | block | star => contradiction

/-- Behind a text the loop that takes out name quotes has taken out those of the text. -/
theorem Unquoter.run_eq (dialect : Dialect) (text : Text) :
    run dialect text = ofMode (CleanText.unquoteNames dialect text)
      (dialect.literalLexis.run .code text) := by
  have hfold : ∀ {mode : Mode} (left : Text), Outside mode ∨ mode.inLiteral = true →
      text.foldl (read dialect) (ofMode left mode) =
        ofMode (left ++ ((dialect.literalLexis.trace mode text).filter
          (CleanText.isKept dialect)).map Glyph.char) (dialect.literalLexis.run mode text) := by
    induction text with
    | nil => intro mode left _; simp
    | cons c rest ih =>
        intro mode left hmode
        rw [List.foldl_cons, read_ofMode hmode, ih _ (step_literalLexis_cases dialect hmode c),
          trace_cons, run_cons, List.filter_cons, CleanText.isKept]
        split <;> simp
  exact hfold [] (Or.inl (Or.inl rfl))

/-- The loop that takes out name quotes. -/
theorem unquote_eq (dialect : Dialect) (text : Text) :
    unquote dialect text = CleanText.unquoteNames dialect text := by
  rw [unquote, Unquoter.run_eq]
  split
  · next hnone =>
      have hkept : ∀ glyph ∈ dialect.literalLexis.trace .code text,
          (glyph.mode.inLiteral || !dialect.nameQuotes.contains glyph.char) = true := by
        simp [List.isEmpty_iff.mp hnone]
      rw [CleanText.unquoteNames, List.filter_eq_self.mpr hkept, map_char_trace]
  · rfl

section state

variable (dialect : Dialect) (text : Text)

/-- The depth at which a body is cut. -/
@[simp] theorem Cutter.depth_run :
    (Cutter.run dialect.backslashEscapes text).depth =
      Lexis.depthOf 0 (dialect.literalLexis.trace .code text) := by
  obtain ⟨parts, current, hrun, _⟩ := Cutter.run_eq dialect text
  rw [hrun]
  rfl

@[simp] theorem Cutter.inString_run :
    (Cutter.run dialect.backslashEscapes text).inString =
      (dialect.literalLexis.run .code text).inLiteral := by
  obtain ⟨parts, current, hrun, _⟩ := Cutter.run_eq dialect text
  rw [hrun]
  rfl

@[simp] theorem Cutter.escapeNext_run :
    (Cutter.run dialect.backslashEscapes text).escapeNext =
      decide (dialect.literalLexis.run .code text = .escaped) := by
  obtain ⟨parts, current, hrun, _⟩ := Cutter.run_eq dialect text
  rw [hrun]
  rfl

@[simp] theorem Unquoter.inString_run :
    (Unquoter.run dialect text).inString =
      (dialect.literalLexis.run .code text).inLiteral := by
  rw [Unquoter.run_eq]
  rfl

@[simp] theorem Unquoter.left_run :
    (Unquoter.run dialect text).left = CleanText.unquoteNames dialect text := by
  rw [Unquoter.run_eq]
  rfl

end state

end CharLoop

end DdlDiagram
