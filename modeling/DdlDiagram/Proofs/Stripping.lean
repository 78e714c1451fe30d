/-
Comments out of a text, and what is left of it.  Reading the text that is left,
with literals and no comments, keeps in step with reading the whole text: the
two stand in the same literals and count the same brackets.
-/
import DdlDiagram.Lexis.Comment
import DdlDiagram.Proofs.Lexeme

namespace DdlDiagram

open Text

namespace Lexis

/-- What reading adds to the text without comments, each character with the byte
offset of the one whose reading adds it.  A bracket is added as it is read, so
its offset is its own. -/
def keptFrom (offset : Nat) : List Glyph → List (Nat × Char)
  | [] => []
  | glyph :: rest =>
      (kept glyph).map (offset, ·) ++
        keptFrom (offset + glyph.char.utf8Size) rest

/-- The text without comments, with the byte offset that each of its characters
comes from in a text that starts at an offset. -/
def strippedFrom (lexis : Lexis) (offset : Nat) (text : Text) :
    List (Nat × Char) :=
  keptFrom offset (lexis.trace .code text) ++
    (keptAtEnd (lexis.run .code text)).map (offset + byteLength text, ·)

/-- The brackets that reading a text counts, each at the offset its character
comes from. -/
def countedFrom (lexis : Lexis) : Mode → List (Nat × Char) → List Bracket
  | _, [] => []
  | mode, (offset, c) :: rest =>
      Bracket.ofGlyphs offset [⟨mode, c⟩] ++
        countedFrom lexis (lexis.step mode c) rest

theorem map_snd_keptFrom (offset : Nat) (glyphs : List Glyph) :
    (keptFrom offset glyphs).map Prod.snd = glyphs.flatMap kept := by
  induction glyphs generalizing offset with
  | nil => rfl
  | cons glyph rest ih =>
      rw [keptFrom, List.map_append, ih, List.flatMap_cons, List.map_map]
      simp [Function.comp_def]

/-- Without the offsets this is the text without comments. -/
theorem map_snd_strippedFrom (lexis : Lexis) (offset : Nat) (text : Text) :
    (lexis.strippedFrom offset text).map Prod.snd =
      lexis.withoutComments text := by
  rw [strippedFrom, List.map_append, map_snd_keptFrom, List.map_map]
  simp [withoutComments, Function.comp_def]

theorem countedFrom_append (lexis : Lexis) (mode : Mode)
    (left right : List (Nat × Char)) :
    lexis.countedFrom mode (left ++ right) =
      lexis.countedFrom mode left ++
        lexis.countedFrom (lexis.run mode (left.map Prod.snd)) right := by
  induction left generalizing mode with
  | nil => rfl
  | cons entry rest ih =>
      obtain ⟨offset, c⟩ := entry
      simp only [List.cons_append, countedFrom, ih, List.map_cons, run_cons,
        List.append_assoc]

/-- Outside literals, where comments are not looked for. -/
def Outside (mode : Mode) : Prop :=
  mode = .code ∨ mode = .closed

/-- How the reader of what is left stands to the reader of the whole text.  While
that one is in a comment, or waits for one to begin, nothing is added, so the
other stays where it was. -/
def Follows : Mode → Mode → Prop
  | .code, other => other = .code
  | .closed, other => other = .closed
  | .literal, other => other = .literal
  | .escaped, other => other = .escaped
  | .dash, other | .slash, other | .line, other | .block, other
  | .star, other => Outside other

theorem Follows.inLiteral {mode other : Mode} (h : Follows mode other) :
    other.inLiteral = mode.inLiteral := by
  cases mode <;> rcases h with rfl | rfl <;> rfl

variable (escapes : Bool)

/-- A character of code is added at once or waits, and the readers stay in
step. -/
theorem follows_released {other : Mode} (h : Outside other) (c : Char) :
    Follows ((Lexis.mk escapes true).afterCode c)
      ((Lexis.mk escapes false).run other (released c)) := by
  by_cases hquote : c = '\''
  · subst hquote
    rcases h with rfl | rfl <;> rfl
  · by_cases hdash : c = '-'
    · subst hdash
      exact h
    · by_cases hslash : c = '/'
      · subst hslash
        exact h
      · have hafter : (Lexis.mk escapes true).afterCode c = .code := by
          simp [afterCode, hquote, hdash, hslash]
        have hreleased : released c = [c] := by
          simp [released, hdash, hslash]
        rw [hafter, hreleased]
        rcases h with rfl | rfl <;>
          simp [Follows, step, afterCode, hquote]

/-- The bracket that a character of code is counts where it is added. -/
theorem counted_released {mode other : Mode} (hmode : mode.inCode = true)
    (h : Outside other) (offset : Nat) (c : Char) :
    (Lexis.mk escapes false).countedFrom other
        ((released c).map (offset, ·)) =
      Bracket.ofGlyphs offset [⟨mode, c⟩] := by
  by_cases hdash : c = '-'
  · subst hdash
    rw [Bracket.ofGlyphs_of_ne (by decide) (by decide)]
    rfl
  · by_cases hslash : c = '/'
    · subst hslash
      rw [Bracket.ofGlyphs_of_ne (by decide) (by decide)]
      rfl
    · have hreleased : released c = [c] := by
        simp [released, hdash, hslash]
      have hother : other.inCode = mode.inCode := by
        rw [hmode]
        rcases h with rfl | rfl <;> rfl
      rw [hreleased, List.map_singleton, countedFrom, countedFrom,
        List.append_nil, Bracket.ofGlyphs_congr hother]

/-- After each character the readers are in step again. -/
theorem follows_step {mode other : Mode} (h : Follows mode other) (c : Char) :
    Follows ((Lexis.mk escapes true).step mode c)
      ((Lexis.mk escapes false).run other (kept ⟨mode, c⟩)) := by
  cases mode with
  | code =>
      exact follows_released escapes (Or.inl h) c
  | closed =>
      exact follows_released escapes (Or.inr h) c
  | dash =>
      by_cases hc : c = '-'
      · subst hc
        exact h
      · rw [step, if_neg hc, kept, if_neg hc]
        have hcode : (Lexis.mk escapes false).step other '-' = .code := by
          rcases h with rfl | rfl <;> rfl
        rw [run_cons, hcode]
        exact follows_released escapes (Or.inl rfl) c
  | slash =>
      by_cases hc : c = '*'
      · subst hc
        exact h
      · rw [step, if_neg hc, kept, if_neg hc]
        have hcode : (Lexis.mk escapes false).step other '/' = .code := by
          rcases h with rfl | rfl <;> rfl
        rw [run_cons, hcode]
        exact follows_released escapes (Or.inl rfl) c
  | literal =>
      obtain rfl : other = .literal := h
      by_cases hc : c = '\''
      · subst hc
        rfl
      · by_cases hescape : (escapes && c == '\\') = true
        · simp [step, hc, hescape, kept, Follows]
        · simp [step, hc, hescape, kept, Follows]
  | escaped =>
      obtain rfl : other = .escaped := h
      rfl
  | line =>
      by_cases hc : c = '\n'
      · subst hc
        rcases h with rfl | rfl <;> rfl
      · rw [step, if_neg hc, kept, if_neg hc]
        exact h
  | block =>
      by_cases hc : c = '*'
      · subst hc
        exact h
      · rw [step, if_neg hc]
        exact h
  | star =>
      by_cases hc : c = '/'
      · subst hc
        rcases h with rfl | rfl <;> rfl
      · rw [step, if_neg hc, kept, if_neg hc]
        by_cases hstar : c = '*'
        · rw [if_pos hstar]
          exact h
        · rw [if_neg hstar]
          exact h

/-- Each character adds exactly the bracket that it is. -/
theorem counted_step {mode other : Mode} (h : Follows mode other)
    (offset : Nat) (c : Char) :
    (Lexis.mk escapes false).countedFrom other
        ((kept ⟨mode, c⟩).map (offset, ·)) =
      Bracket.ofGlyphs offset [⟨mode, c⟩] := by
  cases mode with
  | code =>
      exact counted_released escapes rfl (Or.inl h) offset c
  | closed =>
      exact counted_released escapes rfl (Or.inr h) offset c
  | dash =>
      by_cases hc : c = '-'
      · subst hc
        rfl
      · rw [kept, if_neg hc, List.map_cons, countedFrom,
          Bracket.ofGlyphs_of_ne (by decide) (by decide)]
        have hcode : (Lexis.mk escapes false).step other '-' = .code := by
          rcases h with rfl | rfl <;> rfl
        rw [hcode]
        exact counted_released escapes rfl (Or.inl rfl) offset c
  | slash =>
      by_cases hc : c = '*'
      · subst hc
        rfl
      · rw [kept, if_neg hc, List.map_cons, countedFrom,
          Bracket.ofGlyphs_of_ne (by decide) (by decide)]
        have hcode : (Lexis.mk escapes false).step other '/' = .code := by
          rcases h with rfl | rfl <;> rfl
        rw [hcode]
        exact counted_released escapes rfl (Or.inl rfl) offset c
  | literal =>
      obtain rfl : other = .literal := h
      rfl
  | escaped =>
      obtain rfl : other = .escaped := h
      rfl
  | line =>
      rw [Bracket.ofGlyphs_of_not_inCode rfl]
      by_cases hc : c = '\n'
      · subst hc
        rcases h with rfl | rfl <;> rfl
      · rw [kept, if_neg hc]
        rfl
  | block =>
      rw [Bracket.ofGlyphs_of_not_inCode rfl]
      rfl
  | star =>
      rw [Bracket.ofGlyphs_of_not_inCode rfl]
      by_cases hc : c = '/'
      · subst hc
        rcases h with rfl | rfl <;> rfl
      · rw [kept, if_neg hc]
        rfl

/-- Over a whole text the readers stay in step. -/
theorem follows_run {mode other : Mode} (h : Follows mode other)
    (text : Text) :
    Follows ((Lexis.mk escapes true).run mode text)
      ((Lexis.mk escapes false).run other
        (((Lexis.mk escapes true).trace mode text).flatMap kept)) := by
  induction text generalizing mode other with
  | nil => exact h
  | cons c rest ih =>
      rw [run_cons, trace_cons, List.flatMap_cons, run_append]
      exact ih (follows_step escapes h c)

/-- Over a whole text what is left counts the brackets of the whole. -/
theorem counted_run {mode other : Mode} (h : Follows mode other)
    (offset : Nat) (text : Text) :
    (Lexis.mk escapes false).countedFrom other
        (keptFrom offset ((Lexis.mk escapes true).trace mode text)) =
      Bracket.ofGlyphs offset ((Lexis.mk escapes true).trace mode text) := by
  induction text generalizing mode other offset with
  | nil => rfl
  | cons c rest ih =>
      have hchars : ((kept ⟨mode, c⟩).map (offset, ·)).map Prod.snd =
          kept ⟨mode, c⟩ := by
        simp [Function.comp_def]
      rw [trace_cons, keptFrom, countedFrom_append, counted_step escapes h,
        hchars, ih (follows_step escapes h c)]
      exact (Bracket.ofGlyphs_cons offset ⟨mode, c⟩ _).symm

/-- What is added at the end of a text counts no bracket. -/
theorem counted_keptAtEnd (mode other : Mode) (offset : Nat) :
    (Lexis.mk escapes false).countedFrom other
      ((keptAtEnd mode).map (offset, ·)) = [] := by
  cases mode <;>
    simp [keptAtEnd, countedFrom, Bracket.ofGlyphs, Glyph.isCode]

/-- What is added at the end of a text leaves a literal open or closed. -/
theorem inLiteral_keptAtEnd {mode other : Mode} (h : Follows mode other) :
    ((Lexis.mk escapes false).run other (keptAtEnd mode)).inLiteral =
      mode.inLiteral := by
  cases mode <;> rcases h with rfl | rfl <;> rfl

section lexemes

open Lexeme (cutLiteral cutLine cutBlock)

/-- The text without comments, read from a mode. -/
def withoutCommentsFrom (lexis : Lexis) (mode : Mode) (text : Text) : Text :=
  (lexis.trace mode text).flatMap kept ++ keptAtEnd (lexis.run mode text)

theorem withoutCommentsFrom_cons (lexis : Lexis) (mode : Mode) (c : Char) (rest : Text) :
    lexis.withoutCommentsFrom mode (c :: rest) =
      kept ⟨mode, c⟩ ++ lexis.withoutCommentsFrom (lexis.step mode c) rest :=
  List.append_assoc _ _ _

/-- Right behind a literal a text loses its comments as in code. -/
theorem withoutCommentsFrom_closed (c : Char) (rest : Text) :
    (Lexis.mk escapes true).withoutCommentsFrom .closed (c :: rest) =
      (Lexis.mk escapes true).withoutCommentsFrom .code (c :: rest) := rfl

/-- A literal stays as it is. -/
theorem withoutCommentsFrom_literal (text : Text) :
    (Lexis.mk escapes true).withoutCommentsFrom .literal text =
      (cutLiteral escapes text).1 ++
        (Lexis.mk escapes true).withoutComments (cutLiteral escapes text).2 := by
  fun_induction cutLiteral escapes text with
  | case1 => rfl
  | case2 c =>
      rw [withoutCommentsFrom_cons, step]
      split
      · rfl
      · split <;> rfl
  | case3 rest cut ih => exact congrArg ('\'' :: '\'' :: ·) ih
  | case4 next rest hnext =>
      exact congrArg ('\'' :: ·) (withoutCommentsFrom_closed escapes next rest)
  | case5 c next rest hc hescape cut ih =>
      have hstep : (Lexis.mk escapes true).step .literal c = .escaped := by
        simp only [step, hc, hescape, ↓reduceIte]
      rw [withoutCommentsFrom_cons, hstep]
      exact congrArg (c :: next :: ·) ih
  | case6 c next rest hc hescape cut ih =>
      have hstep : (Lexis.mk escapes true).step .literal c = .literal := by
        simp only [step, hc, hescape, ↓reduceIte, Bool.false_eq_true]
      rw [withoutCommentsFrom_cons, hstep]
      exact congrArg (c :: ·) ih

/-- A line comment leaves what stands from the end of its line on. -/
theorem withoutCommentsFrom_line (text : Text) :
    (Lexis.mk escapes true).withoutCommentsFrom .line text =
      (Lexis.mk escapes true).withoutComments (cutLine text).2 := by
  induction text with
  | nil => rfl
  | cons c rest ih =>
      by_cases hc : c = '\n'
      · subst hc
        rfl
      · have hcut : (cutLine (c :: rest)).2 = (cutLine rest).2 := by
          simp [cutLine, hc]
        rw [withoutCommentsFrom_cons, hcut, ← ih]
        simp [kept, step, hc]

/-- A block comment leaves a blank. -/
theorem withoutCommentsFrom_block (text : Text) :
    (Lexis.mk escapes true).withoutCommentsFrom .block text =
      ' ' :: (Lexis.mk escapes true).withoutComments (cutBlock text).2 := by
  fun_induction cutBlock text with
  | case1 => rfl
  | case2 c =>
      rw [withoutCommentsFrom_cons, step]
      split <;> rfl
  | case3 c next rest hend =>
      obtain ⟨rfl, rfl⟩ := hend
      rfl
  | case4 c next rest hend cut ih =>
      -- After a star that `/` does not follow, reading goes on as before it.
      rw [withoutCommentsFrom_cons, ← ih]
      by_cases hc : c = '*'
      · have hnext : next ≠ '/' := fun h => hend ⟨hc, h⟩
        simp only [kept, step, hc, ↓reduceIte, List.nil_append, withoutCommentsFrom_cons, hnext]
      · simp only [kept, step, hc, ↓reduceIte, List.nil_append]

/-- A character that opens neither a literal nor a comment stays. -/
theorem withoutComments_code {c : Char} {rest : Text} (hquote : c ≠ '\'')
    (hline : ¬(c = '-' ∧ rest.head? = some '-'))
    (hblock : ¬(c = '/' ∧ rest.head? = some '*')) :
    (Lexis.mk escapes true).withoutComments (c :: rest) =
      c :: (Lexis.mk escapes true).withoutComments rest := by
  change (Lexis.mk escapes true).withoutCommentsFrom .code (c :: rest) =
    c :: (Lexis.mk escapes true).withoutCommentsFrom .code rest
  rw [withoutCommentsFrom_cons]
  by_cases hdash : c = '-'
  · subst hdash
    change (Lexis.mk escapes true).withoutCommentsFrom .dash rest = _
    cases rest with
    | nil => rfl
    | cons next tail =>
        have hnext : next ≠ '-' := fun h => hline ⟨rfl, by rw [h]; rfl⟩
        simp only [withoutCommentsFrom_cons, kept, step, hnext, ↓reduceIte, List.cons_append]
  · by_cases hslash : c = '/'
    · subst hslash
      change (Lexis.mk escapes true).withoutCommentsFrom .slash rest = _
      cases rest with
      | nil => rfl
      | cons next tail =>
          have hnext : next ≠ '*' := fun h => hblock ⟨rfl, by rw [h]; rfl⟩
          simp only [withoutCommentsFrom_cons, kept, step, hnext, ↓reduceIte, List.cons_append]
    · have hstep : (Lexis.mk escapes true).step .code c = .code := by
        simp [step, afterCode, hquote, hdash, hslash]
      have hkept : kept ⟨.code, c⟩ = [c] := by
        simp [kept, released, hdash, hslash]
      rw [hstep, hkept, List.singleton_append]

end lexemes

end Lexis

namespace Dialect

/-- Reading a text without its comments counts the brackets of the text. -/
theorem counted_stripped (dialect : Dialect) (offset : Nat) (text : Text) :
    dialect.literalLexis.countedFrom .code
        (dialect.lexis.strippedFrom offset text) =
      Bracket.ofGlyphs offset (dialect.lexis.trace .code text) := by
  have hstart : Lexis.Follows .code .code := rfl
  rw [Lexis.strippedFrom, Lexis.countedFrom_append, lexis, literalLexis,
    Lexis.counted_run _ hstart, Lexis.counted_keptAtEnd, List.append_nil]

/-- Reading a text without its comments ends in a literal exactly when reading
the text does. -/
theorem inLiteral_stripped (dialect : Dialect) (text : Text) :
    (dialect.literalLexis.run .code
        (dialect.lexis.withoutComments text)).inLiteral =
      (dialect.lexis.run .code text).inLiteral := by
  have hstart : Lexis.Follows .code .code := rfl
  rw [Lexis.withoutComments, Lexis.run_append]
  exact Lexis.inLiteral_keptAtEnd dialect.backslashEscapes
    (Lexis.follows_run dialect.backslashEscapes hstart text)

end Dialect

end DdlDiagram
