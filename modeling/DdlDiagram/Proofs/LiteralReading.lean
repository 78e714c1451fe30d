/-
Literals in a text without comments.  The reader that looks for comments and the one that
knows none hold the same characters for the contents of literals there, and blanking
blanks these and leaves every other one in its place.
-/
import DdlDiagram.Lexis.Literal
import DdlDiagram.Proofs.Cleaning

namespace DdlDiagram

open Text

namespace Lexis

/-- No character of the text is read in a comment, nor does one begin at its
end. -/
def Uncommented (lexis : Lexis) (mode : Mode) (text : Text) : Prop :=
  ∀ front, front <+: text → (lexis.run mode front).inComment = false

theorem Uncommented.start {lexis : Lexis} {mode : Mode} {text : Text}
    (h : lexis.Uncommented mode text) : mode.inComment = false :=
  h [] List.nil_prefix

theorem Uncommented.tail {lexis : Lexis} {mode : Mode} {c : Char} {rest : Text}
    (h : lexis.Uncommented mode (c :: rest)) :
    lexis.Uncommented (lexis.step mode c) rest :=
  fun front hfront => h (c :: front) (List.cons_prefix_cons.mpr ⟨rfl, hfront⟩)

/-- How many characters the end of a text can still add in a mode. -/
def waiting : Mode → Nat
  | .dash | .slash | .block | .star => 1
  | _ => 0

theorem length_keptAtEnd (mode : Mode) :
    (keptAtEnd mode).length = waiting mode := by
  cases mode <;> rfl

section comments

variable (escapes : Bool)

/-- A character of code adds itself, at once or later. -/
theorem length_released (c : Char) :
    (released c).length + waiting ((Lexis.mk escapes true).afterCode c) = 1 := by
  by_cases hquote : c = '\''
  · subst hquote
    rfl
  · by_cases hdash : c = '-'
    · subst hdash
      rfl
    · by_cases hslash : c = '/'
      · subst hslash
        rfl
      · simp [released, afterCode, hquote, hdash, hslash, waiting]

/-- A character adds no more than itself, and one that begins a comment
less. -/
theorem length_kept (mode : Mode) (c : Char) :
    (kept ⟨mode, c⟩).length + waiting ((Lexis.mk escapes true).step mode c) ≤
        1 + waiting mode ∧
      (mode.inComment = false →
        ((Lexis.mk escapes true).step mode c).inComment = true →
        (kept ⟨mode, c⟩).length + waiting ((Lexis.mk escapes true).step mode c) <
          1 + waiting mode) := by
  have hreleased := length_released escapes c
  have hcode : ((Lexis.mk escapes true).afterCode c).inComment = false := by
    simp only [afterCode]
    split_ifs <;> rfl
  cases mode with
  | code | closed =>
      change (released c).length + waiting ((Lexis.mk escapes true).afterCode c) ≤
          1 + 0 ∧ (_ → ((Lexis.mk escapes true).afterCode c).inComment = true → _)
      exact ⟨by omega, by simp [hcode]⟩
  | dash =>
      by_cases hc : c = '-'
      · simp [kept, step, hc, waiting]
      · simp only [kept, step, hc, ↓reduceIte, List.length_cons, hcode]
        change _ ≤ 1 + 1 ∧ _
        exact ⟨by omega, by simp⟩
  | slash =>
      by_cases hc : c = '*'
      · simp [kept, step, hc, waiting]
      · simp only [kept, step, hc, ↓reduceIte, List.length_cons, hcode]
        change _ ≤ 1 + 1 ∧ _
        exact ⟨by omega, by simp⟩
  | literal =>
      simp only [kept, step]
      split_ifs <;> simp [waiting, Mode.inComment]
  | escaped => simp [kept, step, waiting, Mode.inComment]
  | line | block | star =>
      simp only [kept, step]
      split_ifs <;> simp [waiting, Mode.inComment]

/-- Without its comments a text is no longer than with them. -/
theorem length_kept_run (mode : Mode) (text : Text) :
    (((Lexis.mk escapes true).trace mode text).flatMap kept ++
        keptAtEnd ((Lexis.mk escapes true).run mode text)).length ≤
      text.length + waiting mode := by
  induction text generalizing mode with
  | nil => simp [length_keptAtEnd]
  | cons c rest ih =>
      have hrest := ih ((Lexis.mk escapes true).step mode c)
      have hstep := (length_kept escapes mode c).1
      rw [trace_cons, run_cons, List.flatMap_cons, List.append_assoc,
        List.length_append, List.length_cons]
      omega

/-- A text that is as long without its comments has none. -/
theorem uncommented_of_length {mode : Mode} {text : Text}
    (hmode : mode.inComment = false)
    (h : (((Lexis.mk escapes true).trace mode text).flatMap kept ++
        keptAtEnd ((Lexis.mk escapes true).run mode text)).length =
      text.length + waiting mode) :
    (Lexis.mk escapes true).Uncommented mode text := by
  induction text generalizing mode with
  | nil =>
      intro front hfront
      rw [List.prefix_nil.mp hfront]
      exact hmode
  | cons c rest ih =>
      have hrest := length_kept_run escapes ((Lexis.mk escapes true).step mode c)
        rest
      obtain ⟨hle, hlt⟩ := length_kept escapes mode c
      rw [trace_cons, run_cons, List.flatMap_cons, List.append_assoc,
        List.length_append, List.length_cons] at h
      have hstep : ((Lexis.mk escapes true).step mode c).inComment = false := by
        by_contra hcomment
        have := hlt hmode (by simpa using hcomment)
        omega
      intro front hfront
      cases front with
      | nil => exact hmode
      | cons first front =>
          obtain ⟨rfl, htail⟩ := List.cons_prefix_cons.mp hfront
          exact ih hstep (by omega) front htail

theorem follows_afterCode (c : Char) :
    Follows ((Lexis.mk escapes true).afterCode c)
      ((Lexis.mk escapes false).afterCode c) := by
  by_cases hquote : c = '\''
  · subst hquote
    rfl
  · have hplain : (Lexis.mk escapes false).afterCode c = .code := by
      simp [afterCode, hquote]
    rw [hplain]
    simp only [afterCode, hquote, ↓reduceIte]
    split_ifs
    · exact Or.inl rfl
    · exact Or.inl rfl
    · rfl

/-- Where no comment begins, the reader that knows none keeps in step character by
character. -/
theorem follows_step_uncommented {mode other : Mode} (h : Follows mode other)
    (hmode : mode.inComment = false) (c : Char)
    (hstep : ((Lexis.mk escapes true).step mode c).inComment = false) :
    Follows ((Lexis.mk escapes true).step mode c)
      ((Lexis.mk escapes false).step other c) := by
  have hother : ∀ {other : Mode}, Outside other →
      (Lexis.mk escapes false).step other c =
        (Lexis.mk escapes false).afterCode c := by
    rintro other (rfl | rfl) <;> rfl
  cases mode with
  | code =>
      rw [hother (Or.inl h)]
      exact follows_afterCode escapes c
  | closed =>
      rw [hother (Or.inr h)]
      exact follows_afterCode escapes c
  | dash =>
      by_cases hc : c = '-'
      · simp [step, hc, Mode.inComment] at hstep
      · rw [hother h, step, if_neg hc]
        exact follows_afterCode escapes c
  | slash =>
      by_cases hc : c = '*'
      · simp [step, hc, Mode.inComment] at hstep
      · rw [hother h, step, if_neg hc]
        exact follows_afterCode escapes c
  | literal =>
      obtain rfl : other = .literal := h
      simp only [step]
      split_ifs <;> rfl
  | escaped =>
      obtain rfl : other = .escaped := h
      rfl
  | line | block | star => simp [Mode.inComment] at hmode

theorem Follows.inCode {mode other : Mode} (h : Follows mode other)
    (hmode : mode.inComment = false) : other.inCode = mode.inCode := by
  cases mode with
  | line | block | star => simp [Mode.inComment] at hmode
  | _ => rcases h with rfl | rfl <;> rfl

theorem follows_run_uncommented {mode other : Mode} (h : Follows mode other)
    {text : Text} (htext : (Lexis.mk escapes true).Uncommented mode text) :
    Follows ((Lexis.mk escapes true).run mode text)
      ((Lexis.mk escapes false).run other text) := by
  induction text generalizing mode other with
  | nil => exact h
  | cons c rest ih =>
      exact ih (follows_step_uncommented escapes h htext.start c htext.tail.start)
        htext.tail

end comments

section blanking

variable {lexis : Lexis}

/-- Blanking is a character behind right after a quote that may close a literal,
and one ahead right after a backslash that takes the next character. -/
def behind : Mode → Nat
  | .closed => 1
  | _ => 0

def ahead : Mode → Nat
  | .escaped => 1
  | _ => 0

theorem length_blanked (lexis : Lexis) (mode : Mode) (c : Char) :
    (lexis.blanked ⟨mode, c⟩).length + behind (lexis.step mode c) + ahead mode =
      1 + ahead (lexis.step mode c) + behind mode := by
  have hafter : behind (lexis.afterCode c) = 0 ∧ ahead (lexis.afterCode c) = 0 := by
    simp only [afterCode]
    split_ifs <;> exact ⟨rfl, rfl⟩
  obtain ⟨hbehind, hahead⟩ := hafter
  cases mode with
  | closed =>
      change (lexis.blanked ⟨.closed, c⟩).length + behind (lexis.afterCode c) + 0 =
        1 + ahead (lexis.afterCode c) + 1
      rw [hbehind, hahead, blanked]
      split_ifs <;> rfl
  | code =>
      change 1 + behind (lexis.afterCode c) + 0 = 1 + ahead (lexis.afterCode c) + 0
      rw [hbehind, hahead]
  | escaped => rfl
  | dash | slash =>
      simp only [step]
      split_ifs
      · rfl
      · change 1 + behind (lexis.afterCode c) + 0 =
          1 + ahead (lexis.afterCode c) + 0
        rw [hbehind, hahead]
  | literal | line | block | star =>
      simp only [blanked, step]
      split_ifs <;> rfl

theorem length_blanked_run (lexis : Lexis) (mode : Mode) (text : Text) :
    ((lexis.trace mode text).flatMap lexis.blanked).length +
        behind (lexis.run mode text) + ahead mode =
      text.length + ahead (lexis.run mode text) + behind mode := by
  induction text generalizing mode with
  | nil => simp; omega
  | cons c rest ih =>
      have hrest := ih (lexis.step mode c)
      have hfirst := length_blanked lexis mode c
      rw [trace_cons, run_cons, List.flatMap_cons, List.length_append,
        List.length_cons]
      omega

/-- Behind a backslash that takes the next character stands the backslash, in a
literal. -/
theorem exists_of_run_eq_escaped {text : Text}
    (h : lexis.run .code text = .escaped) :
    ∃ front, text = front ++ ['\\'] ∧ lexis.run .code front = .literal ∧
      lexis.escapes = true := by
  rcases List.eq_nil_or_concat text with rfl | ⟨front, c, rfl⟩
  · simp at h
  · rw [List.concat_eq_append, run_append, run_cons, run_nil] at h
    have hafter : lexis.afterCode c ≠ .escaped := by
      simp only [afterCode]
      split_ifs <;> simp
    refine ⟨front, ?_⟩
    rw [List.concat_eq_append]
    cases hmode : lexis.run .code front with
    | literal =>
        rw [hmode, step] at h
        split_ifs at h with hquote hescape
        simp only [Bool.and_eq_true, beq_iff_eq] at hescape
        rw [hescape.2]
        exact ⟨rfl, rfl, hescape.1⟩
    | code | closed =>
        rw [hmode] at h
        exact absurd h hafter
    | escaped =>
        rw [hmode] at h
        contradiction
    | dash | slash | line | block | star =>
        rw [hmode, step] at h
        split_ifs at h
        all_goals exact absurd h hafter

/-- A character other than the quote is blanked in its place when it stands in a
literal, and is left there otherwise. -/
theorem getElem?_blankLiterals (lexis : Lexis) (front back : Text) {c : Char}
    (hc : c ≠ '\'') :
    (lexis.blankLiterals (front ++ c :: back))[front.length]? =
      some (if (lexis.run .code front).inLiteral then ' ' else c) := by
  have hlength := length_blanked_run lexis .code front
  rw [blankLiterals, trace_append, trace_cons, List.flatMap_append,
    List.flatMap_cons, List.append_assoc, List.append_assoc]
  cases hmode : lexis.run .code front with
  | escaped =>
      obtain ⟨before, rfl, hbefore, hescapes⟩ := exists_of_run_eq_escaped hmode
      have hstart := length_blanked_run lexis .code before
      have hpair : lexis.blanked ⟨.literal, '\\'⟩ = [' ', ' '] := by
        simp [blanked, hescapes]
      rw [trace_append, List.flatMap_append, hbefore, trace_cons, trace_nil,
        List.flatMap_singleton, hpair, List.append_assoc]
      simp only [hbefore, behind, ahead, Nat.add_zero] at hstart
      rw [List.length_append, ← hstart]
      simp [Mode.inLiteral]
  | closed =>
      simp only [hmode, behind, ahead, Nat.add_zero] at hlength
      have hpair : lexis.blanked ⟨.closed, c⟩ = ['\'', c] := by
        simp [blanked, hc]
      rw [hpair, ← hlength]
      simp [Mode.inLiteral]
  | literal =>
      simp only [hmode, behind, ahead, Nat.add_zero] at hlength
      have hblank : ∃ others, lexis.blanked ⟨.literal, c⟩ = ' ' :: others := by
        simp only [blanked, hc, ↓reduceIte]
        split_ifs <;> exact ⟨_, rfl⟩
      obtain ⟨others, hothers⟩ := hblank
      rw [hothers, ← hlength]
      simp [Mode.inLiteral]
  | _ =>
      simp only [hmode, behind, ahead, Nat.add_zero] at hlength
      rw [← hlength]
      simp [blanked, Mode.inLiteral]

end blanking

/-- A bracket's character counts as that bracket when it is read in code. -/
theorem mem_brackets_iff (lexis : Lexis) (front back : Text) (side : Side) :
    ⟨byteLength front, side⟩ ∈ lexis.brackets (front ++ side.char :: back) ↔
      (lexis.run .code front).inCode = true := by
  constructor
  · intro hmem
    obtain ⟨left, right, hsplit⟩ := List.append_of_mem hmem
    obtain ⟨front', back', htext, hlength, hmode, _⟩ := exists_of_ofGlyphs_eq hsplit
    rw [Nat.zero_add] at hlength
    obtain rfl := eq_of_byteLength htext hlength
    exact hmode
  · intro hmode
    rw [brackets, trace_append, Bracket.ofGlyphs_append, map_char_trace,
      Nat.zero_add, trace_cons, Bracket.ofGlyphs_cons]
    apply List.mem_append_right
    apply List.mem_append_left
    cases side <;> simp [Bracket.ofGlyphs, Glyph.isCode, hmode, Side.char]

end Lexis

section uncommented

variable {dialect : Dialect} {front back : Text} {c : Char}

/-- A text that stays as it is without its comments is read alike with comments
and without. -/
theorem Dialect.follows_of_withoutComments
    (h : dialect.lexis.withoutComments (front ++ back) = front ++ back) :
    (dialect.lexis.run .code front).inComment = false ∧
      Lexis.Follows (dialect.lexis.run .code front)
        (dialect.literalLexis.run .code front) := by
  have huncommented : dialect.lexis.Uncommented .code (front ++ back) :=
    Lexis.uncommented_of_length dialect.backslashEscapes rfl
      (congrArg List.length h)
  have hfront : dialect.lexis.Uncommented .code front := fun start hstart =>
    huncommented start (hstart.trans (List.prefix_append front back))
  have hstart : Lexis.Follows .code .code := rfl
  exact ⟨hfront front (List.prefix_refl front),
    Lexis.follows_run_uncommented dialect.backslashEscapes hstart hfront⟩

/-- Blanking goes by the literals that are read where brackets are paired. -/
theorem Dialect.blankLiterals_of_withoutComments
    (h : dialect.lexis.withoutComments (front ++ c :: back) = front ++ c :: back)
    (hc : c ≠ '\'') :
    (dialect.literalLexis.blankLiterals (front ++ c :: back))[front.length]? =
      some (if (dialect.lexis.run .code front).inLiteral then ' ' else c) := by
  rw [← (follows_of_withoutComments h).2.inLiteral]
  exact Lexis.getElem?_blankLiterals dialect.literalLexis front back hc

end uncommented

end DdlDiagram
