/-
Passages: text as a printed definition has it, pieces without marks between
brackets, commas and literals.  Reading a passage keeps it whole: no character of
it is part of a comment, it is cut at no comma inside its brackets, its brackets
pair among themselves, and no table header in it is one of code.
-/
import DdlDiagram.Proofs.HeaderSearch
import DdlDiagram.Proofs.Quiet

namespace DdlDiagram

open Text

/-- Text that leads from one number of open brackets to another.  No bracket in it
has three words in front, so none opens a table.  Unless `commas` is set, its
commas stand inside brackets. -/
inductive Passage (escapes commas : Bool) : Nat → Text → Nat → Prop where
  | plain {depth : Nat} {front : Text} (hfront : Unmarked front) :
      Passage escapes commas depth front depth
  | opening {depth last : Nat} {front rest : Text} (hfront : Unmarked front)
      (hwords : (words front).length ≤ 2)
      (hrest : Passage escapes commas (depth + 1) rest last) :
      Passage escapes commas depth (front ++ '(' :: rest) last
  | closing {depth last : Nat} {front rest : Text} (hfront : Unmarked front)
      (hrest : Passage escapes commas depth rest last) :
      Passage escapes commas (depth + 1) (front ++ ')' :: rest) last
  | comma {depth last : Nat} {front rest : Text} (hfront : Unmarked front)
      (hinside : commas = true ∨ 0 < depth)
      (hrest : Passage escapes commas depth rest last) :
      Passage escapes commas depth (front ++ ',' :: rest) last
  | literal {depth last : Nat} {front rest : Text} (hfront : Unmarked front)
      (content : Text) (hrest : Passage escapes commas depth rest last) :
      Passage escapes commas depth
        (front ++ ' ' :: (literalOf escapes content ++ rest)) last

namespace Passage

variable {escapes commas : Bool} {depth last : Nat} {text : Text}

/-- Where commas are allowed inside brackets only, they are allowed. -/
theorem withCommas (h : Passage escapes false depth text last) :
    Passage escapes true depth text last := by
  induction h with
  | plain hfront => exact .plain hfront
  | opening hfront hwords _ ih => exact .opening hfront hwords ih
  | closing hfront _ ih => exact .closing hfront ih
  | comma hfront _ _ ih => exact .comma hfront (Or.inl rfl) ih
  | literal hfront content _ ih => exact .literal hfront content ih

/-- Blanks in front of a passage belong to it. -/
theorem lead {blanks : Text} (hblanks : ∀ c ∈ blanks, isBlank c = true)
    (h : Passage escapes commas depth text last) :
    Passage escapes commas depth (blanks ++ text) last := by
  have hunmarked := unmarked_of_blanks hblanks
  cases h with
  | plain hfront => exact .plain (hunmarked.append hfront)
  | opening hfront hwords hrest =>
      rw [← List.append_assoc]
      apply Passage.opening (hunmarked.append hfront) _ hrest
      rw [words_append_of_blanks hblanks]
      exact hwords
  | closing hfront hrest =>
      rw [← List.append_assoc]
      exact .closing (hunmarked.append hfront) hrest
  | comma hfront hinside hrest =>
      rw [← List.append_assoc]
      exact .comma (hunmarked.append hfront) hinside hrest
  | literal hfront content hrest =>
      rw [← List.append_assoc]
      exact .literal (hunmarked.append hfront) content hrest

/-- Two passages with a comma between them. -/
theorem append_comma {behind : Text} {final : Nat}
    (h : Passage escapes true depth text last)
    (hbehind : Passage escapes true last behind final) :
    Passage escapes true depth (text ++ ',' :: behind) final := by
  induction h with
  | plain hfront => exact .comma hfront (Or.inl rfl) hbehind
  | opening hfront hwords _ ih =>
      rw [List.append_assoc, List.cons_append]
      exact .opening hfront hwords (ih hbehind)
  | closing hfront _ ih =>
      rw [List.append_assoc, List.cons_append]
      exact .closing hfront (ih hbehind)
  | comma hfront hinside _ ih =>
      rw [List.append_assoc, List.cons_append]
      exact .comma hfront hinside (ih hbehind)
  | literal hfront content _ ih =>
      rw [List.append_assoc, List.cons_append, List.append_assoc]
      exact .literal hfront content (ih hbehind)

end Passage

namespace Lexis

open DdlDiagram.Bracket

/-- A text that is read in code from end to end with nothing dropped from it, and
that leads from one number of open brackets to another without closing one that
was open before.  Unless `commas` is set, it is cut nowhere. -/
structure Reads (lexis : Lexis) (commas : Bool) (depth : Nat) (text : Text)
    (last : Nat) : Prop where
  outside : ∀ mode, Outside mode → Outside (lexis.run mode text)
  kept : ∀ mode, Outside mode → (lexis.trace mode text).flatMap kept = text
  closer : ∀ mode, Outside mode → ∀ offset rest,
    closer depth (ofGlyphs offset (lexis.trace mode text ++ rest)) =
      closer last (ofGlyphs (offset + byteLength text) rest)
  parts : commas = false → ∀ mode, Outside mode → ∀ rest,
    cutParts depth (lexis.trace mode text ++ rest) =
      (text ++ (cutParts last rest).1, (cutParts last rest).2)

variable {lexis : Lexis} {commas : Bool} {depth middle last : Nat}
  {text left right : Text}

theorem Quiet.reads (h : lexis.Quiet text) :
    lexis.Reads commas depth text depth where
  outside := h.outside
  kept := h.kept
  closer := by
    intro mode hmode offset rest
    rw [ofGlyphs_append_of_mute (h.mute mode hmode), map_char_trace]
  parts := by
    intro _ mode hmode rest
    rw [cutParts_append_of_mute (h.mute mode hmode), map_char_trace]

theorem Reads.append (hleft : lexis.Reads commas depth left middle)
    (hright : lexis.Reads commas middle right last) :
    lexis.Reads commas depth (left ++ right) last where
  outside := by
    intro mode hmode
    rw [run_append]
    exact hright.outside _ (hleft.outside mode hmode)
  kept := by
    intro mode hmode
    rw [trace_append, List.flatMap_append, hleft.kept mode hmode,
      hright.kept _ (hleft.outside mode hmode)]
  closer := by
    intro mode hmode offset rest
    rw [trace_append, List.append_assoc, hleft.closer mode hmode,
      hright.closer _ (hleft.outside mode hmode), byteLength_append,
      Nat.add_assoc]
  parts := by
    intro hcommas mode hmode rest
    rw [trace_append, List.append_assoc, hleft.parts hcommas mode hmode,
      hright.parts hcommas _ (hleft.outside mode hmode), List.append_assoc]

theorem reads_opening (lexis : Lexis) (commas : Bool) (depth : Nat) :
    lexis.Reads commas depth ['('] (depth + 1) where
  outside := by
    intro mode hmode
    rw [run_cons, step_eq_code hmode.inCode (Or.inl rfl)]
    exact Or.inl rfl
  kept := by
    intro mode hmode
    rw [trace_cons, trace_nil, List.flatMap_singleton,
      kept_outside hmode (by decide) (by decide)]
  closer := by
    intro mode hmode offset rest
    simp only [trace_cons, trace_nil, List.singleton_append, ofGlyphs,
      Glyph.isCode, hmode.inCode, Bool.true_and, beq_self_eq_true, ↓reduceIte]
    rfl
  parts := by
    intro _ mode hmode rest
    simp [cutParts, depthAfter, isSeparator, Glyph.isCode, hmode.inCode]

theorem reads_closing (lexis : Lexis) (commas : Bool) (depth : Nat) :
    lexis.Reads commas (depth + 1) [')'] depth where
  outside := by
    intro mode hmode
    rw [run_cons, step_eq_code hmode.inCode (Or.inr (Or.inl rfl))]
    exact Or.inl rfl
  kept := by
    intro mode hmode
    rw [trace_cons, trace_nil, List.flatMap_singleton,
      kept_outside hmode (by decide) (by decide)]
  closer := by
    intro mode hmode offset rest
    simp [ofGlyphs, Glyph.isCode, hmode.inCode, Bracket.closer]
  parts := by
    intro _ mode hmode rest
    simp [cutParts, depthAfter, isSeparator, Glyph.isCode, hmode.inCode]

theorem reads_comma (lexis : Lexis) (hinside : commas = true ∨ 0 < depth) :
    lexis.Reads commas depth [','] depth where
  outside := by
    intro mode hmode
    rw [run_cons, step_eq_code hmode.inCode (Or.inr (Or.inr rfl))]
    exact Or.inl rfl
  kept := by
    intro mode hmode
    rw [trace_cons, trace_nil, List.flatMap_singleton,
      kept_outside hmode (by decide) (by decide)]
  closer := by
    intro mode hmode offset rest
    simp [ofGlyphs, Glyph.isCode]
  parts := by
    intro hcommas mode hmode rest
    have hne : depth ≠ 0 := by
      rcases hinside with htrue | hpos
      · rw [hcommas] at htrue
        contradiction
      · exact Nat.ne_of_gt hpos
    simp [cutParts, depthAfter, isSeparator, Glyph.isCode, hne]

/-- Passages are read so. -/
theorem reads_passage (h : Passage lexis.escapes commas depth text last) :
    lexis.Reads commas depth text last := by
  induction h with
  | plain hfront => exact (quiet_unmarked hfront).reads
  | opening hfront _ _ ih =>
      exact (quiet_unmarked hfront).reads.append
        ((reads_opening lexis commas _).append ih)
  | closing hfront _ ih =>
      exact (quiet_unmarked hfront).reads.append
        ((reads_closing lexis commas _).append ih)
  | comma hfront hinside _ ih =>
      exact (quiet_unmarked hfront).reads.append
        ((reads_comma lexis hinside).append ih)
  | literal hfront content _ ih =>
      exact (quiet_unmarked hfront).reads.append
        ((quiet_literal lexis content).reads.append ih)

/-- A text that is read in code has no comments to lose. -/
theorem withoutComments_of_reads {commas : Bool} {depth last : Nat}
    {text : Text} (h : lexis.Reads commas depth text last) :
    lexis.withoutComments text = text := by
  have hend : keptAtEnd (lexis.run .code text) = [] := by
    rcases h.outside .code (Or.inl rfl) with hmode | hmode
    · rw [hmode]
      rfl
    · rw [hmode]
      rfl
  rw [withoutComments, h.kept .code (Or.inl rfl), hend, List.append_nil]

end Lexis

end DdlDiagram
