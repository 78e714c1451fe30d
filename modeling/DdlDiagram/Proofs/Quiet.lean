/-
Quiet text: names, words and whole literals.  Reading it leaves every character
in place, and none of it counts as a bracket or as a comma between parts, whatever
the literals hold.
-/
import DdlDiagram.Proofs.Balance
import DdlDiagram.Proofs.Naming

namespace DdlDiagram

open Text

/-- What may stand between the quotes of a literal: every quote in it is doubled, and
where a backslash escapes, it takes a character with it. -/
def isContents (escapes : Bool) : Text → Bool
  | [] => true
  | [c] => c != '\'' && !(escapes && c == '\\')
  | c :: next :: rest =>
      if c = '\'' then next == '\'' && isContents escapes rest
      else if escapes && c == '\\' then isContents escapes rest
      else isContents escapes (next :: rest)

/-- Neither a bracket nor a comma of code. -/
def Glyph.IsMute (glyph : Glyph) : Prop :=
  glyph.mode.inCode = true → glyph.char ∉ ['(', ')', ',']

theorem Glyph.IsMute.isCode {glyph : Glyph} (h : glyph.IsMute) {c : Char}
    (hc : c ∈ ['(', ')', ',']) : glyph.isCode c = false := by
  by_contra hcode
  rw [Bool.not_eq_false] at hcode
  simp only [Glyph.isCode, Bool.and_eq_true, beq_iff_eq] at hcode
  apply h hcode.1
  rw [hcode.2]
  exact hc

theorem Glyph.isMute_of_not_mem {mode : Mode} {c : Char}
    (hc : c ∉ ['(', ')', ',']) : (Glyph.mk mode c).IsMute :=
  fun _ => hc

theorem Glyph.isMute_of_inLiteral {mode : Mode} {c : Char}
    (h : mode.inLiteral = true) : (Glyph.mk mode c).IsMute := by
  intro hcode
  rw [Lexis.inLiteral_of_inCode hcode] at h
  contradiction

namespace Lexis

variable {lexis : Lexis} {mode : Mode} {text left right : Text}

theorem Outside.inCode (h : Outside mode) : mode.inCode = true := by
  rcases h with rfl | rfl <;> rfl

/-- A text that reads as code and whole literals, with nothing in it that counts
as a bracket or a comma. -/
structure Quiet (lexis : Lexis) (text : Text) : Prop where
  outside : ∀ mode, Outside mode → Outside (lexis.run mode text)
  mute : ∀ mode, Outside mode →
    ∀ glyph ∈ lexis.trace mode text, glyph.IsMute
  kept : ∀ mode, Outside mode → (lexis.trace mode text).flatMap kept = text

theorem quiet_nil (lexis : Lexis) : lexis.Quiet [] where
  outside := fun _ hmode => hmode
  mute := by simp
  kept := fun _ _ => rfl

theorem Quiet.append (hleft : lexis.Quiet left) (hright : lexis.Quiet right) :
    lexis.Quiet (left ++ right) where
  outside := by
    intro mode hmode
    rw [run_append]
    exact hright.outside _ (hleft.outside mode hmode)
  mute := by
    intro mode hmode glyph hglyph
    rw [trace_append] at hglyph
    rcases List.mem_append.mp hglyph with hglyph | hglyph
    · exact hleft.mute mode hmode glyph hglyph
    · exact hright.mute _ (hleft.outside mode hmode) glyph hglyph
  kept := by
    intro mode hmode
    rw [trace_append, List.flatMap_append, hleft.kept mode hmode,
      hright.kept _ (hleft.outside mode hmode)]

theorem step_unmarked {c : Char} (hmode : Outside mode) (hc : c ∉ marks) :
    lexis.step mode c = .code := by
  simp only [marks, List.mem_cons, List.not_mem_nil, or_false, not_or] at hc
  rcases hmode with rfl | rfl <;> simp [step, afterCode, hc]

/-- Without comments the only character of code that changes how text is read is
the quote. -/
theorem step_literalLexis {dialect : Dialect} {c : Char} (hmode : Outside mode)
    (hc : c ≠ '\'') : dialect.literalLexis.step mode c = .code := by
  rcases hmode with rfl | rfl <;>
    simp [step, afterCode, Dialect.literalLexis, hc]

/-- What is read without comments is a literal or code outside of one. -/
theorem step_literalLexis_cases (dialect : Dialect)
    (hmode : Outside mode ∨ mode.inLiteral = true) (c : Char) :
    Outside (dialect.literalLexis.step mode c) ∨
      (dialect.literalLexis.step mode c).inLiteral = true := by
  rcases hmode with hmode | hmode
  · by_cases hc : c = '\''
    · subst hc
      rcases hmode with rfl | rfl <;> exact Or.inr rfl
    · rw [step_literalLexis hmode hc]
      exact Or.inl (Or.inl rfl)
  · cases mode with
    | literal =>
        by_cases hc : c = '\''
        · subst hc
          exact Or.inl (Or.inr rfl)
        · right
          rw [step, if_neg hc]
          split <;> rfl
    | escaped => exact Or.inr rfl
    | _ => contradiction

theorem run_literalLexis_cases (dialect : Dialect)
    (hmode : Outside mode ∨ mode.inLiteral = true) (text : Text) :
    Outside (dialect.literalLexis.run mode text) ∨
      (dialect.literalLexis.run mode text).inLiteral = true := by
  induction text generalizing mode with
  | nil => exact hmode
  | cons c rest ih => exact ih (step_literalLexis_cases dialect hmode c)

theorem kept_outside {c : Char} (hmode : Outside mode) (hdash : c ≠ '-')
    (hslash : c ≠ '/') : kept ⟨mode, c⟩ = [c] := by
  rcases hmode with rfl | rfl <;> simp [kept, released, hdash, hslash]

theorem quiet_singleton {c : Char} (hc : c ∉ marks) : lexis.Quiet [c] where
  outside := by
    intro mode hmode
    rw [run_cons, step_unmarked hmode hc]
    exact Or.inl rfl
  mute := by
    intro mode _ glyph hglyph
    rw [List.mem_singleton.mp hglyph]
    apply Glyph.isMute_of_not_mem
    intro hmem
    apply hc
    revert hmem
    simp only [marks, List.mem_cons]
    tauto
  kept := by
    intro mode hmode
    rw [trace_cons, trace_nil, List.flatMap_singleton]
    apply kept_outside hmode
    · rintro rfl
      exact hc (by decide)
    · rintro rfl
      exact hc (by decide)

/-- Text without marks is code throughout. -/
theorem quiet_unmarked (h : Unmarked text) : lexis.Quiet text := by
  induction text with
  | nil => exact quiet_nil lexis
  | cons c rest ih =>
      have hc : lexis.Quiet [c] := quiet_singleton (h c List.mem_cons_self)
      apply hc.append
      apply ih
      intro other hother
      exact h other (List.mem_cons_of_mem c hother)

/-- The contents of a literal are read without leaving it but between two quotes. -/
structure Enclosed (lexis : Lexis) (text : Text) : Prop where
  run : lexis.run .literal text = .literal
  solid : ∀ glyph ∈ lexis.trace .literal text,
    glyph.mode.inLiteral = true ∨ glyph.char = '\''
  kept : (lexis.trace .literal text).flatMap kept = text

theorem Enclosed.append (hleft : lexis.Enclosed left)
    (hright : lexis.Enclosed right) : lexis.Enclosed (left ++ right) where
  run := by rw [run_append, hleft.run, hright.run]
  solid := by
    intro glyph hglyph
    rw [trace_append, hleft.run] at hglyph
    rcases List.mem_append.mp hglyph with hglyph | hglyph
    · exact hleft.solid glyph hglyph
    · exact hright.solid glyph hglyph
  kept := by
    rw [trace_append, hleft.run, List.flatMap_append, hleft.kept, hright.kept]

/-- A character of a literal's contents is doubled or stands for itself. -/
theorem escapedChar_cases (escapes : Bool) (c : Char) :
    (c = '\'' ∧ escapedChar escapes c = [c, c]) ∨
      (escapes = true ∧ c = '\\' ∧ escapedChar escapes c = [c, c]) ∨
      (c ≠ '\'' ∧ (escapes && c == '\\') = false ∧
        escapedChar escapes c = [c]) := by
  by_cases hquote : c = '\''
  · exact Or.inl ⟨hquote, by simp [escapedChar, hquote]⟩
  · by_cases hbackslash : escapes = true ∧ c = '\\'
    · exact Or.inr (Or.inl ⟨hbackslash.1, hbackslash.2, by
        simp [escapedChar, hbackslash]⟩)
    · refine Or.inr (Or.inr ⟨hquote, by simpa using hbackslash, ?_⟩)
      simp only [escapedChar, hquote, hbackslash, or_self, ↓reduceIte]

theorem enclosed_quotes (lexis : Lexis) : lexis.Enclosed ['\'', '\''] := by
  refine ⟨rfl, ?_, rfl⟩
  intro glyph hglyph
  rcases List.mem_pair.mp hglyph with rfl | rfl
  · exact Or.inl rfl
  · exact Or.inr rfl

/-- A backslash that escapes takes any character with it. -/
theorem enclosed_escape (hescapes : lexis.escapes = true) (c : Char) :
    lexis.Enclosed ['\\', c] := by
  have hstep : lexis.step .literal '\\' = .escaped := by
    simp [step, hescapes]
  refine ⟨?_, ?_, ?_⟩
  · rw [run_cons, hstep]
    rfl
  · intro glyph hglyph
    rw [trace_cons, hstep] at hglyph
    rcases List.mem_pair.mp hglyph with rfl | rfl
    · exact Or.inl rfl
    · exact Or.inl rfl
  · rw [trace_cons, hstep]
    rfl

theorem enclosed_singleton {c : Char} (hquote : c ≠ '\'')
    (hbackslash : (lexis.escapes && c == '\\') = false) : lexis.Enclosed [c] := by
  have hstep : lexis.step .literal c = .literal := by
    simp [step, hquote, hbackslash]
  refine ⟨?_, ?_, rfl⟩
  · rw [run_cons, hstep, run_nil]
  · intro glyph hglyph
    rw [List.mem_singleton.mp hglyph]
    exact Or.inl rfl

/-- Contents are read without leaving the literal but between two quotes. -/
theorem enclosed_of_isContents (lexis : Lexis) {text : Text}
    (h : isContents lexis.escapes text = true) : lexis.Enclosed text := by
  fun_induction isContents lexis.escapes text with
  | case1 => exact ⟨rfl, by simp, rfl⟩
  | case2 c =>
      simp only [Bool.and_eq_true, bne_iff_ne, Bool.not_eq_true'] at h
      exact enclosed_singleton h.1 h.2
  | case3 next rest ih =>
      simp only [Bool.and_eq_true, beq_iff_eq] at h
      obtain ⟨rfl, hrest⟩ := h
      exact (enclosed_quotes lexis).append (ih hrest)
  | case4 c next rest hquote hescape ih =>
      obtain ⟨hescapes, rfl⟩ : lexis.escapes = true ∧ c = '\\' := by
        simpa using hescape
      exact (enclosed_escape hescapes next).append (ih h)
  | case5 c next rest hquote hescape ih =>
      exact (enclosed_singleton hquote (by simpa using hescape)).append (ih h)

/-- Characters that are doubled where they must be are contents. -/
theorem isContents_escaped (escapes : Bool) (content : Text) :
    isContents escapes (escaped escapes content) = true := by
  induction content with
  | nil => rfl
  | cons c rest ih =>
      have hescaped : escaped escapes (c :: rest) =
          escapedChar escapes c ++ escaped escapes rest := rfl
      rw [hescaped]
      rcases escapedChar_cases escapes c with
        ⟨rfl, hpiece⟩ | ⟨rfl, rfl, hpiece⟩ | ⟨hquote, hbackslash, hpiece⟩
      · rw [hpiece]
        simpa [isContents] using ih
      · rw [hpiece]
        simpa [isContents] using ih
      · rw [hpiece, List.singleton_append]
        cases hrest : escaped escapes rest with
        | nil => simp [isContents, hquote, hbackslash]
        | cons next more =>
            rw [hrest] at ih
            simp [isContents, hquote, hbackslash, ih]

theorem enclosed_escaped (lexis : Lexis) (content : Text) :
    lexis.Enclosed (escaped lexis.escapes content) :=
  lexis.enclosed_of_isContents (isContents_escaped lexis.escapes content)

theorem run_literal (lexis : Lexis) (content : Text) (hmode : Outside mode) :
    lexis.run mode (' ' :: literalOf lexis.escapes content) = .closed := by
  rw [literalOf, run_cons, step_unmarked hmode (by decide), run_cons]
  change lexis.run .literal _ = .closed
  rw [run_append, (enclosed_escaped lexis content).run]
  rfl

theorem trace_literal (lexis : Lexis) (content : Text) (hmode : Outside mode) :
    lexis.trace mode (' ' :: literalOf lexis.escapes content) =
      ⟨mode, ' '⟩ :: ⟨.code, '\''⟩ ::
        (lexis.trace .literal (escaped lexis.escapes content) ++
          [⟨.literal, '\''⟩]) := by
  rw [literalOf, trace_cons, step_unmarked hmode (by decide), trace_cons]
  change _ :: _ :: lexis.trace .literal _ = _
  rw [trace_append, (enclosed_escaped lexis content).run, trace_cons, trace_nil]

/-- Around the contents of a literal stand a blank and quotes. -/
theorem solid_literal (content : Text) (hmode : Outside mode) {glyph : Glyph}
    (hglyph : glyph ∈ lexis.trace mode (' ' :: literalOf lexis.escapes content)) :
    glyph.mode.inLiteral = true ∨ glyph.char = ' ' ∨ glyph.char = '\'' := by
  rw [trace_literal lexis content hmode] at hglyph
  rcases List.mem_cons.mp hglyph with rfl | hglyph
  · exact Or.inr (Or.inl rfl)
  · rcases List.mem_cons.mp hglyph with rfl | hglyph
    · exact Or.inr (Or.inr rfl)
    · rcases List.mem_append.mp hglyph with hglyph | hglyph
      · rcases (enclosed_escaped lexis content).solid glyph hglyph with
          hliteral | hquote
        · exact Or.inl hliteral
        · exact Or.inr (Or.inr hquote)
      · rw [List.mem_singleton.mp hglyph]
        exact Or.inl rfl

/-- A literal with a blank in front is read as one literal, whatever mode of code
stands in front of it. -/
theorem quiet_literal (lexis : Lexis) (content : Text) :
    lexis.Quiet (' ' :: literalOf lexis.escapes content) where
  outside := by
    intro mode hmode
    exact Or.inr (run_literal lexis content hmode)
  mute := by
    intro mode hmode glyph hglyph
    rcases solid_literal content hmode hglyph with hliteral | hblank | hquote
    · exact Glyph.isMute_of_inLiteral hliteral
    · intro _
      rw [hblank]
      decide
    · intro _
      rw [hquote]
      decide
  kept := by
    intro mode hmode
    rw [trace_literal lexis content hmode, List.flatMap_cons, List.flatMap_cons,
      List.flatMap_append, (enclosed_escaped lexis content).kept,
      kept_outside hmode (by decide) (by decide)]
    rfl

section mute

variable {glyphs : List Glyph} (hmute : ∀ glyph ∈ glyphs, glyph.IsMute)
include hmute

/-- Mute glyphs are cut nowhere and leave the depth. -/
theorem cutParts_append_of_mute (depth : Int) (rest : List Glyph) :
    cutParts depth (glyphs ++ rest) =
      (glyphs.map Glyph.char ++ (cutParts depth rest).1,
        (cutParts depth rest).2) := by
  induction glyphs with
  | nil => rfl
  | cons glyph tail ih =>
      have hglyph := hmute glyph List.mem_cons_self
      have hdepth : depthAfter depth glyph = depth := by
        simp [depthAfter, hglyph.isCode]
      have hseparator : isSeparator depth glyph = false := by
        simp [isSeparator, hglyph.isCode]
      have htail := ih fun other hother =>
        hmute other (List.mem_cons_of_mem glyph hother)
      rw [List.cons_append, cutParts, hdepth, htail, hseparator]
      rfl

/-- Mute glyphs hold no bracket. -/
theorem ofGlyphs_append_of_mute (offset : Nat) (rest : List Glyph) :
    Bracket.ofGlyphs offset (glyphs ++ rest) =
      Bracket.ofGlyphs (offset + byteLength (glyphs.map Glyph.char)) rest := by
  induction glyphs generalizing offset with
  | nil => rfl
  | cons glyph tail ih =>
      have hglyph := hmute glyph List.mem_cons_self
      have htail := ih (fun other hother =>
        hmute other (List.mem_cons_of_mem glyph hother))
        (offset + glyph.char.utf8Size)
      rw [List.cons_append, Bracket.ofGlyphs, htail, List.map_cons,
        byteLength_cons, ← Nat.add_assoc]
      simp [hglyph.isCode]

end mute

end Lexis

end DdlDiagram
