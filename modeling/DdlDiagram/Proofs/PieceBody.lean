/-
Bodies that are made up of the same pieces.  Comments go, the parts are cut, and the
blanks around them are trimmed in all the texts alike, since a literal stays whole in
each of these steps; so the clauses of the bodies are again made up of the same pieces.
-/
import DdlDiagram.Proofs.ClausePlace
import DdlDiagram.Proofs.Piece
import Mathlib.Data.List.Induction

namespace DdlDiagram

open Text

namespace Lexis

/-- In front of a quote that opens a literal only a character that waits is added. -/
theorem exists_kept_quote (escapes : Bool) {mode other : Mode}
    (h : Follows mode other) (hmode : mode.opensLiteral = true) :
    ∃ waiting, kept ⟨mode, '\''⟩ = waiting ++ ['\''] ∧
      ((Lexis.mk escapes false).run other waiting).opensLiteral = true := by
  cases mode with
  | closed | literal | escaped | line | block | star => contradiction
  | code =>
      obtain rfl : other = .code := h
      exact ⟨[], rfl, rfl⟩
  | dash =>
      refine ⟨['-'], rfl, ?_⟩
      rcases h with rfl | rfl <;> rfl
  | slash =>
      refine ⟨['/'], rfl, ?_⟩
      rcases h with rfl | rfl <;> rfl

end Lexis

namespace Piece

variable {lexis : Lexis} {mode other : Mode} {pieces : List Piece}

/-- Of a literal everything is kept. -/
theorem flatMap_kept_literal {contents : Text} (hmode : mode.opensLiteral = true)
    (h : isContents lexis.escapes contents = true) :
    (lexis.trace mode ('\'' :: (contents ++ ['\'']))).flatMap Lexis.kept =
      Lexis.kept ⟨mode, '\''⟩ ++ (contents ++ ['\'']) := by
  have henclosed := lexis.enclosed_of_isContents h
  rw [Lexis.trace_cons, step_quote hmode, Lexis.trace_append, henclosed.run,
    List.flatMap_cons, List.flatMap_append, henclosed.kept]
  rfl

theorem exists_kept {escapes : Bool} (h : Sound ⟨escapes, true⟩ mode pieces)
    (hfollows : Lexis.Follows mode other) :
    ∃ left, Sound ⟨escapes, false⟩ other left ∧ ∀ version,
      ((Lexis.mk escapes true).trace mode (textOf version pieces)).flatMap Lexis.kept ++
          Lexis.keptAtEnd ((Lexis.mk escapes true).run mode (textOf version pieces)) =
        textOf version left := by
  -- The reader of what is left stays in step with the reader of the texts.
  induction pieces generalizing mode other with
  | nil => exact ⟨(Lexis.keptAtEnd mode).map plain, sound_plain _, by simp⟩
  | cons piece rest ih =>
      cases piece with
      | plain c =>
          obtain ⟨left, hleft, htext⟩ := ih h (Lexis.follows_step escapes hfollows c)
          refine ⟨(Lexis.kept ⟨mode, c⟩).map plain ++ left, ?_, fun version => ?_⟩
          · rw [sound_append, textOf_map_plain]
            exact ⟨sound_plain _, hleft⟩
          · rw [textOf_plain, Lexis.trace_cons, Lexis.run_cons, List.flatMap_cons,
              List.append_assoc, htext version, textOf_append, textOf_map_plain]
      | literal contents =>
          obtain ⟨hmode, hcontents, hrest⟩ := h
          have hclosed : Lexis.Follows .closed .closed := rfl
          obtain ⟨left, hleft, htext⟩ := ih hrest hclosed
          obtain ⟨waiting, hquote, hcode⟩ :=
            Lexis.exists_kept_quote escapes hfollows hmode
          refine ⟨waiting.map plain ++ literal contents :: left, ?_, fun version => ?_⟩
          · rw [sound_append, textOf_map_plain]
            exact ⟨sound_plain _, hcode, hcontents, hleft⟩
          · rw [textOf_cons, Lexis.trace_append, Lexis.run_append, text,
              run_literal hmode (hcontents version), List.flatMap_append,
              List.append_assoc, htext version,
              flatMap_kept_literal hmode (hcontents version), hquote, textOf_append,
              textOf_map_plain, textOf_literal]
            simp

/-- Without their comments the texts are made up of the same pieces. -/
theorem exists_withoutComments {dialect : Dialect}
    (h : Sound dialect.lexis .code pieces) :
    ∃ left, Sound dialect.literalLexis .code left ∧ ∀ version,
      dialect.lexis.withoutComments (textOf version pieces) = textOf version left :=
  exists_kept h (show Lexis.Follows .code .code from rfl)

/-- The texts are cut into parts between the same pieces. -/
theorem exists_cutParts (h : Sound lexis mode pieces) (depth : Int) :
    ∃ (first : List Piece) (others : List (List Piece)), Sound lexis mode first ∧
      (∀ part ∈ others, Sound lexis .code part) ∧ ∀ version,
        Lexis.cutParts depth (lexis.trace mode (textOf version pieces)) =
          (textOf version first, others.map (textOf version)) := by
  induction pieces generalizing mode depth with
  | nil => exact ⟨[], [], trivial, by simp, fun _ => rfl⟩
  | cons piece rest ih =>
      cases piece with
      | plain c =>
          obtain ⟨first, others, hfirst, hothers, hcut⟩ :=
            ih h (Lexis.depthAfter depth ⟨mode, c⟩)
          by_cases hseparator : Lexis.isSeparator depth ⟨mode, c⟩ = true
          · refine ⟨[], first :: others, trivial, ?_, fun version => ?_⟩
            · obtain ⟨hmode, rfl⟩ : mode.inCode = true ∧ c = ',' := by
                simp only [Lexis.isSeparator, Glyph.isCode, Bool.and_eq_true,
                  beq_iff_eq] at hseparator
                exact hseparator.1
              rw [Lexis.step_eq_code hmode (Or.inr (Or.inr rfl))] at hfirst
              exact List.forall_mem_cons.mpr ⟨hfirst, hothers⟩
            · rw [textOf_plain, Lexis.trace_cons, Lexis.cutParts, hcut version,
                if_pos hseparator]
              rfl
          · refine ⟨plain c :: first, others, hfirst, hothers, fun version => ?_⟩
            rw [textOf_plain, Lexis.trace_cons, Lexis.cutParts, hcut version,
              if_neg hseparator]
            rfl
      | literal contents =>
          obtain ⟨hmode, hcontents, hrest⟩ := h
          obtain ⟨first, others, hfirst, hothers, hcut⟩ := ih hrest depth
          refine ⟨literal contents :: first, others, ⟨hmode, hcontents, hfirst⟩,
            hothers, fun version => ?_⟩
          rw [textOf_cons, Lexis.trace_append, text,
            Lexis.cutParts_append_of_mute (mute_literal hmode (hcontents version)),
            run_literal hmode (hcontents version), hcut version, Lexis.map_char_trace]
          rfl

section clauses

variable {dialect : Dialect}

theorem exists_trimStart (h : Sound dialect.literalLexis .code pieces) :
    ∃ left, Sound dialect.literalLexis .code left ∧ ∀ version,
      trimStart (textOf version pieces) = textOf version left := by
  induction pieces with
  | nil => exact ⟨[], trivial, fun _ => rfl⟩
  | cons piece rest ih =>
      cases piece with
      | plain c =>
          by_cases hblank : isBlank c = true
          · have hquote : c ≠ '\'' := by
              rintro rfl
              contradiction
            rw [Sound, Lexis.step_literalLexis (Or.inl rfl) hquote] at h
            obtain ⟨left, hleft, htrim⟩ := ih h
            refine ⟨left, hleft, fun version => ?_⟩
            rw [← htrim version, textOf_plain, trimStart,
              List.dropWhile_cons_of_pos hblank]
            rfl
          · exact ⟨plain c :: rest, h, fun _ =>
              trimStart_of_solid (eq_false_of_ne_true hblank)⟩
      | literal contents =>
          refine ⟨literal contents :: rest, h, fun version => ?_⟩
          rw [textOf_literal]
          exact trimStart_of_solid (by decide)

theorem exists_trimEnd (h : Sound lexis mode pieces) :
    ∃ left, Sound lexis mode left ∧ ∀ version,
      trimEnd (textOf version pieces) = textOf version left := by
  induction pieces using List.reverseRecOn with
  | nil => exact ⟨[], trivial, fun _ => rfl⟩
  | append_singleton rest piece ih =>
      have hlast : (∃ c, isBlank c = true ∧ ∀ version, piece.text version = [c]) ∨
          ∀ version, ∃ front c, isBlank c = false ∧
            piece.text version = front ++ [c] := by
        cases piece with
        | plain c =>
            by_cases hblank : isBlank c = true
            · exact Or.inl ⟨c, hblank, fun _ => rfl⟩
            · exact Or.inr fun _ => ⟨[], c, eq_false_of_ne_true hblank, rfl⟩
        | literal contents =>
            exact Or.inr fun version => ⟨'\'' :: contents version, '\'', by decide, rfl⟩
      rcases hlast with ⟨c, hblank, hc⟩ | hsolid
      · obtain ⟨left, hleft, htrim⟩ := ih (sound_append.mp h).1
        refine ⟨left, hleft, fun version => ?_⟩
        rw [← htrim version, textOf_append, textOf_cons, hc version, trimEnd, trimEnd]
        simp [hblank]
      · refine ⟨rest ++ [piece], h, fun version => ?_⟩
        obtain ⟨front, c, hc, htext⟩ := hsolid version
        rw [textOf_append, textOf_cons, htext, trimEnd]
        simp [hc]

theorem exists_trim (h : Sound dialect.literalLexis .code pieces) :
    ∃ left, Sound dialect.literalLexis .code left ∧ ∀ version,
      trim (textOf version pieces) = textOf version left := by
  obtain ⟨middle, hmiddle, hstart⟩ := exists_trimStart h
  obtain ⟨left, hleft, hend⟩ := exists_trimEnd hmiddle
  refine ⟨left, hleft, fun version => ?_⟩
  rw [trim, hstart version, hend version]

theorem exists_map_trim {parts : List (List Piece)}
    (h : ∀ part ∈ parts, Sound dialect.literalLexis .code part) :
    ∃ trimmed : List (List Piece),
      (∀ part ∈ trimmed, Sound dialect.literalLexis .code part) ∧ ∀ version,
        (parts.map (textOf version)).map trim = trimmed.map (textOf version) := by
  induction parts with
  | nil => exact ⟨[], by simp, fun _ => rfl⟩
  | cons part rest ih =>
      obtain ⟨hpart, hrest⟩ := List.forall_mem_cons.mp h
      obtain ⟨left, hleft, htrim⟩ := exists_trim hpart
      obtain ⟨trimmed, htrimmed, hmap⟩ := ih hrest
      refine ⟨left :: trimmed, List.forall_mem_cons.mpr ⟨hleft, htrimmed⟩, ?_⟩
      intro version
      rw [List.map_cons, List.map_cons, htrim version, hmap version, List.map_cons]

end clauses

end Piece

namespace TableBody

/-- The clauses of bodies that are made up of the same pieces are made up of the same
pieces. -/
theorem exists_clauseTexts {dialect : Dialect} {pieces : List Piece}
    (h : Piece.Sound dialect.lexis .code pieces) :
    ∃ parts : List (List Piece),
      (∀ part ∈ parts, Piece.Sound dialect.literalLexis .code part) ∧ ∀ version,
        clauseTexts dialect (Piece.textOf version pieces) =
          parts.map (Piece.textOf version) := by
  obtain ⟨left, hleft, hcomments⟩ := Piece.exists_withoutComments h
  obtain ⟨first, others, hfirst, hothers, hcut⟩ := Piece.exists_cutParts hleft 0
  obtain ⟨trimmed, htrimmed, hmap⟩ :=
    Piece.exists_map_trim (List.forall_mem_cons.mpr ⟨hfirst, hothers⟩)
  refine ⟨trimmed.filter fun part => !part.isEmpty, ?_, fun version => ?_⟩
  · intro part hpart
    exact htrimmed part (List.mem_of_mem_filter hpart)
  · have hempty : ((fun text : Text => !text.isEmpty) ∘ Piece.textOf version) =
        fun part => !part.isEmpty := by
      funext part
      rw [Function.comp_apply, Bool.not_inj_iff, Bool.eq_iff_iff, List.isEmpty_iff,
        List.isEmpty_iff, Piece.textOf_eq_nil]
    rw [clauseTexts, hcomments version, Lexis.parts, hcut version,
      Lexis.filter_dropEmptyLast]
    change (List.map trim ((first :: others).map (Piece.textOf version))).filter _ = _
    rw [hmap version, List.filter_map, hempty]

end TableBody

end DdlDiagram
