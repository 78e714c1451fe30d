/-
Splitting undoes joining.  A comma of code outside all brackets ends a part, so a text
with such a comma is cut into the parts in front of it and those behind it.  Parts that
are joined by commas are found again, whatever brackets, commas and quotes they hold
inside literals and whatever blanks stand around the commas between them.
-/
import DdlDiagram.Proofs.ClausePlace

namespace DdlDiagram

open Text
open TableBody (Padded)

namespace Lexis

variable {lexis : Lexis} {depth : Int} {glyphs : List Glyph}

/-- A text behind which a comma ends a part: the depth is zero and no literal is open. -/
def EndsPart (lexis : Lexis) (text : Text) : Prop :=
  depthOf 0 (lexis.trace .code text) = 0 ∧ (lexis.run .code text).inLiteral = false

instance (lexis : Lexis) (text : Text) : Decidable (lexis.EndsPart text) :=
  inferInstanceAs (Decidable (_ ∧ _))

/-- A text that is one part by itself, not empty and without blanks at its ends. -/
structure IsTrimmedPart (lexis : Lexis) (text : Text) : Prop extends IsPart lexis text where
  ne_nil : text ≠ []
  first : ∀ c ∈ text.head?, isBlank c = false
  last : ∀ c ∈ text.getLast?, isBlank c = false

/-- Glyphs without a comma that ends a part are cut nowhere. -/
theorem cutParts_append_of_unsplit (h : ∀ front glyph back,
    glyphs = front ++ glyph :: back → isSeparator (depthOf depth front) glyph = false)
    (rest : List Glyph) :
    cutParts depth (glyphs ++ rest) =
      (glyphs.map Glyph.char ++ (cutParts (depthOf depth glyphs) rest).1,
        (cutParts (depthOf depth glyphs) rest).2) := by
  induction glyphs generalizing depth with
  | nil => rfl
  | cons glyph tail ih =>
      have hglyph : isSeparator depth glyph = false := h [] glyph tail rfl
      have hbehind : ∀ front other back, tail = front ++ other :: back →
          isSeparator (depthOf (depthAfter depth glyph) front) other = false :=
        fun front other back hsplit =>
          h (glyph :: front) other back (congrArg (glyph :: ·) hsplit)
      have htail := ih hbehind
      rw [List.cons_append, cutParts, htail, hglyph]
      rfl

/-- Blanks in code are followed by code. -/
theorem run_code_of_blanks {blanks : Text} (h : ∀ c ∈ blanks, isBlank c = true) :
    lexis.run .code blanks = .code := by
  induction blanks with
  | nil => rfl
  | cons c rest ih =>
      rw [run_cons, step_code_blank (h c List.mem_cons_self)]
      exact ih fun other hother => h other (List.mem_cons_of_mem c hother)

theorem depthOf_append (depth : Int) (left right : List Glyph) :
    depthOf depth (left ++ right) = depthOf (depthOf depth left) right :=
  List.foldl_append

theorem depthOf_of_mute (hmute : ∀ glyph ∈ glyphs, glyph.IsMute) :
    depthOf depth glyphs = depth := by
  induction glyphs with
  | nil => rfl
  | cons glyph tail ih =>
      have hglyph := hmute glyph List.mem_cons_self
      have hdepth : depthAfter depth glyph = depth := by
        simp [depthAfter, hglyph.isCode]
      rw [depthOf, List.foldl_cons, hdepth]
      exact ih fun other hother => hmute other (List.mem_cons_of_mem glyph hother)

variable {dialect : Dialect} {front part piece : Text}

/-- Without comments a text that leaves no literal open ends in code. -/
theorem outside_of_closed (h : (dialect.literalLexis.run .code front).inLiteral = false) :
    Outside (dialect.literalLexis.run .code front) := by
  refine (run_literalLexis_cases dialect (Or.inl (Or.inl rfl)) front).resolve_right ?_
  simp [h]

theorem EndsPart.cuts_append (h : dialect.literalLexis.EndsPart front) (back : Text) :
    cuts 0 (dialect.literalLexis.trace .code (front ++ ',' :: back)) =
      cuts 0 (dialect.literalLexis.trace .code front) ++
        cuts 0 (dialect.literalLexis.trace .code back) := by
  have hmode := (outside_of_closed h.2).inCode
  rw [trace_append, trace_cons, step_eq_code hmode (Or.inr (Or.inr rfl)),
    cuts_append_comma hmode h.1]

/-- In front of a comma that ends one, every part stays, an empty one too. -/
theorem EndsPart.parts_append (h : dialect.literalLexis.EndsPart front) (back : Text) :
    dialect.literalLexis.parts (front ++ ',' :: back) =
      (cuts 0 (dialect.literalLexis.trace .code front)).map trim ++
        dialect.literalLexis.parts back := by
  rw [parts_eq_cuts, h.cuts_append, List.map_append,
    dropEmptyLast_append _ (by simp [cuts]), ← parts_eq_cuts]

/-- Blanks around a part in code leave its own trace between theirs. -/
theorem trace_padded {lead : Text} (hlead : ∀ c ∈ lead, isBlank c = true) (part trail : Text) :
    lexis.trace .code (lead ++ (part ++ trail)) =
      lexis.trace .code lead ++
        (lexis.trace .code part ++ lexis.trace (lexis.run .code part) trail) := by
  rw [trace_append, run_code_of_blanks hlead, trace_append]

/-- Blanks show no glyph that moves the depth or ends a part. -/
theorem mute_of_blanks (dialect : Dialect) {blanks : Text} {mode : Mode}
    (h : ∀ c ∈ blanks, isBlank c = true) (hmode : Outside mode) :
    ∀ glyph ∈ dialect.literalLexis.trace mode blanks, glyph.IsMute :=
  (quiet_unmarked (unmarked_of_blanks h)).mute mode hmode

/-- Behind a part and the blanks around it a comma ends the part. -/
theorem IsTrimmedPart.endsPart (h : dialect.literalLexis.IsTrimmedPart part)
    (hpiece : Padded part piece) : dialect.literalLexis.EndsPart piece := by
  obtain ⟨lead, trail, hlead, htrail, rfl⟩ := hpiece
  have hlast := outside_of_closed h.closed
  have hfirst := mute_of_blanks dialect hlead (Or.inl rfl : Outside .code)
  constructor
  · rw [trace_padded hlead, depthOf_append, depthOf_of_mute hfirst, depthOf_append,
      h.balanced.total, depthOf_of_mute (mute_of_blanks dialect htrail hlast)]
  · have hback : dialect.literalLexis.Quiet trail := quiet_unmarked (unmarked_of_blanks htrail)
    rw [run_append, run_code_of_blanks hlead, run_append]
    exact inLiteral_of_inCode (hback.outside _ hlast).inCode

/-- A part and the blanks around it are one part. -/
theorem IsTrimmedPart.cuts_padded (h : dialect.literalLexis.IsTrimmedPart part)
    (hpiece : Padded part piece) :
    (cuts 0 (dialect.literalLexis.trace .code piece)).map trim = [part] := by
  obtain ⟨lead, trail, hlead, htrail, rfl⟩ := hpiece
  have hmute := mute_of_blanks dialect htrail (outside_of_closed h.closed)
  have htail := cutParts_append_of_mute hmute 0 []
  rw [List.append_nil, map_char_trace] at htail
  have hcut : cutParts 0 (dialect.literalLexis.trace .code (lead ++ (part ++ trail))) =
      (lead ++ (part ++ trail), []) := by
    rw [trace_padded hlead, cutParts_append_of_mute (mute_of_blanks dialect hlead (Or.inl rfl)),
      cutParts_append_of_unsplit h.unsplit, h.balanced.total, htail, map_char_trace,
      map_char_trace]
    simp [cutParts]
  rw [cuts, hcut]
  exact congrArg (fun text => [text])
    (trimMatching_framed hlead htrail h.ne_nil h.first h.last)

/-- Parts that are joined are found again. -/
theorem parts_joined_padded {parts pieces : List Text}
    (hparts : ∀ part ∈ parts, dialect.literalLexis.IsTrimmedPart part)
    (hpieces : List.Forall₂ Padded parts pieces) :
    dialect.literalLexis.parts (joined [','] pieces) = parts := by
  induction hpieces with
  | nil => rfl
  | @cons part piece parts pieces hpiece hrest ih =>
      have hpart := hparts part List.mem_cons_self
      have hends := hpart.endsPart hpiece
      have hcut := hpart.cuts_padded hpiece
      have hlater := ih fun other hother => hparts other (List.mem_cons_of_mem part hother)
      cases hrest with
      | nil =>
          rw [joined, parts_eq_cuts, hcut, dropEmptyLast, if_neg]
          simpa using hpart.ne_nil
      | cons hnext hmore =>
          rw [joined, List.append_assoc, List.singleton_append, hends.parts_append, hcut,
            hlater]
          rfl

/-- Splitting undoes joining: parts that are each balanced, closed and without a comma
that ends one are found again behind any commas and blanks.  And it may be done piece by
piece: at a comma that ends a part a text is cut into the parts up to the comma and the
parts behind it. -/
theorem parts_undo_joined (dialect : Dialect) :
    (∀ parts pieces, (∀ part ∈ parts, dialect.literalLexis.IsTrimmedPart part) →
      List.Forall₂ Padded parts pieces →
      dialect.literalLexis.parts (joined [','] pieces) = parts) ∧
    ∀ front back, dialect.literalLexis.EndsPart front →
      dialect.literalLexis.parts (front ++ ',' :: back) =
        dialect.literalLexis.parts (front ++ [',']) ++ dialect.literalLexis.parts back := by
  constructor
  · intro parts pieces hparts hpieces
    exact parts_joined_padded hparts hpieces
  · intro front back hfront
    have hnil : dialect.literalLexis.parts [] = [] := rfl
    rw [hfront.parts_append, hfront.parts_append, hnil, List.append_nil]

/-- Two parts with commas in brackets and behind an escaped quote; and a text with an
empty part in front of its last comma. -/
theorem parts_undo_joined_escaped :
    let first := "a ENUM('\\',','x')".toList
    let last := "b DEC(1,2)".toList
    let pieces := [first ++ " ".toList, "\n".toList ++ last]
    ((∀ part ∈ [first, last], Dialect.mysql.literalLexis.IsTrimmedPart part) ∧
      List.Forall₂ Padded [first, last] pieces ∧
      Dialect.mysql.literalLexis.parts (joined [','] pieces) = [first, last]) ∧
    Dialect.mysql.literalLexis.EndsPart "a INT, ".toList ∧
      Dialect.mysql.literalLexis.parts "a INT, ,b INT".toList =
        ["a INT".toList, [], "b INT".toList] := by
  intro first last pieces
  obtain ⟨hjoined, hcut⟩ := parts_undo_joined .mysql
  have hedges : first.head? = some 'a' ∧ first.getLast? = some ')' ∧
      last.head? = some 'b' ∧ last.getLast? = some ')' := by decide
  have hfirst : Dialect.mysql.literalLexis.IsTrimmedPart first :=
    ⟨isPart_of_settles (by decide) (by decide), by decide, by simp [hedges, isBlank],
      by simp [hedges, isBlank]⟩
  have hlast : Dialect.mysql.literalLexis.IsTrimmedPart last :=
    ⟨isPart_of_settles (by decide) (by decide), by decide, by simp [hedges, isBlank],
      by simp [hedges, isBlank]⟩
  have hparts : ∀ part ∈ [first, last], Dialect.mysql.literalLexis.IsTrimmedPart part := by
    simp only [List.forall_mem_cons]
    exact ⟨hfirst, hlast, by simp⟩
  have hpieces : List.Forall₂ Padded [first, last] pieces :=
    .cons ⟨[], " ".toList, by decide, by decide, rfl⟩
      (.cons ⟨"\n".toList, [], by decide, by decide, by decide⟩ .nil)
  have hends : Dialect.mysql.literalLexis.EndsPart "a INT, ".toList := by decide
  refine ⟨⟨hparts, hpieces, hjoined _ _ hparts hpieces⟩, hends, ?_⟩
  exact (hcut _ "b INT".toList hends).trans (by decide)

end Lexis

end DdlDiagram
