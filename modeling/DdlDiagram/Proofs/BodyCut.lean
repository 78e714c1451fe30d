/-
Cutting the body between two brackets that pair.  Without its comments the body is cut
from depth zero back to depth zero, and the depth moves at the structural brackets between
the two and nowhere else; each part, cut by itself, ends the same way and stays whole.
-/
import DdlDiagram.Proofs.CharLoops
import DdlDiagram.Proofs.Splitting

namespace DdlDiagram

open Text

namespace CharLoop

open Lexis

/-- Where the depth moves as a body is cut, and by how much; each character comes with an
offset. -/
def Cutter.moves (escapes : Bool) (cutter : Cutter) : List (Nat × Char) → List (Nat × Int)
  | [] => []
  | (offset, c) :: rest =>
      let next := cutter.read escapes c
      if next.depth = cutter.depth then next.moves escapes rest
      else (offset, next.depth - cutter.depth) :: next.moves escapes rest

/-- A text that is cut with the depth never below zero, and ends at depth zero outside
literals and behind no backslash that takes a character with it. -/
structure Cutter.Level (escapes : Bool) (text : Text) : Prop where
  nonneg : ∀ front, front <+: text → 0 ≤ (run escapes front).depth
  depth : (run escapes text).depth = 0
  inString : (run escapes text).inString = false
  escapeNext : (run escapes text).escapeNext = false

variable {dialect : Dialect} {mode : Mode} {text : Text}

variable (dialect) in
/-- Each character that is read leads to the depth and the mode behind it. -/
theorem Cutter.exists_read (hmode : Outside mode ∨ mode.inLiteral = true)
    (parts : List Text) (current : Text) (depth : Int) (c : Char) :
    ∃ parts' current', (ofMode parts current depth mode).read dialect.backslashEscapes c =
      ofMode parts' current' (depthAfter depth ⟨mode, c⟩)
        (dialect.literalLexis.step mode c) := by
  rw [read_ofMode hmode]
  split
  · next hcut =>
      have hdepth : depthAfter depth ⟨mode, c⟩ = depth := by
        simp only [isSeparator, Glyph.isCode, Bool.and_eq_true, beq_iff_eq] at hcut
        simp [depthAfter, Glyph.isCode, hcut.1.2]
      exact ⟨_, _, by rw [hdepth]⟩
  · exact ⟨_, _, rfl⟩

/-- The depth moves at the brackets that reading the text counts. -/
theorem Cutter.moves_ofMode (hmode : Outside mode ∨ mode.inLiteral = true)
    (parts : List Text) (current : Text) (depth : Int) (entries : List (Nat × Char)) :
    (ofMode parts current depth mode).moves dialect.backslashEscapes entries =
      (dialect.literalLexis.countedFrom mode entries).map
        fun bracket => (bracket.offset, bracket.side.move 0) := by
  induction entries generalizing mode parts current depth with
  | nil => rfl
  | cons entry rest ih =>
      obtain ⟨offset, c⟩ := entry
      obtain ⟨parts', current', hread⟩ := exists_read dialect hmode parts
        current depth c
      have hrest := ih (step_literalLexis_cases dialect hmode c) parts' current'
        (depthAfter depth ⟨mode, c⟩)
      rw [moves, hread, countedFrom, List.map_append, hrest]
      rcases ofGlyphs_singleton offset mode c with hnone | ⟨side, rfl, hcode, hone⟩
      · have hdepth : depthAfter depth ⟨mode, c⟩ = depth := by
          rw [depthAfter_eq_foldl offset, hnone]
          rfl
        rw [hnone, hdepth]
        exact if_pos rfl
      · have hdepth : depthAfter depth ⟨mode, side.char⟩ = side.move depth := by
          rw [depthAfter_eq_foldl offset, hone]
          rfl
        have hmove : side.move depth ≠ depth := by
          cases side <;> simp only [Side.move] <;> omega
        have hby : side.move depth - depth = side.move 0 := by
          cases side <;> simp only [Side.move] <;> omega
        rw [hone, hdepth]
        simp only [ofMode, hmove, hby, ↓reduceIte]
        rfl

/-- A balanced text that leaves no literal open is cut level. -/
theorem Cutter.level_of_balanced
    (hbalanced : Balanced (dialect.literalLexis.trace .code text))
    (hclosed : (dialect.literalLexis.run .code text).inLiteral = false) :
    Level dialect.backslashEscapes text where
  nonneg := by
    rintro front ⟨back, rfl⟩
    rw [depth_run]
    apply hbalanced.nonneg
    rw [trace_append]
    exact List.prefix_append _ _
  depth := by rw [depth_run, hbalanced.total]
  inString := by rw [inString_run, hclosed]
  escapeNext := by
    rw [escapeNext_run, decide_eq_false_iff_not]
    intro hescaped
    rw [hescaped] at hclosed
    contradiction

/-- A text that is one part by itself is cut nowhere. -/
theorem Cutter.parts_run_eq_nil (h : dialect.literalLexis.IsPart text) :
    (run dialect.backslashEscapes text).parts = [] := by
  obtain ⟨parts, current, hrun, hcuts⟩ := run_eq dialect text
  have hcut := cutParts_append_of_unsplit h.unsplit []
  rw [List.append_nil] at hcut
  rw [cuts, hcut] at hcuts
  have hlength := congrArg List.length hcuts
  simp only [List.length_append, List.length_map, List.length_cons, List.length_nil,
    cutParts] at hlength
  have hparts : parts = [] := List.eq_nil_of_length_eq_zero (by omega)
  rw [hrun, hparts]
  rfl

end CharLoop

open CharLoop

/-- What cutting makes of a body between two offsets, once it has lost its comments. -/
structure BodyCut (dialect : Dialect) (text : Text) (opening closing : Nat)
    (stripped : Text) : Prop where
  /-- The depth never falls below zero and comes back to it, outside literals. -/
  level : Cutter.Level dialect.backslashEscapes stripped
  /-- The characters with the offsets that they have in the text. -/
  sources : (dialect.lexis.strippedFrom (opening + 1)
    (TableSite.body text opening closing)).map Prod.snd = stripped
  /-- The depth moves at the structural brackets strictly between the offsets. -/
  moves : Cutter.start.moves dialect.backslashEscapes
      (dialect.lexis.strippedFrom (opening + 1) (TableSite.body text opening closing)) =
    ((dialect.structural text).filter fun bracket =>
      opening < bracket.offset && bracket.offset < closing).map
        fun bracket => (bracket.offset, bracket.side.move 0)
  /-- Each part is level again, and no comma cuts it. -/
  parts : ∀ part ∈ split dialect.backslashEscapes stripped,
    Cutter.Level dialect.backslashEscapes part ∧
      (Cutter.run dialect.backslashEscapes part).parts = []

/-- The body of a pair of brackets loses its comments and is cut into its parts by loops
of their own, which count the structural brackets between the two and leave no part, and
no literal, open. -/
theorem body_balanced (dialect : Dialect) (text : Text) (opening closing : Nat)
    (h : dialect.lexis.closing? text opening = some closing) :
    let stripped := strip dialect.backslashEscapes (TableSite.body text opening closing)
    stripped = dialect.lexis.withoutComments (TableSite.body text opening closing) ∧
      split dialect.backslashEscapes stripped = dialect.literalLexis.parts stripped ∧
      BodyCut dialect text opening closing stripped := by
  intro stripped
  obtain ⟨hmode, hbrackets, hnested⟩ := Dialect.brackets_body h
  have hstripped : stripped = _ := Lexis.strip_eq dialect _
  have hsources := Lexis.map_snd_strippedFrom dialect.lexis (opening + 1)
    (TableSite.body text opening closing)
  have hcounted := dialect.counted_stripped (opening + 1) (TableSite.body text opening closing)
  have hclosed : (dialect.literalLexis.run .code stripped).inLiteral = false := by
    rw [hstripped, Dialect.inLiteral_stripped]
    exact Lexis.inLiteral_of_inCode hmode
  have hsettles : dialect.literalLexis.Settles 0 .code stripped := by
    rw [hstripped, ← hsources] at hclosed ⊢
    apply Lexis.settles_of_counted _ hclosed
    rw [hcounted]
    exact hnested
  refine ⟨hstripped, split_eq dialect stripped, ?_⟩
  constructor
  case level => exact Cutter.level_of_balanced hsettles.balanced hclosed
  case sources => rw [hsources, hstripped]
  case moves =>
    rw [← hbrackets, ← hcounted]
    exact Cutter.moves_ofMode (Or.inl (Or.inl rfl)) [] [] 0 _
  case parts =>
    intro part hpart
    rw [split_eq] at hpart
    have hwhole := Lexis.isPart_of_mem_parts hsettles hpart
    exact ⟨Cutter.level_of_balanced hwhole.balanced hwhole.closed,
      Cutter.parts_run_eq_nil hwhole⟩

/-- A body with an escaped quote, a comment and a bracket in each: the comma of the size
moves with its brackets and cuts nothing. -/
theorem body_balanced_commented :
    let text := "t (a DEC(1,2) '\\'(' /*)*/, b(')'))".toList
    Dialect.mysql.lexis.closing? text 2 = some 33 ∧
      split true (strip true (TableSite.body text 2 33)) =
        ["a DEC(1,2) '\\'('".toList, "b(')')".toList] ∧
      Cutter.start.moves true
          (Dialect.mysql.lexis.strippedFrom 3 (TableSite.body text 2 33)) =
        [(8, 1), (12, -1), (28, 1), (32, -1)] ∧
      Cutter.Level true "a DEC(1,2) '\\'('".toList ∧
      (Cutter.run true "a DEC(1,2) '\\'('".toList).parts = [] := by
  intro text
  have hclosing : Dialect.mysql.lexis.closing? text 2 = some 33 := by decide
  obtain ⟨hstrip, hsplit, hcut⟩ := body_balanced .mysql text 2 33 hclosing
  have hparts : split true (strip true (TableSite.body text 2 33)) =
      ["a DEC(1,2) '\\'('".toList, "b(')')".toList] := by
    refine hsplit.trans ?_
    rw [hstrip]
    decide
  have hmoves := hcut.moves
  rw [← Dialect.brackets_eq_structural] at hmoves
  have hpart : "a DEC(1,2) '\\'('".toList ∈
      split true (strip true (TableSite.body text 2 33)) := by
    rw [hparts]
    exact List.mem_cons_self
  refine ⟨hclosing, hparts, hmoves.trans (by decide), hcut.parts _ hpart⟩

end DdlDiagram
