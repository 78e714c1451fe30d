/-
Pairing of brackets as a matter of counting.  The bracket that closes an
opening one is the first behind it at which closing brackets outnumber opening
ones.  Pairing from the right finds exactly these, and any two pairs stand side
by side or one inside the other.
-/
import DdlDiagram.Proofs.Lexeme
import Mathlib.Data.Nat.Find

namespace DdlDiagram

open Text

namespace Bracket

/-- Brackets in the order of their offsets, no two at one offset. -/
def Ascending (brackets : List Bracket) : Prop :=
  brackets.Pairwise fun left right => left.offset < right.offset

/-- The number of brackets of a side behind one offset and up to another. -/
def countBetween (side : Side) (start stop : Nat)
    (brackets : List Bracket) : Nat :=
  brackets.countP fun bracket =>
    bracket.side = side && (start < bracket.offset && bracket.offset ≤ stop)

/-- A closing bracket behind `start` up to which closing brackets exceed opening
ones by a given number. -/
def Exceeds (excess : Nat) (brackets : List Bracket)
    (start stop : Nat) : Prop :=
  ⟨stop, .closing⟩ ∈ brackets ∧ start < stop ∧
    countBetween .closing start stop brackets =
      countBetween .opening start stop brackets + excess

/-- The first closing bracket behind `start` at which closing brackets exceed
opening ones by a given number. -/
def FirstExceeds (excess : Nat) (brackets : List Bracket)
    (start stop : Nat) : Prop :=
  Exceeds excess brackets start stop ∧
    ∀ earlier < stop, ¬ Exceeds excess brackets start earlier

/-- The closing bracket that brings a number of open brackets to an end. -/
def closer (depth : Nat) : List Bracket → Option Nat
  | [] => none
  | ⟨_, .opening⟩ :: rest => closer (depth + 1) rest
  | ⟨offset, .closing⟩ :: rest =>
      match depth with
      | 0 => some offset
      | depth + 1 => closer depth rest

/-- The closing brackets that wait for a partner are those that end ever deeper
openings. -/
theorem waiting_pairUp (brackets : List Bracket) (depth : Nat) :
    (pairUp brackets).2[depth]? = closer depth brackets := by
  induction brackets generalizing depth with
  | nil => rfl
  | cons bracket rest ih =>
      obtain ⟨offset, side⟩ := bracket
      cases side with
      | closing =>
          cases depth with
          | zero => rfl
          | succ depth => exact ih depth
      | opening =>
          rw [closer, ← ih (depth + 1)]
          rcases hwaiting : (pairUp rest).2 with _ | ⟨nearest, others⟩
          · simp [pairUp, hwaiting]
          · simp [pairUp, hwaiting]

/-- The openings of the pairs are the opening brackets. -/
theorem openings_pairUp (brackets : List Bracket) :
    (pairUp brackets).1.map BracketPair.opening =
      (brackets.filter fun bracket => bracket.side = .opening).map
        Bracket.offset := by
  induction brackets with
  | nil => rfl
  | cons bracket rest ih =>
      obtain ⟨offset, side⟩ := bracket
      cases side with
      | closing => exact ih
      | opening =>
          rw [List.filter_cons_of_pos (by rfl), List.map_cons, ← ih]
          rcases hwaiting : (pairUp rest).2 with _ | ⟨nearest, others⟩
          · simp [pairUp, hwaiting]
          · simp [pairUp, hwaiting]

/-- The pair of an opening bracket holds the closing bracket that ends it. -/
theorem find?_pairUp {left right : List Bracket} {offset : Nat}
    (h : Ascending (left ++ ⟨offset, .opening⟩ :: right)) :
    (pairUp (left ++ ⟨offset, .opening⟩ :: right)).1.find?
        (·.opening == offset) = some ⟨offset, closer 0 right⟩ := by
  induction left with
  | nil =>
      rw [List.nil_append, ← waiting_pairUp]
      rcases hwaiting : (pairUp right).2 with _ | ⟨nearest, others⟩
      · simp [pairUp, hwaiting]
      · simp [pairUp, hwaiting]
  | cons bracket rest ih =>
      obtain ⟨start, side⟩ := bracket
      obtain ⟨hfirst, hrest⟩ := List.pairwise_cons.mp h
      have hne : start ≠ offset := Nat.ne_of_lt
        (hfirst ⟨offset, .opening⟩ (List.mem_append_right _ List.mem_cons_self))
      rw [← ih hrest, List.cons_append]
      cases side with
      | closing => rfl
      | opening =>
          rcases hwaiting : (pairUp (rest ++ ⟨offset, .opening⟩ :: right)).2 with
            _ | ⟨nearest, others⟩
          · simp [pairUp, hwaiting, hne]
          · simp [pairUp, hwaiting, hne]

section counting

variable {start stop offset : Nat} {rest : List Bracket}

/-- Up to a bracket in front of all others no other counts. -/
theorem countBetween_eq_zero (hfirst : ∀ other ∈ rest, stop < other.offset)
    (side : Side) : countBetween side start stop rest = 0 := by
  rw [countBetween, List.countP_eq_zero]
  intro other hother
  have hlt := hfirst other hother
  simp only [Bool.and_eq_true, decide_eq_true_eq]
  omega

/-- An opening bracket in front adds one to the excess that is asked for. -/
theorem exceeds_opening_cons (hstart : start < offset)
    (hfirst : ∀ other ∈ rest, offset < other.offset) (excess : Nat) :
    Exceeds excess (⟨offset, .opening⟩ :: rest) start stop ↔
      Exceeds (excess + 1) rest start stop := by
  have hmem : (⟨stop, .closing⟩ : Bracket) ∈ ⟨offset, .opening⟩ :: rest ↔
      ⟨stop, .closing⟩ ∈ rest := by simp
  rw [Exceeds, Exceeds, hmem]
  refine and_congr_right fun hrest => and_congr_right fun _ => ?_
  have hle : offset ≤ stop := Nat.le_of_lt (hfirst _ hrest)
  simp only [countBetween, List.countP_cons, hstart, hle, decide_true,
    Bool.and_self, reduceCtorEq, decide_false, Bool.false_and, ↓reduceIte,
    Bool.false_eq_true]
  omega

/-- A closing bracket in front is the first excess itself, or takes one from
the excess that is asked for. -/
theorem exceeds_closing_cons (hstart : start < offset)
    (hfirst : ∀ other ∈ rest, offset < other.offset) (excess : Nat) :
    Exceeds (excess + 1) (⟨offset, .closing⟩ :: rest) start stop ↔
      (stop = offset ∧ excess = 0) ∨ Exceeds excess rest start stop := by
  by_cases hstop : stop = offset
  · subst hstop
    have hnot : (⟨stop, .closing⟩ : Bracket) ∉ rest := fun h =>
      Nat.lt_irrefl _ (hfirst _ h)
    have hzero : ∀ side, countBetween side start stop rest = 0 :=
      countBetween_eq_zero hfirst
    simp only [countBetween] at hzero
    simp [Exceeds, countBetween, hnot, hstart, hzero]
  · have hmem : (⟨stop, .closing⟩ : Bracket) ∈ ⟨offset, .closing⟩ :: rest ↔
        ⟨stop, .closing⟩ ∈ rest := by simp [hstop]
    rw [Exceeds, Exceeds, hmem, or_iff_right (by simp [hstop])]
    refine and_congr_right fun hrest => and_congr_right fun _ => ?_
    have hle : offset ≤ stop := Nat.le_of_lt (hfirst _ hrest)
    simp only [countBetween, List.countP_cons, hstart, hle, decide_true,
      Bool.and_self, reduceCtorEq, decide_false, Bool.false_and, ↓reduceIte,
      Bool.false_eq_true]
    omega

end counting

/-- The bracket that ends a number of open brackets is the first one up to which
closing brackets exceed opening ones by one more than that. -/
theorem closer_eq_some_iff {brackets : List Bracket} {start : Nat}
    (hascending : Ascending brackets)
    (hstart : ∀ bracket ∈ brackets, start < bracket.offset)
    (depth stop : Nat) :
    closer depth brackets = some stop ↔
      FirstExceeds (depth + 1) brackets start stop := by
  induction brackets generalizing depth with
  | nil => simp [closer, FirstExceeds, Exceeds]
  | cons bracket rest ih =>
      obtain ⟨offset, side⟩ := bracket
      obtain ⟨hfirst, hrest⟩ := List.pairwise_cons.mp hascending
      have hoffset : start < offset := hstart _ List.mem_cons_self
      have ih := ih hrest fun other hother =>
        hstart other (List.mem_cons_of_mem _ hother)
      cases side with
      | opening =>
          rw [closer, ih, FirstExceeds, FirstExceeds]
          simp only [exceeds_opening_cons hoffset hfirst]
      | closing =>
          rw [FirstExceeds]
          simp only [exceeds_closing_cons hoffset hfirst]
          cases depth with
          | zero =>
              rw [closer]
              constructor
              · intro h
                obtain rfl : offset = stop := by simpa using h
                refine ⟨Or.inl ⟨rfl, rfl⟩, ?_⟩
                rintro earlier hlt (⟨rfl, _⟩ | hexceeds)
                · exact Nat.lt_irrefl _ hlt
                · exact Nat.lt_asymm hlt (hfirst _ hexceeds.1)
              · rintro ⟨⟨rfl, _⟩ | hexceeds, hleast⟩
                · rfl
                · exact absurd (Or.inl ⟨rfl, rfl⟩)
                    (hleast offset (hfirst _ hexceeds.1))
          | succ depth =>
              rw [closer, ih depth, FirstExceeds]
              simp

/-- No bracket ends a number of open ones exactly when closing brackets never
exceed opening ones by one more than that. -/
theorem closer_eq_none_iff {brackets : List Bracket} {start : Nat}
    (hascending : Ascending brackets)
    (hstart : ∀ bracket ∈ brackets, start < bracket.offset) (depth : Nat) :
    closer depth brackets = none ↔
      ∀ stop, ¬ Exceeds (depth + 1) brackets start stop := by
  classical
  constructor
  · intro hnone stop hexceeds
    have hexists : ∃ stop, Exceeds (depth + 1) brackets start stop :=
      ⟨stop, hexceeds⟩
    have hfirst : FirstExceeds (depth + 1) brackets start
        (Nat.find hexists) :=
      ⟨Nat.find_spec hexists, fun _ hlt => Nat.find_min hexists hlt⟩
    rw [← closer_eq_some_iff hascending hstart, hnone] at hfirst
    simp at hfirst
  · intro hnot
    cases hcloser : closer depth brackets with
    | none => rfl
    | some stop =>
        have hfirst := (closer_eq_some_iff hascending hstart depth stop).mp
          hcloser
        exact absurd hfirst.1 (hnot stop)

/-- Fewer open brackets come to their end earlier. -/
theorem closer_lt {brackets : List Bracket} (hascending : Ascending brackets)
    {few many first last : Nat} (hlt : few < many)
    (hfirst : closer few brackets = some first)
    (hlast : closer many brackets = some last) : first < last := by
  induction brackets generalizing few many with
  | nil => simp [closer] at hfirst
  | cons bracket rest ih =>
      obtain ⟨offset, side⟩ := bracket
      obtain ⟨hbound, hrest⟩ := List.pairwise_cons.mp hascending
      cases side with
      | opening => exact ih hrest (Nat.succ_lt_succ hlt) hfirst hlast
      | closing =>
          obtain ⟨many, rfl⟩ := Nat.exists_eq_succ_of_ne_zero
            (Nat.ne_zero_of_lt hlt)
          cases few with
          | zero =>
              obtain rfl : offset = first := by simpa [closer] using hfirst
              have hmem := ((closer_eq_some_iff hrest hbound many last).mp
                hlast).1.1
              exact hbound _ hmem
          | succ few => exact ih hrest (Nat.lt_of_succ_lt_succ hlt) hfirst hlast

/-- A bracket that is opened before open brackets have come to their end is
closed before that end. -/
theorem exists_closer_of_lt {left right : List Bracket} {offset depth last : Nat}
    (hascending : Ascending (left ++ ⟨offset, .opening⟩ :: right))
    (hclose : closer depth (left ++ ⟨offset, .opening⟩ :: right) = some last)
    (hlt : offset < last) :
    ∃ many, closer (many + 1) right = some last := by
  induction left generalizing depth with
  | nil => exact ⟨depth, hclose⟩
  | cons bracket rest ih =>
      obtain ⟨start, side⟩ := bracket
      obtain ⟨hbound, hrest⟩ := List.pairwise_cons.mp hascending
      cases side with
      | opening => exact ih hrest hclose
      | closing =>
          cases depth with
          | zero =>
              obtain rfl : start = last := by simpa [closer] using hclose
              have hafter := hbound ⟨offset, .opening⟩
                (List.mem_append_right _ List.mem_cons_self)
              exact absurd hlt (Nat.lt_asymm hafter)
          | succ depth => exact ih hrest hclose

/-- Brackets in front of an opening one do not count behind it. -/
theorem exceeds_append {left right : List Bracket} {offset : Nat}
    (h : Ascending (left ++ ⟨offset, .opening⟩ :: right))
    (excess stop : Nat) :
    Exceeds excess (left ++ ⟨offset, .opening⟩ :: right) offset stop ↔
      Exceeds excess right offset stop := by
  obtain ⟨_, hright, hcross⟩ := List.pairwise_append.mp h
  have hbefore : ∀ bracket ∈ left, ¬ offset < bracket.offset :=
    fun bracket hmem =>
      Nat.lt_asymm (hcross bracket hmem _ List.mem_cons_self)
  have hcount : ∀ side, countBetween side offset stop
      (left ++ ⟨offset, .opening⟩ :: right) =
        countBetween side offset stop right := by
    intro side
    have hleft : countBetween side offset stop left = 0 := by
      rw [countBetween, List.countP_eq_zero]
      intro bracket hmem
      simp [hbefore bracket hmem]
    rw [countBetween] at hleft
    simp [countBetween, List.countP_append, hleft]
  rw [Exceeds, Exceeds, hcount, hcount]
  refine and_congr_left fun hafter => ?_
  rw [List.mem_append, List.mem_cons]
  constructor
  · rintro (hmem | hmem | hmem)
    · exact absurd hafter.1 (hbefore _ hmem)
    · simp at hmem
    · exact hmem
  · exact fun hmem => Or.inr (Or.inr hmem)

end Bracket

/-- The closing bracket of the bracket at an offset, if that is an opening one
of code and is ever closed. -/
def Lexis.closing? (lexis : Lexis) (text : Text) (offset : Nat) :
    Option Nat :=
  ((lexis.bracketPairs text).find? (·.opening == offset)).bind
    BracketPair.closing

namespace Lexeme

open DdlDiagram.Bracket

/-- Brackets stand at or behind the offset that reading starts at. -/
theorem offset_le_of_mem {offset : Nat} {lexemes : List Lexeme}
    {bracket : Bracket} (h : bracket ∈ brackets offset lexemes) :
    offset ≤ bracket.offset := by
  induction lexemes generalizing offset with
  | nil => simp [brackets] at h
  | cons lexeme rest ih =>
      rw [brackets_cons] at h
      rcases List.mem_append.mp h with hfirst | hrest
      · by_cases hopening : lexeme = code '('
        · simp only [brackets, hopening, ↓reduceIte] at hfirst
          exact Nat.le_of_eq (by rw [List.mem_singleton.mp hfirst])
        · by_cases hclosing : lexeme = code ')'
          · simp only [brackets, hclosing, ↓reduceIte] at hfirst
            exact Nat.le_of_eq (by rw [List.mem_singleton.mp hfirst])
          · simp [brackets, hopening, hclosing] at hfirst
      · exact Nat.le_trans (Nat.le_add_right _ _) (ih hrest)

theorem ascending_brackets (offset : Nat) (lexemes : List Lexeme) :
    Ascending (brackets offset lexemes) := by
  induction lexemes generalizing offset with
  | nil => exact List.Pairwise.nil
  | cons lexeme rest ih =>
      have hbehind : ∀ size, 0 < size →
          ∀ bracket ∈ brackets (offset + size) rest,
            offset < bracket.offset := by
        intro size hsize bracket hmem
        have := offset_le_of_mem hmem
        omega
      by_cases hopening : lexeme = code '('
      · simp only [brackets, hopening, ↓reduceIte]
        exact List.pairwise_cons.mpr ⟨hbehind _ (by decide), ih _⟩
      · by_cases hclosing : lexeme = code ')'
        · simp only [brackets, hclosing, ↓reduceIte]
          exact List.pairwise_cons.mpr ⟨hbehind _ (by decide), ih _⟩
        · simp only [brackets, hopening, hclosing, ↓reduceIte]
          exact ih _

end Lexeme

namespace Dialect

open DdlDiagram.Bracket

variable {dialect : Dialect} {text : Text}

theorem ascending_structural (dialect : Dialect) (text : Text) :
    Ascending (dialect.structural text) :=
  Lexeme.ascending_brackets 0 _

theorem mem_openings_iff {offset : Nat} :
    offset ∈ (dialect.lexis.bracketPairs text).map BracketPair.opening ↔
      ⟨offset, .opening⟩ ∈ dialect.structural text := by
  rw [Lexis.bracketPairs, openings_pairUp, brackets_eq_structural,
    List.mem_map]
  constructor
  · rintro ⟨⟨offset, side⟩, hmem, rfl⟩
    obtain ⟨hmem, hside⟩ := List.mem_filter.mp hmem
    obtain rfl : side = .opening := by simpa using hside
    exact hmem
  · intro hmem
    exact ⟨_, List.mem_filter.mpr ⟨hmem, rfl⟩, rfl⟩

theorem nodup_openings (dialect : Dialect) (text : Text) :
    ((dialect.lexis.bracketPairs text).map BracketPair.opening).Nodup := by
  rw [Lexis.bracketPairs, openings_pairUp, brackets_eq_structural,
    List.Nodup, List.pairwise_map]
  exact ((ascending_structural dialect text).filter _).imp Nat.ne_of_lt

/-- A structural opening bracket is closed by the bracket that ends it among
those behind it. -/
theorem closing?_of_eq_append {left right : List Bracket} {offset : Nat}
    (h : dialect.structural text = left ++ ⟨offset, .opening⟩ :: right) :
    dialect.lexis.closing? text offset = closer 0 right := by
  have hascending := ascending_structural dialect text
  rw [h] at hascending
  rw [Lexis.closing?, Lexis.bracketPairs, brackets_eq_structural, h,
    find?_pairUp hascending]
  rfl

/-- Only a structural opening bracket has a closing one. -/
theorem mem_structural_of_closing? {offset closing : Nat}
    (h : dialect.lexis.closing? text offset = some closing) :
    ⟨offset, .opening⟩ ∈ dialect.structural text := by
  obtain ⟨pair, hfound, _⟩ := Option.bind_eq_some_iff.mp h
  have hoffset : pair.opening = offset := by
    simpa using List.find?_some hfound
  rw [← mem_openings_iff, ← hoffset]
  exact List.mem_map_of_mem (List.mem_of_find?_eq_some hfound)

/-- Behind a structural opening bracket the structural brackets ascend from its
offset. -/
theorem ascending_behind {left right : List Bracket} {offset : Nat}
    (h : dialect.structural text = left ++ ⟨offset, .opening⟩ :: right) :
    Ascending (left ++ ⟨offset, .opening⟩ :: right) ∧ Ascending right ∧
      ∀ bracket ∈ right, offset < bracket.offset := by
  have hascending := ascending_structural dialect text
  rw [h] at hascending
  obtain ⟨_, hbehind, _⟩ := List.pairwise_append.mp hascending
  obtain ⟨hfirst, hright⟩ := List.pairwise_cons.mp hbehind
  exact ⟨hascending, hright, hfirst⟩

/-- Which bracket closes a structural one, by counting. -/
theorem closing?_eq_some_iff {offset closing : Nat} :
    dialect.lexis.closing? text offset = some closing ↔
      ⟨offset, .opening⟩ ∈ dialect.structural text ∧
        FirstExceeds 1 (dialect.structural text) offset closing := by
  by_cases hmem : ⟨offset, .opening⟩ ∈ dialect.structural text
  · obtain ⟨left, right, hsplit⟩ := List.append_of_mem hmem
    obtain ⟨hall, hright, hfirst⟩ := ascending_behind hsplit
    rw [closing?_of_eq_append hsplit, closer_eq_some_iff hright hfirst,
      and_iff_right hmem, hsplit, FirstExceeds, FirstExceeds]
    simp only [exceeds_append hall, Nat.zero_add]
  · constructor
    · exact fun h => absurd (mem_structural_of_closing? h) hmem
    · exact fun h => absurd h.1 hmem

theorem closing?_eq_none_iff {offset : Nat}
    (hopening : ⟨offset, .opening⟩ ∈ dialect.structural text) :
    dialect.lexis.closing? text offset = none ↔
      ∀ closing, ¬ Exceeds 1 (dialect.structural text) offset closing := by
  obtain ⟨left, right, hsplit⟩ := List.append_of_mem hopening
  obtain ⟨hall, hright, hfirst⟩ := ascending_behind hsplit
  rw [closing?_of_eq_append hsplit, closer_eq_none_iff hright hfirst, hsplit]
  simp only [exceeds_append hall, Nat.zero_add]

theorem lt_of_closing? {offset closing : Nat}
    (h : dialect.lexis.closing? text offset = some closing) :
    offset < closing :=
  (closing?_eq_some_iff.mp h).2.1.2.1

/-- Of two closed pairs the one that opens later is closed earlier, or opens
behind the other. -/
theorem closing?_nested {first last firstClosing lastClosing : Nat}
    (hfirst : dialect.lexis.closing? text first = some firstClosing)
    (hlast : dialect.lexis.closing? text last = some lastClosing)
    (hlt : first < last) :
    firstClosing < last ∨ lastClosing < firstClosing := by
  obtain ⟨left, right, hsplit⟩ :=
    List.append_of_mem (mem_structural_of_closing? hfirst)
  obtain ⟨hall, hright, hbehind⟩ := ascending_behind hsplit
  have hinside : ⟨last, .opening⟩ ∈ right := by
    have hmem := mem_structural_of_closing? hlast
    rw [hsplit] at hmem
    rcases List.mem_append.mp hmem with hmem | hmem
    · have hbefore := (List.pairwise_append.mp hall).2.2 _ hmem _
        List.mem_cons_self
      exact absurd hlt (Nat.lt_asymm hbefore)
    · rcases List.mem_cons.mp hmem with heq | hmem
      · obtain ⟨rfl, _⟩ := Bracket.mk.inj heq
        exact absurd hlt (Nat.lt_irrefl _)
      · exact hmem
  obtain ⟨middle, post, rfl⟩ := List.append_of_mem hinside
  rw [closing?_of_eq_append hsplit] at hfirst
  have hsplitLast : dialect.structural text =
      (left ++ ⟨first, .opening⟩ :: middle) ++ ⟨last, .opening⟩ :: post := by
    rw [hsplit, List.append_assoc, List.cons_append]
  rw [closing?_of_eq_append hsplitLast] at hlast
  obtain ⟨_, hpost, hcross⟩ := List.pairwise_append.mp hright
  have hmem := ((closer_eq_some_iff hright hbehind 0 _).mp hfirst).1.1
  rcases List.mem_append.mp hmem with hmem | hmem
  · exact Or.inl (hcross _ hmem _ List.mem_cons_self)
  · rcases List.mem_cons.mp hmem with heq | hmem
    · simp at heq
    · have hopen := (List.pairwise_cons.mp hpost).1 _ hmem
      obtain ⟨many, hmany⟩ := exists_closer_of_lt hright hfirst hopen
      exact Or.inr (closer_lt (List.pairwise_cons.mp hpost).2
        (Nat.succ_pos many) hlast hmany)

/-- No bracket closes two others. -/
theorem closing?_injective {first last closing : Nat}
    (hfirst : dialect.lexis.closing? text first = some closing)
    (hlast : dialect.lexis.closing? text last = some closing) :
    first = last := by
  rcases Nat.lt_trichotomy first last with hlt | heq | hlt
  · rcases closing?_nested hfirst hlast hlt with h | h
    · exact absurd (lt_of_closing? hlast) (Nat.lt_asymm h)
    · exact absurd h (Nat.lt_irrefl _)
  · exact heq
  · rcases closing?_nested hlast hfirst hlt with h | h
    · exact absurd (lt_of_closing? hfirst) (Nat.lt_asymm h)
    · exact absurd h (Nat.lt_irrefl _)

end Dialect

/-- The pairs of a text are its structural brackets matched by counting: every
structural opening bracket has one entry; the bracket that closes it is the
first structural closing one behind it at which closing brackets outnumber
opening ones, and there is none exactly when these never do; no closing bracket
closes twice, and two pairs are disjoint or nested. -/
theorem bracketPairs_match (dialect : Dialect) (text : Text) :
    (((dialect.lexis.bracketPairs text).map BracketPair.opening).Nodup ∧
      ∀ opening, opening ∈
          (dialect.lexis.bracketPairs text).map BracketPair.opening ↔
        ⟨opening, .opening⟩ ∈ dialect.structural text) ∧
    (∀ opening closing,
      dialect.lexis.closing? text opening = some closing ↔
        ⟨opening, .opening⟩ ∈ dialect.structural text ∧
          Bracket.FirstExceeds 1 (dialect.structural text) opening closing) ∧
    (∀ opening, ⟨opening, .opening⟩ ∈ dialect.structural text →
      (dialect.lexis.closing? text opening = none ↔
        ∀ closing, ¬ Bracket.Exceeds 1 (dialect.structural text)
          opening closing)) ∧
    (∀ first last closing,
      dialect.lexis.closing? text first = some closing →
      dialect.lexis.closing? text last = some closing → first = last) ∧
    ∀ first last firstClosing lastClosing,
      dialect.lexis.closing? text first = some firstClosing →
      dialect.lexis.closing? text last = some lastClosing →
      first < last → firstClosing < last ∨ lastClosing < firstClosing := by
  refine ⟨⟨Dialect.nodup_openings dialect text, ?_⟩, ?_, ?_, ?_, ?_⟩
  · exact fun opening => Dialect.mem_openings_iff
  · exact fun opening closing => Dialect.closing?_eq_some_iff
  · exact fun opening hopening => Dialect.closing?_eq_none_iff hopening
  · exact fun first last closing => Dialect.closing?_injective
  · exact fun first last firstClosing lastClosing => Dialect.closing?_nested

/-- A pair inside another, between an escaped quote and a comment that hide
brackets of their own. -/
theorem bracketPairs_match_inner :
    Dialect.mysql.lexis.closing? "('\\'(' (a) /*/)*/)".toList 0 = some 17 ∧
      Dialect.mysql.lexis.closing? "('\\'(' (a) /*/)*/)".toList 7 =
        some 9 ∧
      (17 < 7 ∨ 9 < 17) := by
  have houter : Dialect.mysql.lexis.closing?
      "('\\'(' (a) /*/)*/)".toList 0 = some 17 := by decide
  have hinner : Dialect.mysql.lexis.closing?
      "('\\'(' (a) /*/)*/)".toList 7 = some 9 := by decide
  exact ⟨houter, hinner, (bracketPairs_match .mysql _).2.2.2.2 0 7 17 9
    houter hinner (by decide)⟩

end DdlDiagram
