/-
Balance of the text between two brackets that pair.  Without its comments, the
text is read from depth zero back to depth zero without falling below, counting
just the structural brackets between the two; and each part that it is cut into
is balanced again, closes its literals and holds no comma that would cut it.
-/
import DdlDiagram.Lexis.Part
import DdlDiagram.Proofs.Pairing
import DdlDiagram.Proofs.Stripping
import DdlDiagram.TableSite
import Mathlib.Data.List.TakeWhile

namespace DdlDiagram

open Text

/-- The character that a bracket of a side is. -/
def Side.char : Side → Char
  | .opening => '('
  | .closing => ')'

/-- The depth behind a bracket. -/
def Side.move (depth : Int) : Side → Int
  | .opening => depth + 1
  | .closing => depth - 1

namespace Bracket

/-- Brackets that lead from a depth back to zero and never below. -/
def Nested : Int → List Bracket → Prop
  | depth, [] => depth = 0
  | depth, bracket :: rest => 0 ≤ depth ∧ Nested (bracket.side.move depth) rest

theorem Nested.nonneg {depth : Int} {brackets : List Bracket}
    (h : Nested depth brackets) : 0 ≤ depth := by
  cases brackets with
  | nil => exact Int.le_of_eq (Eq.symm h)
  | cons bracket rest => exact h.1

/-- The brackets in front of the one that ends a number of open brackets lead
from that depth back to zero. -/
theorem nested_of_closer {middle post : List Bracket} {depth stop : Nat}
    (hascending : Ascending (middle ++ ⟨stop, .closing⟩ :: post))
    (h : closer depth (middle ++ ⟨stop, .closing⟩ :: post) = some stop) :
    Nested depth middle := by
  induction middle generalizing depth with
  | nil =>
      obtain ⟨hbound, hpost⟩ := List.pairwise_cons.mp hascending
      cases depth with
      | zero => rfl
      | succ depth =>
          have hmem := ((closer_eq_some_iff hpost hbound depth stop).mp h).1.1
          exact absurd (hbound _ hmem) (Nat.lt_irrefl _)
  | cons bracket rest ih =>
      obtain ⟨offset, side⟩ := bracket
      obtain ⟨hbound, hrest⟩ := List.pairwise_cons.mp hascending
      refine ⟨Int.natCast_nonneg depth, ?_⟩
      cases side with
      | opening => exact ih hrest h
      | closing =>
          cases depth with
          | zero =>
              obtain rfl : offset = stop := by simpa [closer] using h
              have hlt := hbound ⟨offset, .closing⟩
                (List.mem_append_right _ List.mem_cons_self)
              exact absurd hlt (Nat.lt_irrefl _)
          | succ depth =>
              have hmove : Side.closing.move ((depth + 1 : Nat) : Int) =
                  (depth : Int) := by
                simp only [Side.move, Int.natCast_add]
                omega
              change Nested (Side.closing.move ((depth + 1 : Nat) : Int)) rest
              rw [hmove]
              exact ih hrest h

/-- The brackets strictly between two of an ascending list. -/
theorem filter_between {left middle post : List Bracket} {first last : Bracket}
    (h : Ascending (left ++ first :: (middle ++ last :: post))) :
    (left ++ first :: (middle ++ last :: post)).filter (fun bracket =>
      first.offset < bracket.offset && bracket.offset < last.offset) =
        middle := by
  obtain ⟨_, hfirst, hleft⟩ := List.pairwise_append.mp h
  obtain ⟨hbehind, hinner⟩ := List.pairwise_cons.mp hfirst
  obtain ⟨_, hlast, hmiddle⟩ := List.pairwise_append.mp hinner
  have hleftNil : left.filter (fun bracket => first.offset < bracket.offset &&
      bracket.offset < last.offset) = [] := by
    rw [List.filter_eq_nil_iff]
    intro bracket hmem
    have hlt := hleft bracket hmem first List.mem_cons_self
    simp [Nat.lt_asymm hlt]
  have hpostNil : post.filter (fun bracket => first.offset < bracket.offset &&
      bracket.offset < last.offset) = [] := by
    rw [List.filter_eq_nil_iff]
    intro bracket hmem
    have hlt := (List.pairwise_cons.mp hlast).1 bracket hmem
    simp [Nat.lt_asymm hlt]
  have hmiddleAll : middle.filter (fun bracket =>
      first.offset < bracket.offset && bracket.offset < last.offset) =
        middle := by
    rw [List.filter_eq_self]
    intro bracket hmem
    have hafter := hbehind bracket (List.mem_append_left _ hmem)
    have hbefore := hmiddle bracket hmem last List.mem_cons_self
    simp [hafter, hbefore]
  rw [List.filter_append, List.filter_cons_of_neg (by simp),
    List.filter_append, List.filter_cons_of_neg (by simp), hleftNil,
    hpostNil, hmiddleAll, List.nil_append, List.append_nil]

end Bracket

namespace Lexis

/-- The depth after glyphs. -/
def depthOf (depth : Int) (glyphs : List Glyph) : Int :=
  glyphs.foldl depthAfter depth

/-- Glyphs on which the depth never falls below zero and ends there. -/
structure Balanced (glyphs : List Glyph) : Prop where
  nonneg : ∀ front, front <+: glyphs → 0 ≤ depthOf 0 front
  total : depthOf 0 glyphs = 0

/-- A text that is one part by itself: balanced, with its literals closed, and
without a comma that ends a part. -/
structure IsPart (lexis : Lexis) (text : Text) : Prop where
  balanced : Balanced (lexis.trace .code text)
  closed : (lexis.run .code text).inLiteral = false
  unsplit : ∀ front glyph back,
    lexis.trace .code text = front ++ glyph :: back →
      isSeparator (depthOf 0 front) glyph = false

/-- Reading a text from a depth and a mode ends at depth zero outside literals
and never falls below zero. -/
def Settles (lexis : Lexis) : Int → Mode → Text → Prop
  | depth, mode, [] => depth = 0 ∧ mode.inLiteral = false
  | depth, mode, c :: rest =>
      0 ≤ depth ∧
        Settles lexis (depthAfter depth ⟨mode, c⟩) (lexis.step mode c) rest

/-- Reading a text from a depth and a mode meets no comma that ends a part. -/
def Unsplit (lexis : Lexis) : Int → Mode → Text → Prop
  | _, _, [] => True
  | depth, mode, c :: rest =>
      isSeparator depth ⟨mode, c⟩ = false ∧
        Unsplit lexis (depthAfter depth ⟨mode, c⟩) (lexis.step mode c) rest

instance decidableSettles (lexis : Lexis) (depth : Int) (mode : Mode) :
    (text : Text) → Decidable (lexis.Settles depth mode text)
  | [] => inferInstanceAs (Decidable (_ ∧ _))
  | c :: rest =>
      have := decidableSettles lexis (depthAfter depth ⟨mode, c⟩) (lexis.step mode c) rest
      inferInstanceAs (Decidable (_ ∧ _))

instance decidableUnsplit (lexis : Lexis) (depth : Int) (mode : Mode) :
    (text : Text) → Decidable (lexis.Unsplit depth mode text)
  | [] => .isTrue trivial
  | c :: rest =>
      have := decidableUnsplit lexis (depthAfter depth ⟨mode, c⟩) (lexis.step mode c) rest
      inferInstanceAs (Decidable (_ ∧ _))

variable {lexis : Lexis} {depth : Int} {mode : Mode} {text : Text}

theorem Settles.nonneg (h : lexis.Settles depth mode text) : 0 ≤ depth := by
  cases text with
  | nil => exact Int.le_of_eq h.1.symm
  | cons c rest => exact h.1

theorem Settles.nonneg_of_prefix (h : lexis.Settles depth mode text)
    {front : List Glyph} (hfront : front <+: lexis.trace mode text) :
    0 ≤ depthOf depth front := by
  induction text generalizing depth mode front with
  | nil =>
      obtain rfl := List.prefix_nil.mp hfront
      exact h.nonneg
  | cons c rest ih =>
      cases front with
      | nil => exact h.nonneg
      | cons glyph front =>
          obtain ⟨rfl, hrest⟩ := List.cons_prefix_cons.mp hfront
          exact ih h.2 hrest

theorem Settles.total (h : lexis.Settles depth mode text) :
    depthOf depth (lexis.trace mode text) = 0 ∧
      (lexis.run mode text).inLiteral = false := by
  induction text generalizing depth mode with
  | nil => exact h
  | cons c rest ih => exact ih h.2

theorem Settles.balanced (h : lexis.Settles 0 .code text) :
    Balanced (lexis.trace .code text) :=
  ⟨fun _ hfront => h.nonneg_of_prefix hfront, h.total.1⟩

theorem Unsplit.not_separator (h : lexis.Unsplit depth mode text)
    {front back : List Glyph} {glyph : Glyph}
    (htrace : lexis.trace mode text = front ++ glyph :: back) :
    isSeparator (depthOf depth front) glyph = false := by
  induction text generalizing depth mode front with
  | nil => simp at htrace
  | cons c rest ih =>
      cases front with
      | nil =>
          obtain ⟨rfl, _⟩ := List.cons.inj htrace
          exact h.1
      | cons first front =>
          obtain ⟨rfl, hrest⟩ := List.cons.inj htrace
          exact ih h.2 hrest

theorem isPart_of_settles (hsettles : lexis.Settles 0 .code text)
    (hunsplit : lexis.Unsplit 0 .code text) : lexis.IsPart text where
  balanced := hsettles.balanced
  closed := hsettles.total.2
  unsplit := fun _ _ _ htrace => hunsplit.not_separator htrace

/-- A text settles when the brackets it counts lead back to zero and its
literals are closed. -/
theorem settles_of_counted {entries : List (Nat × Char)}
    (hnested : Bracket.Nested depth (lexis.countedFrom mode entries))
    (hclosed : (lexis.run mode (entries.map Prod.snd)).inLiteral = false) :
    lexis.Settles depth mode (entries.map Prod.snd) := by
  induction entries generalizing depth mode with
  | nil => exact ⟨hnested, hclosed⟩
  | cons entry rest ih =>
      obtain ⟨offset, c⟩ := entry
      refine ⟨hnested.nonneg, ih ?_ hclosed⟩
      rw [countedFrom] at hnested
      by_cases hopening : (Glyph.mk mode c).isCode '(' = true
      · rw [depthAfter, if_pos hopening]
        simp only [Bracket.ofGlyphs, hopening, ↓reduceIte] at hnested
        exact hnested.2
      · by_cases hclosing : (Glyph.mk mode c).isCode ')' = true
        · rw [depthAfter, if_neg hopening, if_pos hclosing]
          simp only [Bracket.ofGlyphs, hopening, hclosing, ↓reduceIte,
            Bool.false_eq_true] at hnested
          exact hnested.2
        · rw [depthAfter, if_neg hopening, if_neg hclosing]
          simpa [Bracket.ofGlyphs, hopening, hclosing] using hnested

theorem inLiteral_of_inCode (h : mode.inCode = true) :
    mode.inLiteral = false := by
  simp only [Mode.inCode, Bool.and_eq_true, Bool.not_eq_eq_eq_not,
    Bool.not_true] at h
  exact h.1

/-- After a bracket or a comma of code comes code. -/
theorem step_eq_code {c : Char} (hmode : mode.inCode = true)
    (hc : c = '(' ∨ c = ')' ∨ c = ',') : lexis.step mode c = .code := by
  rcases hc with rfl | rfl | rfl <;> cases mode <;>
    simp_all [step, afterCode, Mode.inCode, Mode.inLiteral, Mode.inComment]

/-- Cutting a text that settles gives a first part that settles from where the
text began and others that settle from the start, none of which is cut
further. -/
theorem settles_cutParts (h : lexis.Settles depth mode text) :
    (lexis.Settles depth mode (cutParts depth (lexis.trace mode text)).1 ∧
      lexis.Unsplit depth mode (cutParts depth (lexis.trace mode text)).1) ∧
    ∀ part ∈ (cutParts depth (lexis.trace mode text)).2,
      lexis.Settles 0 .code part ∧ lexis.Unsplit 0 .code part := by
  induction text generalizing depth mode with
  | nil => exact ⟨⟨h, trivial⟩, by simp [cutParts]⟩
  | cons c rest ih =>
      obtain ⟨hfirst, hothers⟩ := ih h.2
      rw [trace_cons, cutParts]
      by_cases hseparator : isSeparator depth ⟨mode, c⟩ = true
      · rw [if_pos hseparator]
        simp only [isSeparator, Glyph.isCode, Bool.and_eq_true,
          beq_iff_eq] at hseparator
        obtain ⟨⟨hmode, rfl⟩, rfl⟩ := hseparator
        have hcode : lexis.step mode ',' = .code :=
          step_eq_code hmode (Or.inr (Or.inr rfl))
        have hdepth : depthAfter 0 ⟨mode, ','⟩ = 0 := by
          simp [depthAfter, Glyph.isCode]
        have hclosed := inLiteral_of_inCode hmode
        rw [hcode, hdepth] at hfirst hothers ⊢
        refine ⟨⟨⟨rfl, hclosed⟩, trivial⟩, ?_⟩
        intro part hpart
        rcases List.mem_cons.mp hpart with rfl | hpart
        · exact hfirst
        · exact hothers part hpart
      · rw [if_neg hseparator]
        exact ⟨⟨⟨h.1, hfirst.1⟩, Bool.eq_false_iff.mpr hseparator, hfirst.2⟩,
          hothers⟩

theorem ne_of_isBlank {c : Char} (hc : isBlank c = true) (mark : Char)
    (hmark : isBlank mark = false) : c ≠ mark := by
  rintro rfl
  rw [hc] at hmark
  contradiction

/-- A blank changes no depth. -/
theorem depthAfter_blank {c : Char} (hc : isBlank c = true) :
    depthAfter depth ⟨mode, c⟩ = depth := by
  have hopening : c ≠ '(' := ne_of_isBlank hc _ (by decide)
  have hclosing : c ≠ ')' := ne_of_isBlank hc _ (by decide)
  simp [depthAfter, Glyph.isCode, hopening, hclosing]

/-- A blank in code is followed by code. -/
theorem step_code_blank {c : Char} (hc : isBlank c = true) :
    lexis.step .code c = .code := by
  have hquote : c ≠ '\'' := ne_of_isBlank hc _ (by decide)
  have hdash : c ≠ '-' := ne_of_isBlank hc _ (by decide)
  have hslash : c ≠ '/' := ne_of_isBlank hc _ (by decide)
  simp [step, afterCode, hquote, hdash, hslash]

/-- A blank closes no literal. -/
theorem inLiteral_of_step_blank {c : Char} (hc : isBlank c = true)
    (h : (lexis.step mode c).inLiteral = false) : mode.inLiteral = false := by
  have hquote : c ≠ '\'' := ne_of_isBlank hc _ (by decide)
  cases mode with
  | literal =>
      rw [step, if_neg hquote] at h
      split at h <;> simp [Mode.inLiteral] at h
  | escaped => simp [step, Mode.inLiteral] at h
  | _ => rfl

/-- Blanks in front of a part do not count. -/
theorem settles_trimStart (hsettles : lexis.Settles 0 .code text)
    (hunsplit : lexis.Unsplit 0 .code text) :
    lexis.Settles 0 .code (trimStart text) ∧
      lexis.Unsplit 0 .code (trimStart text) := by
  induction text with
  | nil => exact ⟨hsettles, hunsplit⟩
  | cons c rest ih =>
      by_cases hc : isBlank c = true
      · have hrest := hsettles.2
        have hcut := hunsplit.2
        rw [depthAfter_blank hc, step_code_blank hc] at hrest hcut
        rw [trimStart, List.dropWhile_cons_of_pos hc]
        exact ih hrest hcut
      · rw [trimStart, List.dropWhile_cons_of_neg hc]
        exact ⟨hsettles, hunsplit⟩

/-- Blanks settle only where depth is zero already and no literal is open. -/
theorem settles_nil_of_blanks {blanks : Text}
    (hblanks : ∀ c ∈ blanks, isBlank c = true)
    (h : lexis.Settles depth mode blanks) : lexis.Settles depth mode [] := by
  induction blanks generalizing depth mode with
  | nil => exact h
  | cons c rest ih =>
      have hc := hblanks c List.mem_cons_self
      have hrest := ih (fun other hother => hblanks other
        (List.mem_cons_of_mem _ hother)) h.2
      rw [depthAfter_blank hc] at hrest
      exact ⟨hrest.1, inLiteral_of_step_blank hc hrest.2⟩

theorem settles_of_append_blanks {blanks : Text}
    (hblanks : ∀ c ∈ blanks, isBlank c = true)
    (h : lexis.Settles depth mode (text ++ blanks)) :
    lexis.Settles depth mode text := by
  induction text generalizing depth mode with
  | nil => exact settles_nil_of_blanks hblanks h
  | cons c rest ih => exact ⟨h.1, ih h.2⟩

theorem unsplit_of_append {back : Text}
    (h : lexis.Unsplit depth mode (text ++ back)) :
    lexis.Unsplit depth mode text := by
  induction text generalizing depth mode with
  | nil => trivial
  | cons c rest ih => exact ⟨h.1, ih h.2⟩

/-- A text is its trimmed end followed by blanks. -/
theorem exists_trimEnd_append (text : Text) :
    ∃ blanks, text = trimEnd text ++ blanks ∧
      ∀ c ∈ blanks, isBlank c = true := by
  refine ⟨(text.reverse.takeWhile isBlank).reverse, ?_, ?_⟩
  · rw [trimEnd, ← List.reverse_append, List.takeWhile_append_dropWhile,
      List.reverse_reverse]
  · intro c hc
    exact List.mem_takeWhile_imp (List.mem_reverse.mp hc)

/-- A part stays one without the blanks around it. -/
theorem isPart_trim (hsettles : lexis.Settles 0 .code text)
    (hunsplit : lexis.Unsplit 0 .code text) : lexis.IsPart (trim text) := by
  obtain ⟨hstart, hcut⟩ := settles_trimStart hsettles hunsplit
  obtain ⟨blanks, hsplit, hblanks⟩ := exists_trimEnd_append (trimStart text)
  rw [hsplit] at hstart hcut
  exact isPart_of_settles (settles_of_append_blanks hblanks hstart)
    (unsplit_of_append hcut)

theorem mem_of_mem_dropEmptyLast {part : Text} {parts : List Text}
    (h : part ∈ dropEmptyLast parts) : part ∈ parts := by
  fun_induction dropEmptyLast parts with
  | case1 => exact h
  | case2 last hempty => simp at h
  | case3 last hempty => exact h
  | case4 first next rest ih =>
      rcases List.mem_cons.mp h with rfl | h
      · exact List.mem_cons_self
      · exact List.mem_cons_of_mem _ (ih h)

/-- Every part of a text that settles is one part by itself. -/
theorem isPart_of_mem_parts (h : lexis.Settles 0 .code text) {part : Text}
    (hpart : part ∈ lexis.parts text) : lexis.IsPart part := by
  obtain ⟨⟨hsettles, hunsplit⟩, hothers⟩ := settles_cutParts h
  obtain ⟨raw, hraw, rfl⟩ := List.mem_map.mp (mem_of_mem_dropEmptyLast hpart)
  rcases List.mem_cons.mp hraw with rfl | hraw
  · exact isPart_trim hsettles hunsplit
  · exact isPart_trim (hothers raw hraw).1 (hothers raw hraw).2

/-- A glyph that counts as a bracket is that bracket's character in code. -/
theorem ofGlyphs_singleton (offset : Nat) (mode : Mode) (c : Char) :
    Bracket.ofGlyphs offset [⟨mode, c⟩] = [] ∨
      ∃ side : Side, c = side.char ∧ mode.inCode = true ∧
        Bracket.ofGlyphs offset [⟨mode, c⟩] = [⟨offset, side⟩] := by
  by_cases hopening : (Glyph.mk mode c).isCode '(' = true
  · obtain ⟨hmode, hc⟩ := by
      simpa only [Glyph.isCode, Bool.and_eq_true, beq_iff_eq] using hopening
    exact Or.inr ⟨.opening, hc, hmode,
      by simp [Bracket.ofGlyphs, hopening]⟩
  · by_cases hclosing : (Glyph.mk mode c).isCode ')' = true
    · obtain ⟨hmode, hc⟩ := by
        simpa only [Glyph.isCode, Bool.and_eq_true, beq_iff_eq] using hclosing
      exact Or.inr ⟨.closing, hc, hmode,
        by simp [Bracket.ofGlyphs, hopening, hclosing]⟩
    · exact Or.inl (by simp [Bracket.ofGlyphs, hopening, hclosing])

/-- A bracket's character in code is that bracket, and code stands behind it. -/
theorem ofGlyphs_bracket (lexis : Lexis) {mode : Mode} (hmode : mode.inCode = true)
    (side : Side) (offset : Nat) (rest : Text) :
    Bracket.ofGlyphs offset (lexis.trace mode (side.char :: rest)) =
      ⟨offset, side⟩ :: Bracket.ofGlyphs (offset + 1) (lexis.trace .code rest) := by
  have hstep : lexis.step mode side.char = .code :=
    step_eq_code hmode (by cases side <;> simp [Side.char])
  rw [trace_cons, hstep, Bracket.ofGlyphs]
  cases side <;> simp [Glyph.isCode, hmode, Side.char] <;> rfl

/-- A bracket found in a text stands between two pieces of it, read in code, and
the brackets around it are those of the pieces. -/
theorem exists_of_ofGlyphs_eq {offset found : Nat} {side : Side}
    {left right : List Bracket}
    (h : Bracket.ofGlyphs offset (lexis.trace mode text) =
      left ++ ⟨found, side⟩ :: right) :
    ∃ front back, text = front ++ side.char :: back ∧
      found = offset + byteLength front ∧
      (lexis.run mode front).inCode = true ∧
      Bracket.ofGlyphs offset (lexis.trace mode front) = left ∧
      Bracket.ofGlyphs (found + 1) (lexis.trace .code back) = right := by
  induction text generalizing offset mode left with
  | nil => simp [Bracket.ofGlyphs] at h
  | cons c rest ih =>
      rw [trace_cons, Bracket.ofGlyphs_cons] at h
      rcases ofGlyphs_singleton offset mode c with hnone | hside
      · rw [hnone, List.nil_append] at h
        obtain ⟨front, back, rfl, hoffset, hmode, hleft, hright⟩ := ih h
        refine ⟨c :: front, back, rfl, ?_, hmode, ?_, hright⟩
        · rw [hoffset, byteLength_cons, Nat.add_assoc]
        · rw [trace_cons, Bracket.ofGlyphs_cons, hnone, List.nil_append,
            hleft]
      · obtain ⟨here, rfl, hmode, hone⟩ := hside
        have hcode : lexis.step mode here.char = .code :=
          step_eq_code hmode (by cases here <;> simp [Side.char])
        have hsize : here.char.utf8Size = 1 := by cases here <;> rfl
        rw [hone, hcode] at h
        cases left with
        | nil =>
            obtain ⟨hfound, hright⟩ := List.cons.inj h
            obtain ⟨rfl, rfl⟩ := Bracket.mk.inj hfound
            refine ⟨[], rest, rfl, rfl, hmode, rfl, ?_⟩
            rw [← hright, hsize]
            rfl
        | cons first left =>
            obtain ⟨rfl, hrest⟩ := List.cons.inj h
            obtain ⟨front, back, rfl, hoffset, hmode', hleft, hright⟩ :=
              ih (hcode.symm ▸ hrest)
            refine ⟨here.char :: front, back, rfl, ?_, hmode', ?_, hright⟩
            · rw [hoffset, byteLength_cons, Nat.add_assoc]
            · rw [trace_cons, Bracket.ofGlyphs_cons, hone, hleft]
              rfl

end Lexis

/-- The body at two offsets is what stands between them. -/
theorem TableSite.body_inside (front inside behind : Text) :
    body (front ++ '(' :: (inside ++ behind)) (byteLength front)
      (byteLength front + 1 + byteLength inside) = inside := by
  have hfront : byteLength front + 1 = byteLength (front ++ ['(']) := by
    rw [byteLength_append]
    rfl
  have hbetween := between_append (front ++ ['(']) inside behind
  rw [List.append_assoc, List.singleton_append] at hbetween
  rw [body, hfront]
  exact hbetween

/-- The body of a definition is what stands between its brackets. -/
theorem TableSite.body_append (front inside back : Text) :
    body (front ++ '(' :: (inside ++ ')' :: back)) (byteLength front)
      (byteLength front + 1 + byteLength inside) = inside :=
  body_inside front inside (')' :: back)

namespace Dialect

open DdlDiagram.Bracket

variable {dialect : Dialect} {text : Text} {opening closing : Nat}

/-- A pair cuts its text into what is in front, a body that is read in code from
end to end, and what is behind.  The brackets of the body are the structural
ones between the two, and lead from depth zero back to it. -/
theorem exists_pieces
    (h : dialect.lexis.closing? text opening = some closing) :
    ∃ front body back, text = front ++ '(' :: (body ++ ')' :: back) ∧
      opening = byteLength front ∧
      closing = opening + 1 + byteLength body ∧
      (dialect.lexis.run .code body).inCode = true ∧
      ofGlyphs (opening + 1) (dialect.lexis.trace .code body) =
        (dialect.structural text).filter (fun bracket =>
          opening < bracket.offset && bracket.offset < closing) ∧
      Nested 0 (ofGlyphs (opening + 1) (dialect.lexis.trace .code body)) := by
  obtain ⟨left, right, hsplit⟩ :=
    List.append_of_mem (mem_structural_of_closing? h)
  obtain ⟨hall, hright, hbehind⟩ := ascending_behind hsplit
  rw [closing?_of_eq_append hsplit] at h
  have hmem := ((closer_eq_some_iff hright hbehind 0 closing).mp h).1.1
  obtain ⟨middle, post, rfl⟩ := List.append_of_mem hmem
  have hnested : Nested 0 middle := nested_of_closer hright h
  have hbetween := filter_between hall
  rw [← hsplit] at hbetween
  rw [← brackets_eq_structural, Lexis.brackets] at hsplit
  obtain ⟨front, rest, rfl, hopening, _, _, hrest⟩ :=
    Lexis.exists_of_ofGlyphs_eq hsplit
  obtain ⟨body, back, rfl, hclosing, hmode, hmiddle, _⟩ :=
    Lexis.exists_of_ofGlyphs_eq hrest
  refine ⟨front, body, back, rfl, hopening.trans (Nat.zero_add _), hclosing,
    hmode, ?_, ?_⟩
  · rw [hmiddle]
    exact hbetween.symm
  · rw [hmiddle]
    exact hnested

/-- The body of a pair is read in code from end to end; its brackets are the
structural ones between the two, and lead from depth zero back to it. -/
theorem brackets_body
    (h : dialect.lexis.closing? text opening = some closing) :
    (dialect.lexis.run .code
        (TableSite.body text opening closing)).inCode = true ∧
      ofGlyphs (opening + 1) (dialect.lexis.trace .code
          (TableSite.body text opening closing)) =
        (dialect.structural text).filter (fun bracket =>
          opening < bracket.offset && bracket.offset < closing) ∧
      Nested 0 (ofGlyphs (opening + 1) (dialect.lexis.trace .code
        (TableSite.body text opening closing))) := by
  obtain ⟨front, body, back, rfl, rfl, rfl, hpieces⟩ := exists_pieces h
  rw [TableSite.body_append]
  exact hpieces

end Dialect

end DdlDiagram
