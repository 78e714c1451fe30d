/-
Places in texts that are made up of the same pieces.  A place is the number of pieces
in front of it, and each text has its own offset for it.  The brackets of code stand
at the same places in all of them, so they pair alike; the headers in front of them
are the same, as none crosses a quote; and so are the table sites, whose bodies are
again made up of the same pieces.
-/
import DdlDiagram.Proofs.Accounting
import DdlDiagram.Proofs.LiteralReading
import DdlDiagram.Proofs.Piece
import Mathlib.Data.List.Find
import Mathlib.Data.List.Induction
import Mathlib.Data.List.Sort

namespace DdlDiagram

open Text

namespace Piece

variable {lexis : Lexis} {mode : Mode} {version : Bool} {pieces : List Piece}

/-- The byte offset of a place. -/
def offsetAt (version : Bool) (pieces : List Piece) (place : Nat) : Nat :=
  byteLength (textOf version (pieces.take place))

theorem offsetAt_append (front back : List Piece) :
    offsetAt version (front ++ back) front.length =
      byteLength (textOf version front) := by
  rw [offsetAt, List.take_left]

theorem byteLength_pos {text : Text} (h : text ≠ []) : 0 < byteLength text := by
  cases text with
  | nil => exact absurd rfl h
  | cons c rest =>
      have := c.utf8Size_pos
      rw [byteLength_cons]
      omega

/-- Offsets ascend with the places. -/
theorem offsetAt_lt {place later : Nat} (hlt : place < later)
    (hle : later ≤ pieces.length) :
    offsetAt version pieces place < offsetAt version pieces later := by
  have hsplit : pieces.take later =
      pieces.take place ++ (pieces.drop place).take (later - place) := by
    rw [← List.take_add]
    congr 1
    omega
  have hne : textOf version ((pieces.drop place).take (later - place)) ≠ [] := by
    rw [Ne, textOf_eq_nil, ← List.length_eq_zero_iff, List.length_take,
      List.length_drop]
    omega
  have := byteLength_pos hne
  rw [offsetAt, offsetAt, hsplit, textOf_append, byteLength_append]
  omega

theorem lt_of_offsetAt_lt {place later : Nat} (hle : place ≤ pieces.length)
    (h : offsetAt version pieces place < offsetAt version pieces later) :
    place < later := by
  rcases Nat.lt_trichotomy place later with hlt | rfl | hlt
  · exact hlt
  · exact absurd h (Nat.lt_irrefl _)
  · exact absurd h (Nat.lt_asymm (offsetAt_lt hlt hle))

theorem offsetAt_injective {place other : Nat} (hplace : place ≤ pieces.length)
    (hother : other ≤ pieces.length)
    (h : offsetAt version pieces place = offsetAt version pieces other) :
    place = other := by
  rcases Nat.lt_trichotomy place other with hlt | heq | hlt
  · exact absurd h (Nat.ne_of_lt (offsetAt_lt hlt hother))
  · exact heq
  · exact absurd h (Nat.ne_of_gt (offsetAt_lt hlt hplace))

/-- The brackets of code among pieces, at their places. -/
def brackets (lexis : Lexis) (place : Nat) : Mode → List Piece → List Bracket
  | _, [] => []
  | mode, plain c :: rest =>
      Bracket.ofGlyphs place [⟨mode, c⟩] ++
        brackets lexis (place + 1) (lexis.step mode c) rest
  | _, literal _ :: rest => brackets lexis (place + 1) .closed rest

theorem ofGlyphs_moved (place : Nat → Nat) (offset : Nat) (glyph : Glyph) :
    (Bracket.ofGlyphs offset [glyph]).map (Bracket.moved place) =
      Bracket.ofGlyphs (place offset) [glyph] := by
  simp only [Bracket.ofGlyphs]
  split
  · rfl
  · split <;> rfl

/-- Each text has the brackets of its pieces, at its own offsets. -/
theorem ofGlyphs_textOf (h : Sound lexis mode pieces) (done : List Piece) :
    Bracket.ofGlyphs (byteLength (textOf version done))
        (lexis.trace mode (textOf version pieces)) =
      (brackets lexis done.length mode pieces).map
        (Bracket.moved (offsetAt version (done ++ pieces))) := by
  induction pieces generalizing mode done with
  | nil => rfl
  | cons piece rest ih =>
      have hnext : done ++ piece :: rest = (done ++ [piece]) ++ rest := by simp
      have hlength : done.length + 1 = (done ++ [piece]).length := by simp
      have hsize : byteLength (textOf version done) +
          byteLength (piece.text version) =
            byteLength (textOf version (done ++ [piece])) := by
        rw [textOf_append, byteLength_append, textOf_cons, textOf_nil, List.append_nil]
      cases piece with
      | plain c =>
          have hrest := ih h (done ++ [plain c])
          rw [← hsize, ← hlength, ← hnext] at hrest
          rw [textOf_plain, Lexis.trace_cons, Bracket.ofGlyphs_cons, brackets,
            List.map_append, ofGlyphs_moved, offsetAt_append, ← hrest]
          rfl
      | literal contents =>
          obtain ⟨hmode, hcontents, hsound⟩ := h
          have hrest := ih hsound (done ++ [literal contents])
          rw [← hsize, ← hlength, ← hnext] at hrest
          rw [textOf_cons, Lexis.trace_append, text,
            Lexis.ofGlyphs_append_of_mute (mute_literal hmode (hcontents version)),
            Lexis.map_char_trace, run_literal hmode (hcontents version), brackets,
            ← hrest]
          rfl

/-- A bracket of code stands where its character is a piece that is read in code. -/
theorem exists_of_mem_brackets {start place : Nat} {side : Side}
    (h : Sound lexis mode pieces)
    (hmem : ⟨place, side⟩ ∈ brackets lexis start mode pieces) :
    ∃ front back, pieces = front ++ plain side.char :: back ∧
      place = start + front.length ∧
      (lexis.run mode (textOf false front)).inCode = true := by
  induction pieces generalizing mode start with
  | nil => contradiction
  | cons piece rest ih =>
      cases piece with
      | plain c =>
          rcases List.mem_append.mp hmem with hmem | hmem
          · rcases Lexis.ofGlyphs_singleton start mode c with
              hnone | ⟨side', rfl, hmode, hone⟩
            · rw [hnone] at hmem
              contradiction
            · rw [hone] at hmem
              obtain ⟨rfl, rfl⟩ := Bracket.mk.inj (List.mem_singleton.mp hmem)
              exact ⟨[], rest, rfl, rfl, hmode⟩
          · obtain ⟨front, back, rfl, rfl, hcode⟩ := ih h hmem
            exact ⟨plain c :: front, back, rfl, by simp; omega, hcode⟩
      | literal contents =>
          obtain ⟨hmode, hcontents, hsound⟩ := h
          obtain ⟨front, back, rfl, rfl, hcode⟩ := ih hsound hmem
          refine ⟨literal contents :: front, back, rfl, by simp; omega, ?_⟩
          rw [textOf_cons, Lexis.run_append, text, run_literal hmode (hcontents false)]
          exact hcode

section pairs

variable {dialect : Dialect} {place later : Nat}

/-- The pairs of brackets of code among pieces, at their places. -/
def pairs (lexis : Lexis) (pieces : List Piece) : List BracketPair :=
  (Bracket.pairUp (brackets lexis 0 .code pieces)).1

/-- The place of the bracket that closes the one at a place. -/
def closing? (lexis : Lexis) (pieces : List Piece) (place : Nat) : Option Nat :=
  ((pairs lexis pieces).find? (·.opening == place)).bind BracketPair.closing

theorem brackets_textOf (h : Sound lexis .code pieces) (version : Bool) :
    lexis.brackets (textOf version pieces) =
      (brackets lexis 0 .code pieces).map
        (Bracket.moved (offsetAt version pieces)) :=
  ofGlyphs_textOf h []

theorem place_lt_of_mem_brackets {bracket : Bracket} (h : Sound lexis .code pieces)
    (hmem : bracket ∈ brackets lexis 0 .code pieces) :
    bracket.offset < pieces.length := by
  obtain ⟨front, back, rfl, hplace, _⟩ := exists_of_mem_brackets h hmem
  rw [hplace, List.length_append, List.length_cons]
  omega

theorem opening_lt_of_mem_pairs {pair : BracketPair} (h : Sound lexis .code pieces)
    (hmem : pair ∈ pairs lexis pieces) : pair.opening < pieces.length := by
  have hopening := List.mem_map_of_mem (f := BracketPair.opening) hmem
  rw [pairs, Bracket.openings_pairUp] at hopening
  obtain ⟨bracket, hbracket, heq⟩ := List.mem_map.mp hopening
  rw [← heq]
  exact place_lt_of_mem_brackets h (List.mem_of_mem_filter hbracket)

theorem mem_brackets_of_closing? (h : closing? lexis pieces place = some later) :
    ⟨later, .closing⟩ ∈ brackets lexis 0 .code pieces := by
  obtain ⟨pair, hpair, hclosing⟩ := Option.bind_eq_some_iff.mp h
  have hmem : later ∈ (pairs lexis pieces).filterMap BracketPair.closing :=
    List.mem_filterMap.mpr ⟨pair, List.mem_of_find?_eq_some hpair, hclosing⟩
  have hfilter := (Bracket.closings_pairUp (brackets lexis 0 .code pieces)).mem_iff.mp
    (List.mem_append_left _ hmem)
  obtain ⟨⟨offset, side⟩, hbracket, rfl⟩ := List.mem_map.mp hfilter
  obtain ⟨hbracket, hside⟩ := List.mem_filter.mp hbracket
  obtain rfl : side = .closing := by simpa using hside
  exact hbracket

/-- In each text the same pairs are found. -/
theorem closing?_textOf (h : Sound lexis .code pieces) (version : Bool)
    {place : Nat} (hplace : place ≤ pieces.length) :
    lexis.closing? (textOf version pieces) (offsetAt version pieces place) =
      (closing? lexis pieces place).map (offsetAt version pieces) := by
  have hfound : ((pairs lexis pieces).map
      (BracketPair.moved (offsetAt version pieces))).find?
        (·.opening == offsetAt version pieces place) =
      ((pairs lexis pieces).find? (·.opening == place)).map
        (BracketPair.moved (offsetAt version pieces)) := by
    rw [List.find?_map]
    congr 1
    apply List.find?_congr
    intro pair hpair
    rw [Bool.eq_iff_iff, beq_iff_eq, Function.comp_apply, beq_iff_eq]
    have hle := Nat.le_of_lt (opening_lt_of_mem_pairs h hpair)
    exact ⟨offsetAt_injective hle hplace, congrArg (offsetAt version pieces)⟩
  rw [Lexis.closing?, Lexis.bracketPairs, brackets_textOf h, Bracket.pairUp_map]
  change Option.bind (((pairs lexis pieces).map _).find? _) _ = _
  rw [hfound, closing?, Option.bind_map, Option.map_bind]
  rfl

end pairs

section phrases

theorem getLast?_literal (version : Bool) (contents : Bool → Text) :
    ((literal contents).text version).getLast? = some '\'' := by
  rw [text, ← List.cons_append]
  exact List.getLast?_concat

/-- A phrase without quotes at the end of a text is made up of plain pieces. -/
theorem exists_of_textOf_append {front phrase : Text} (hphrase : '\'' ∉ phrase)
    (h : textOf version pieces = front ++ phrase) :
    ∃ before, pieces = before ++ phrase.map plain ∧ textOf version before = front := by
  induction pieces using List.reverseRecOn generalizing phrase with
  | nil =>
      obtain ⟨rfl, rfl⟩ := List.append_eq_nil_iff.mp h.symm
      exact ⟨[], rfl, rfl⟩
  | append_singleton pieces piece ih =>
      rcases List.eq_nil_or_concat phrase with rfl | ⟨phrase, c, rfl⟩
      · exact ⟨pieces ++ [piece], by simp, by simpa using h⟩
      · rw [List.concat_eq_append, ← List.append_assoc, textOf_append, textOf_cons,
          textOf_nil, List.append_nil] at h
        rw [List.concat_eq_append, List.mem_append, not_or] at hphrase
        cases piece with
        | plain d =>
            obtain ⟨hfront, hlast⟩ := List.append_inj' h rfl
            obtain rfl : d = c := by simpa [text] using hlast
            obtain ⟨before, rfl, hbefore⟩ := ih hphrase.1 hfront
            exact ⟨before, by simp, hbefore⟩
        | literal contents =>
            have hlast := congrArg List.getLast? h
            rw [List.getLast?_append, getLast?_literal, List.getLast?_concat] at hlast
            obtain rfl : '\'' = c := Option.some.inj hlast
            exact absurd (List.mem_singleton_self _) hphrase.2

/-- In each text pieces end with the same character. -/
theorem getLast?_textOf (version other : Bool) (pieces : List Piece) :
    (textOf version pieces).getLast? = (textOf other pieces).getLast? := by
  rcases List.eq_nil_or_concat pieces with rfl | ⟨pieces, piece, rfl⟩
  · rfl
  · have hlast : (piece.text version).getLast? = (piece.text other).getLast? ∧
        (piece.text other).getLast? ≠ none := by
      cases piece with
      | plain c => exact ⟨rfl, by simp [text]⟩
      | literal contents =>
          rw [getLast?_literal, getLast?_literal]
          exact ⟨rfl, by simp⟩
    simp only [List.concat_eq_append, textOf_append, textOf_cons, textOf_nil,
      List.append_nil, List.getLast?_append, hlast.1]
    obtain ⟨c, hc⟩ := Option.ne_none_iff_exists'.mp hlast.2
    rw [hc]
    rfl

end phrases

section sites

variable {dialect : Dialect} {site : TableSite}

/-- A table site among pieces, at its places: the phrase of a header in front of a
bracket of code, and the pair of that bracket. -/
def IsSite (dialect : Dialect) (pieces : List Piece) (site : TableSite) : Prop :=
  ∃ front phrase back, pieces = front ++ (phrase.map plain ++ plain '(' :: back) ∧
    site.opening = (front ++ phrase.map plain).length ∧
    (dialect.lexis.run .code (textOf false (front ++ phrase.map plain))).inCode =
      true ∧
    (textOf false front).getLast?.any isWordChar = false ∧
    Header.read? (phrase ++ ['(']) = some (site.name, []) ∧
    site.closing = closing? dialect.lexis pieces site.opening

theorem IsSite.opening_lt (h : IsSite dialect pieces site) :
    site.opening < pieces.length := by
  obtain ⟨front, phrase, back, rfl, hopening, _⟩ := h
  rw [hopening]
  simp

/-- The header in front of a bracket does not depend on what is behind it. -/
theorem read?_bracket_iff {phrase body name : Text} :
    Header.read? (phrase ++ '(' :: body) = some (name, body) ↔
      Header.read? (phrase ++ ['(']) = some (name, []) := by
  have hmem : '(' ∈ phrase ++ ['('] := by simp
  have happend := Header.read?_append_of_bracket hmem body
  rw [List.append_assoc, List.singleton_append] at happend
  rw [happend]
  cases Header.read? (phrase ++ ['(']) with
  | none => simp
  | some read =>
      obtain ⟨name', rest⟩ := read
      simp

/-- The sites of a text are those of its pieces, at its own offsets. -/
theorem mem_all_textOf (h : Sound dialect.lexis .code pieces) (version : Bool)
    (found : TableSite) :
    found ∈ TableSite.all dialect.lexis (textOf version pieces) ↔
      ∃ site, IsSite dialect pieces site ∧
        found = site.moved (offsetAt version pieces) := by
  rw [TableSite.mem_all_iff_standsAt, ← Dialect.brackets_eq_structural]
  constructor
  · rintro ⟨start, header, ⟨front, phrase, body, htext, hlast, hread, _, hopening⟩,
      hbracket, rfl⟩
    rw [brackets_textOf h] at hbracket
    obtain ⟨⟨place, side⟩, hmem, hmoved⟩ := List.mem_map.mp hbracket
    obtain ⟨hoffset, rfl⟩ := Bracket.mk.inj hmoved
    obtain ⟨before, back, rfl, rfl, hcode⟩ : ∃ before back,
        pieces = before ++ plain '(' :: back ∧ place = 0 + before.length ∧
          (dialect.lexis.run .code (textOf false before)).inCode = true :=
      exists_of_mem_brackets h hmem
    rw [Nat.zero_add, offsetAt_append] at hoffset
    have hshape : textOf version before ++ '(' :: textOf version back =
        (front ++ phrase) ++ '(' :: body := by
      rw [List.append_assoc, ← htext, textOf_append]
      rfl
    have hbefore := eq_of_byteLength hshape (hoffset.trans hopening)
    obtain ⟨phrase', hsplit, hphrase, _⟩ := Header.read?_split hread
    obtain rfl := List.append_cancel_right hsplit
    have hquote : '\'' ∉ phrase := fun hmem => hphrase _ hmem (by decide)
    obtain ⟨first, rfl, rfl⟩ := exists_of_textOf_append hquote hbefore
    have hle : (first ++ phrase.map plain).length ≤
        (first ++ phrase.map plain ++ plain '(' :: back).length := by
      simp
    have hclosing := closing?_textOf h version hle
    rw [offsetAt_append] at hclosing
    refine ⟨⟨header.name, (first ++ phrase.map plain).length,
      closing? dialect.lexis (first ++ phrase.map plain ++ plain '(' :: back)
        (first ++ phrase.map plain).length⟩, ⟨first, phrase, back, by simp, rfl, hcode,
          ?_, read?_bracket_iff.mp hread, rfl⟩, ?_⟩
    · rw [← getLast?_textOf version]
      exact hlast
    · rw [TableSite.moved, offsetAt_append, ← hoffset, hclosing]
  · rintro ⟨site, ⟨front, phrase, back, hpieces, hopening, hcode, hlast, hread,
      hclosing⟩, rfl⟩
    rw [← List.append_assoc] at hpieces
    have htext : textOf version pieces =
        textOf version front ++ (phrase ++ '(' :: textOf version back) := by
      rw [hpieces, textOf_append, textOf_append, textOf_map_plain, List.append_assoc]
      rfl
    have hoffset : offsetAt version pieces site.opening =
        byteLength (textOf version front ++ phrase) := by
      rw [hopening, hpieces, offsetAt_append, textOf_append, textOf_map_plain]
    have hle : site.opening ≤ pieces.length := by
      rw [hopening, hpieces]
      simp
    refine ⟨byteLength (textOf version front),
      ⟨site.name, offsetAt version pieces site.opening⟩,
      ⟨textOf version front, phrase, textOf version back, htext, ?_,
        read?_bracket_iff.mpr hread, rfl, hoffset⟩, ?_, ?_⟩
    · rw [getLast?_textOf version false]
      exact hlast
    · rw [hoffset, htext, ← List.append_assoc]
      refine (Lexis.mem_brackets_iff _ _ _ .opening).mpr ?_
      have hsound := (sound_append.mp (hpieces ▸ h)).1
      rw [← hsound.run_eq version, textOf_append, textOf_map_plain] at hcode
      exact hcode
    · rw [closing?_textOf h version hle, ← hclosing]
      rfl

/-- A site is known by its place. -/
theorem IsSite.ext {other : TableSite} (h : IsSite dialect pieces site)
    (h' : IsSite dialect pieces other)
    (heq : site.moved (offsetAt version pieces) = other.moved (offsetAt version pieces)) :
    site = other := by
  have hle := Nat.le_of_lt h.opening_lt
  have hle' := Nat.le_of_lt h'.opening_lt
  obtain ⟨_, _, _, _, _, _, _, _, hclosing⟩ := h
  obtain ⟨_, _, _, _, _, _, _, _, hclosing'⟩ := h'
  obtain ⟨name, opening, closing⟩ := site
  obtain ⟨name', opening', closing'⟩ := other
  obtain ⟨rfl, hoffset, _⟩ := TableSite.mk.inj heq
  obtain rfl := offsetAt_injective hle hle' hoffset
  exact congrArg (TableSite.mk name opening) (hclosing.trans hclosing'.symm)

/-- A list of images is the image of a list. -/
theorem exists_eq_map {α β : Type} {f : α → β} {p : α → Prop} {images : List β}
    (h : ∀ image ∈ images, ∃ source, p source ∧ image = f source) :
    ∃ sources : List α, (∀ source ∈ sources, p source) ∧ images = sources.map f := by
  induction images with
  | nil => exact ⟨[], by simp, rfl⟩
  | cons image rest ih =>
      obtain ⟨source, hsource, rfl⟩ := h image List.mem_cons_self
      obtain ⟨sources, hsources, rfl⟩ := ih fun other hother =>
        h other (List.mem_cons_of_mem _ hother)
      exact ⟨source :: sources, List.forall_mem_cons.mpr ⟨hsource, hsources⟩, rfl⟩

/-- The texts have the same sites, each text at its own offsets. -/
theorem exists_sites (h : Sound dialect.lexis .code pieces) :
    ∃ sites : List TableSite, (∀ site ∈ sites, IsSite dialect pieces site) ∧
      ∀ version, TableSite.all dialect.lexis (textOf version pieces) =
        sites.map (TableSite.moved (offsetAt version pieces)) := by
  obtain ⟨sites, hsites, hfalse⟩ : ∃ sites : List TableSite,
      (∀ site ∈ sites, IsSite dialect pieces site) ∧
        TableSite.all dialect.lexis (textOf false pieces) =
          sites.map (TableSite.moved (offsetAt false pieces)) :=
    exists_eq_map fun found => (mem_all_textOf h false found).mp
  have hascending := TableSite.ascending_all dialect.lexis (textOf false pieces)
  rw [hfalse, List.pairwise_map] at hascending
  refine ⟨sites, hsites, fun version => ?_⟩
  -- Both lists ascend, so it is enough that they have the same members.
  let before : TableSite → TableSite → Prop := fun left right =>
    left.opening < right.opening
  have : Std.Irrefl before := ⟨fun site => Nat.lt_irrefl site.opening⟩
  refine List.Pairwise.eq_of_mem_iff (r := before) (TableSite.ascending_all _ _) ?_ ?_
  · rw [List.pairwise_map]
    refine hascending.imp_of_mem fun {left right} hleft hright hlt => ?_
    have hplaces := lt_of_offsetAt_lt (Nat.le_of_lt (hsites left hleft).opening_lt) hlt
    exact offsetAt_lt hplaces (Nat.le_of_lt (hsites right hright).opening_lt)
  · intro found
    rw [mem_all_textOf h version, List.mem_map]
    constructor
    · rintro ⟨site, hsite, rfl⟩
      have hmem := (mem_all_textOf h false _).mpr ⟨site, hsite, rfl⟩
      rw [hfalse] at hmem
      obtain ⟨other, hother, heq⟩ := List.mem_map.mp hmem
      exact ⟨site, (hsites other hother).ext hsite heq ▸ hother, rfl⟩
    · rintro ⟨site, hsite, rfl⟩
      exact ⟨site, hsites site hsite, rfl⟩

/-- The body of a closed site is made up of the pieces between its brackets. -/
theorem IsSite.exists_body (h : Sound dialect.lexis .code pieces)
    (hsite : IsSite dialect pieces site) {closing : Nat}
    (hclosing : site.closing = some closing) :
    ∃ inner, Sound dialect.lexis .code inner ∧ ∀ version,
      TableSite.body (textOf version pieces) (offsetAt version pieces site.opening)
        (offsetAt version pieces closing) = textOf version inner := by
  have hlt := hsite.opening_lt
  obtain ⟨first, phrase, back, hpieces, hopening, hcode, _, _, hpair⟩ := hsite
  rw [hclosing] at hpair
  rw [← List.append_assoc] at hpieces
  generalize first ++ phrase.map plain = front at hpieces hopening hcode
  have hbracket := mem_brackets_of_closing? hpair.symm
  obtain ⟨upto, behind, hupto, hplace, _⟩ : ∃ upto behind,
      pieces = upto ++ plain ')' :: behind ∧ closing = 0 + upto.length ∧
        (dialect.lexis.run .code (textOf false upto)).inCode = true :=
    exists_of_mem_brackets h hbracket
  rw [Nat.zero_add] at hplace
  have hlater : site.opening < closing := by
    have hoffsets := closing?_textOf h false (Nat.le_of_lt hlt)
    rw [← hpair] at hoffsets
    exact lt_of_offsetAt_lt (Nat.le_of_lt hlt) (Dialect.lt_of_closing? hoffsets)
  obtain ⟨inner, rfl, rfl⟩ : ∃ inner, upto = front ++ plain '(' :: inner ∧
      back = inner ++ plain ')' :: behind := by
    rcases List.append_eq_append_iff.mp (hpieces.symm.trans hupto) with
      ⟨between, hbetween, hrest⟩ | ⟨between, hbetween, _⟩
    · cases between with
      | nil =>
          rw [hopening, hplace, hbetween, List.append_nil] at hlater
          exact absurd hlater (Nat.lt_irrefl _)
      | cons piece inner =>
          obtain ⟨rfl, rfl⟩ := List.cons.inj hrest
          exact ⟨inner, hbetween, rfl⟩
    · rw [hopening, hplace, hbetween, List.length_append] at hlater
      omega
  subst hpieces
  have hsound := (sound_append.mp h).2
  rw [Sound, Lexis.step_eq_code hcode (Or.inl rfl), sound_append] at hsound
  refine ⟨inner, hsound.1, fun version => ?_⟩
  have hsize : byteLength (textOf version (front ++ plain '(' :: inner)) =
      byteLength (textOf version front) + 1 + byteLength (textOf version inner) := by
    rw [textOf_append, textOf_plain, byteLength_append, byteLength_cons,
      utf8Size_signs.2.2.1, Nat.add_assoc]
  rw [hopening, offsetAt_append, hplace, hupto, offsetAt_append, hsize, ← hupto,
    textOf_append, textOf_plain, textOf_append, textOf_plain]
  exact TableSite.body_append _ _ _

end sites

end Piece

end DdlDiagram
