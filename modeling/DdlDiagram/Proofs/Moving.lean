/-
Offsets after an edit.  When text is put in front of a text, or changed between two
places of it, what is found behind the change is found again at another offset:
brackets, their pairs, headers and table sites move, and nothing else changes.
-/
import DdlDiagram.Proofs.Coherence
import DdlDiagram.Proofs.HeaderPlace
import DdlDiagram.Proofs.Site

namespace DdlDiagram

open Text

/-- The bracket at another offset. -/
def Bracket.moved (place : Nat → Nat) (bracket : Bracket) : Bracket :=
  ⟨place bracket.offset, bracket.side⟩

/-- The pair at other offsets. -/
def BracketPair.moved (place : Nat → Nat) (pair : BracketPair) : BracketPair :=
  ⟨place pair.opening, pair.closing.map place⟩

/-- The header at another offset. -/
def Header.moved (place : Nat → Nat) (header : Header) : Header :=
  ⟨header.name, place header.opening⟩

/-- The site at other offsets. -/
def TableSite.moved (place : Nat → Nat) (site : TableSite) : TableSite :=
  ⟨site.name, place site.opening, site.closing.map place⟩

namespace Bracket

variable {place : Nat → Nat}

/-- Brackets are found at offsets counted from where the text begins. -/
theorem ofGlyphs_add (start offset : Nat) (glyphs : List Glyph) :
    ofGlyphs (start + offset) glyphs =
      (ofGlyphs offset glyphs).map (moved (start + ·)) := by
  induction glyphs generalizing offset with
  | nil => rfl
  | cons glyph rest ih =>
      simp only [ofGlyphs, Nat.add_assoc, ih]
      split
      · rfl
      · split <;> rfl

/-- Pairing looks at the order of brackets only. -/
theorem pairUp_map (place : Nat → Nat) (brackets : List Bracket) :
    pairUp (brackets.map (moved place)) =
      ((pairUp brackets).1.map (BracketPair.moved place),
        (pairUp brackets).2.map place) := by
  induction brackets with
  | nil => rfl
  | cons bracket rest ih =>
      obtain ⟨offset, side⟩ := bracket
      cases side with
      | closing => simp [pairUp, moved, ih]
      | opening =>
          rcases hwaiting : (pairUp rest).2 with _ | ⟨nearest, others⟩
          · simp [pairUp, moved, ih, hwaiting, BracketPair.moved]
          · simp [pairUp, moved, ih, hwaiting, BracketPair.moved]

/-- Brackets behind which no closing bracket waits pair by themselves. -/
theorem pairUp_append {left right : List Bracket} (h : (pairUp right).2 = []) :
    pairUp (left ++ right) =
      ((pairUp left).1 ++ (pairUp right).1, (pairUp left).2) := by
  induction left with
  | nil => exact Prod.ext rfl h
  | cons bracket rest ih =>
      obtain ⟨offset, side⟩ := bracket
      cases side with
      | closing => simp [pairUp, ih]
      | opening =>
          rcases hwaiting : (pairUp rest).2 with _ | ⟨nearest, others⟩
          · simp [pairUp, ih, hwaiting]
          · simp [pairUp, ih, hwaiting]

/-- Every closing bracket closes one that is open or waits. -/
theorem closings_pairUp (brackets : List Bracket) :
    ((pairUp brackets).1.filterMap BracketPair.closing ++
        (pairUp brackets).2).Perm
      ((brackets.filter fun bracket => bracket.side = .closing).map
        Bracket.offset) := by
  induction brackets with
  | nil => exact .refl _
  | cons bracket rest ih =>
      obtain ⟨offset, side⟩ := bracket
      cases side with
      | closing =>
          rw [List.filter_cons_of_pos (by rfl), List.map_cons]
          exact List.perm_middle.trans (ih.cons offset)
      | opening =>
          rw [List.filter_cons_of_neg (by simp)]
          refine List.Perm.trans ?_ ih
          rcases hwaiting : (pairUp rest).2 with _ | ⟨nearest, others⟩
          · simp [pairUp, hwaiting]
          · simp only [pairUp, hwaiting]
            exact List.perm_middle.symm

end Bracket

namespace Header

variable {previous : Option Char} {offset : Nat} {text : Text}
  {found : List Header}

theorem Finds.moved (start : Nat) (h : Finds previous offset text found) :
    Finds previous (start + offset) text
      (found.map (Header.moved (start + ·))) := by
  induction h with
  | done => exact .done
  | pass hnone _ ih =>
      refine .pass hnone ?_
      rw [Nat.add_assoc]
      exact ih
  | @found previous offset front name body found hprevious hfront hne hread _
      ih =>
      have hlater := ih
      rw [← Nat.add_assoc, ← Nat.add_assoc] at hlater
      rw [List.map_cons, Header.moved, ← Nat.add_assoc]
      exact .found hprevious hfront hne hread hlater

/-- Headers are found at offsets counted from where the text begins. -/
theorem searchFrom_add (start offset : Nat) (previous : Option Char)
    (text : Text) :
    searchFrom previous (start + offset) 0 text =
      (searchFrom previous offset 0 text).map (Header.moved (start + ·)) :=
  ((finds_searchFrom previous offset text).moved start).eq_searchFrom

end Header

/-- A header has a site among moved pairs when it had one before they were
moved. -/
theorem TableSite.ofHeader?_moved {place : Nat → Nat} {pairs : List BracketPair}
    {header : Header} (hplace : ∀ pair ∈ pairs,
      place pair.opening = place header.opening → pair.opening = header.opening) :
    ofHeader? (pairs.map (BracketPair.moved place)) (header.moved place) =
      (ofHeader? pairs header).map (moved place) := by
  have hfound : (pairs.map (BracketPair.moved place)).find?
      (·.opening == place header.opening) =
        (pairs.find? (·.opening == header.opening)).map
          (BracketPair.moved place) := by
    induction pairs with
    | nil => rfl
    | cons pair rest ih =>
        have ih := ih fun other hother =>
          hplace other (List.mem_cons_of_mem pair hother)
        by_cases hpair : pair.opening = header.opening
        · simp [BracketPair.moved, hpair]
        · have hne : place pair.opening ≠ place header.opening :=
            fun heq => hpair (hplace pair List.mem_cons_self heq)
          rw [List.map_cons,
            List.find?_cons_of_neg (by simpa [BracketPair.moved] using hne),
            List.find?_cons_of_neg (by simpa using hpair), ih]
  rw [ofHeader?, ofHeader?, Header.moved, hfound, Option.map_map,
    Option.map_map]
  rfl

namespace Lexis

/-- Brackets stand inside their text. -/
theorem offset_lt_of_mem_brackets {lexis : Lexis} {text : Text}
    {bracket : Bracket} (h : bracket ∈ lexis.brackets text) :
    bracket.offset < byteLength text := by
  obtain ⟨offset, side⟩ := bracket
  obtain ⟨left, right, hsplit⟩ := List.append_of_mem h
  obtain ⟨front, back, rfl, hoffset, _⟩ := exists_of_ofGlyphs_eq hsplit
  have hpos := side.char.utf8Size_pos
  rw [byteLength_append, byteLength_cons]
  change offset < _
  omega

end Lexis

/-- Headers stand inside their text. -/
theorem Header.opening_lt_of_mem {text : Text} {header : Header}
    (h : header ∈ all text) : header.opening < byteLength text := by
  obtain ⟨front, phrase, body, rfl, _, _, _, hopening⟩ :=
    (finds_searchFrom none 0 text).exists_of_mem h
  rw [hopening, ← List.append_assoc, byteLength_append (front ++ phrase),
    byteLength_cons]
  change 0 + _ < _ + (1 + _)
  omega

namespace TableSite

variable {dialect : Dialect} {text : Text}

/-- The brackets of a site pair in its text. -/
theorem closing?_of_mem {site : TableSite} (h : site ∈ all dialect.lexis text) :
    dialect.lexis.closing? text site.opening = site.closing := by
  obtain ⟨header, _, hsite⟩ := List.mem_filterMap.mp h
  obtain ⟨pair, hpair, rfl⟩ := Option.map_eq_some_iff.mp hsite
  rw [Lexis.closing?, hpair]
  rfl

/-- Sites ascend. -/
theorem ascending_all (lexis : Lexis) (text : Text) :
    (all lexis text).Pairwise fun left right => left.opening < right.opening := by
  apply (Header.finds_searchFrom none 0 text).ascending.2.filterMap
  intro left right hlt site hsite site' hsite'
  obtain ⟨pair, _, rfl⟩ := Option.map_eq_some_iff.mp hsite
  obtain ⟨pair', _, rfl⟩ := Option.map_eq_some_iff.mp hsite'
  exact hlt

/-- Bodies that are found again at other offsets define the same tables. -/
theorem definitions_moved {text' : Text} {place : Nat → Nat}
    {sites : List TableSite}
    (h : ∀ site ∈ sites, ∀ closing, site.closing = some closing →
      body text' (place site.opening) (place closing) =
        body text site.opening closing) :
    definitions text' (sites.map (moved place)) = definitions text sites := by
  rw [definitions, List.filterMap_map]
  apply List.filterMap_congr
  intro site hsite
  cases hclosing : site.closing with
  | none => simp [moved, hclosing]
  | some closing => simp [moved, hclosing, h site hsite closing hclosing]

/-- The tables that a text defines, each with its body. -/
def defined (dialect : Dialect) (text : Text) : List (Text × Text) :=
  definitions text (all dialect.lexis text)

end TableSite

/-- The schema of a text adds the tables that the text defines. -/
theorem Extraction.ofText_schema (dialect : Dialect) (text : Text) :
    (ofText dialect text).schema =
      Schema.empty.addTables dialect (TableSite.defined dialect text) :=
  ofSites_schema dialect text Schema.empty _

end DdlDiagram
