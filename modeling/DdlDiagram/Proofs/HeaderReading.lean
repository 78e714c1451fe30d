/-
How the header of a table site is read.  Only its bracket is looked at to tell a
site from other headers.  A header holds no quote, no `-` and no `/`, so its text
leaves no literal and no block comment; what it can leave is a line comment, at a
newline between its words.  A header that begins in code is code throughout.
-/
import DdlDiagram.Proofs.HeaderPlace
import DdlDiagram.Proofs.Site

namespace DdlDiagram

open Text

namespace Lexis

/-- Every character of a text that is read from a mode is code. -/
def AllCode (lexis : Lexis) (mode : Mode) (text : Text) : Prop :=
  ∀ glyph ∈ lexis.trace mode text, glyph.mode.inCode = true

instance (lexis : Lexis) (mode : Mode) (text : Text) :
    Decidable (lexis.AllCode mode text) :=
  inferInstanceAs (Decidable (∀ glyph ∈ lexis.trace mode text, _))

section unmarked

variable {lexis : Lexis} {mode : Mode} {text : Text}

theorem AllCode.cons {c : Char} {rest : Text} (hmode : mode.inCode = true)
    (h : lexis.AllCode (lexis.step mode c) rest) :
    lexis.AllCode mode (c :: rest) := by
  intro glyph hglyph
  rcases List.mem_cons.mp hglyph with rfl | hglyph
  · exact hmode
  · exact h glyph hglyph

theorem AllCode.append {left right : Text} (hleft : lexis.AllCode mode left)
    (hright : lexis.AllCode (lexis.run mode left) right) :
    lexis.AllCode mode (left ++ right) := by
  intro glyph hglyph
  rw [trace_append] at hglyph
  rcases List.mem_append.mp hglyph with hglyph | hglyph
  · exact hleft glyph hglyph
  · exact hright glyph hglyph

/-- A character that is no mark begins no line comment, and ends neither a literal
nor a block comment. -/
theorem step_of_not_mem_marks (lexis : Lexis) {c : Char} (hc : c ∉ marks)
    (h : mode ≠ .line) :
    lexis.step mode c ≠ .line ∧
      (mode.inCode = false → (lexis.step mode c).inCode = false) := by
  simp only [marks, List.mem_cons, List.not_mem_nil, or_false, not_or] at hc
  cases mode with
  | line => contradiction
  | escaped => exact ⟨by simp [step], fun _ => rfl⟩
  | code | closed | dash | slash =>
      simp only [step, afterCode, hc, ↓reduceIte]
      refine ⟨?_, fun hcode => by contradiction⟩
      split_ifs <;> simp_all
  | literal | block | star =>
      simp only [step, hc, ↓reduceIte]
      split_ifs <;> exact ⟨by simp, fun _ => rfl⟩

/-- Text without marks that ends in code was code from where it began, or it began
in a line comment that one of its newlines ended. -/
theorem allCode_of_unmarked (htext : Unmarked text)
    (h : (lexis.run mode text).inCode = true) :
    mode.inCode = true ∧ lexis.AllCode mode text ∨
      mode = .line ∧ ∃ commented rest, text = commented ++ '\n' :: rest ∧
        '\n' ∉ commented ∧ lexis.AllCode .code rest ∧
          (lexis.run .code rest).inCode = true := by
  induction text generalizing mode with
  | nil => exact Or.inl ⟨h, by simp [AllCode]⟩
  | cons c tail ih =>
      have htail : Unmarked tail := fun other hother =>
        htext other (List.mem_cons_of_mem c hother)
      have hcode := h
      rw [run_cons] at hcode
      have ih := ih htail hcode
      rw [run_cons] at h
      by_cases hline : mode = .line
      · subst hline
        refine Or.inr ⟨rfl, ?_⟩
        by_cases hnewline : c = '\n'
        · subst hnewline
          rcases ih with ⟨_, hcode⟩ | ⟨hline, _⟩
          · exact ⟨[], tail, rfl, by simp, hcode, h⟩
          · contradiction
        · rw [step, if_neg hnewline] at ih
          rcases ih with ⟨hcode, _⟩ | ⟨_, commented, rest, rfl, hnot, hcode⟩
          · contradiction
          · refine ⟨c :: commented, rest, rfl, ?_, hcode⟩
            simp [Ne.symm hnewline, hnot]
      · obtain ⟨hne, hstays⟩ := step_of_not_mem_marks lexis
          (htext c List.mem_cons_self) hline
        rcases ih with ⟨hstep, hcode⟩ | ⟨hline, _⟩
        · have hmode : mode.inCode = true := by
            by_contra hnot
            rw [hstays (Bool.eq_false_iff.mpr hnot)] at hstep
            contradiction
          exact Or.inl ⟨hmode, hcode.cons hmode⟩
        · exact absurd hline hne

end unmarked

end Lexis

/-- The header of a table site stands in front of the site's opening bracket, where
no word runs into it.  It is code from its first character to that bracket, unless it
begins in a line comment; then the comment ends at the first newline of the header,
and the header is code from there to the bracket.  No character of it stands in a
literal or in a block comment. -/
theorem site_header_read {dialect : Dialect} {text : Text} {site : TableSite}
    (h : site ∈ TableSite.all dialect.lexis text) :
    ∃ front phrase body, text = front ++ (phrase ++ '(' :: body) ∧
      Header.read? (phrase ++ '(' :: body) = some (site.name, body) ∧
      front.getLast?.any isWordChar = false ∧
      site.opening = byteLength (front ++ phrase) ∧
      (dialect.lexis.AllCode (dialect.lexis.run .code front) (phrase ++ ['(']) ∨
        dialect.lexis.run .code front = .line ∧
          ∃ commented rest, phrase = commented ++ '\n' :: rest ∧
            '\n' ∉ commented ∧ dialect.lexis.AllCode .code (rest ++ ['('])) := by
  obtain ⟨header, hheader, hsite⟩ := List.mem_filterMap.mp h
  obtain ⟨front, phrase, body, rfl, hlast, hphrase, hread, hopening⟩ :=
    (Header.finds_searchFrom none 0 text).exists_of_mem hheader
  rw [Nat.zero_add] at hopening
  rw [Option.or_none] at hlast
  have hcode : (dialect.lexis.run .code (front ++ phrase)).inCode = true := by
    by_contra hnot
    have hnone : TableSite.ofHeader?
        (dialect.lexis.bracketPairs ((front ++ phrase) ++ '(' :: body))
          ⟨header.name, byteLength (front ++ phrase)⟩ = none :=
      TableSite.ofHeader?_eq_none (Bool.eq_false_iff.mpr hnot)
    rw [← hopening, List.append_assoc] at hnone
    rw [hnone] at hsite
    contradiction
  have hheld : site.name = header.name ∧ site.opening = header.opening := by
    obtain ⟨pair, _, rfl⟩ := Option.map_eq_some_iff.mp hsite
    exact ⟨rfl, rfl⟩
  have hbracket : ∀ {mode : Mode}, mode.inCode = true →
      dialect.lexis.AllCode mode ['('] := by
    intro mode hmode glyph hglyph
    rw [List.mem_singleton.mp hglyph]
    exact hmode
  refine ⟨front, phrase, body, rfl, by rw [hheld.1]; exact hread, hlast,
    hheld.2.trans hopening, ?_⟩
  rw [Lexis.run_append] at hcode
  rcases Lexis.allCode_of_unmarked hphrase hcode with
    ⟨_, hall⟩ | ⟨hline, commented, rest, rfl, hnot, hall, hrest⟩
  · exact Or.inl (hall.append (hbracket hcode))
  · refine Or.inr ⟨hline, commented, rest, rfl, hnot, hall.append (hbracket hrest)⟩

/-- A header begins with a letter that spells `C`. -/
theorem Header.exists_of_read? {text : Text} (h : (Header.read? text).isSome) :
    ∃ c rest, text = c :: rest ∧ foldCapital c = 'C' := by
  cases text with
  | nil => contradiction
  | cons c rest =>
      refine ⟨c, rest, rfl, ?_⟩
      by_contra hne
      rw [opensWith_read? _ (Phrase.afterSpacedKeyword?_of_ne hne)] at h
      contradiction

/-- A header that begins in a line comment and ends behind it makes a table. -/
theorem site_header_read_commented :
    ⟨"ghost".toList, 22, some 29⟩ ∈ TableSite.all Dialect.mysql.lexis
        "-- CREATE TABLE\nghost (id INT);".toList ∧
      ∃ front phrase body, "-- CREATE TABLE\nghost (id INT);".toList =
          front ++ (phrase ++ '(' :: body) ∧
        Header.read? (phrase ++ '(' :: body) = some ("ghost".toList, body) ∧
        22 = byteLength (front ++ phrase) := by
  have hsite : ⟨"ghost".toList, 22, some 29⟩ ∈ TableSite.all Dialect.mysql.lexis
      "-- CREATE TABLE\nghost (id INT);".toList := by decide +kernel
  obtain ⟨front, phrase, body, htext, hread, _, hopening, _⟩ :=
    site_header_read hsite
  exact ⟨hsite, front, phrase, body, htext, hread, hopening⟩

/-- No header in the same text is code throughout, though one makes a table. -/
theorem site_header_not_allCode :
    ⟨"ghost".toList, 22, some 29⟩ ∈ TableSite.all Dialect.mysql.lexis
        "-- CREATE TABLE\nghost (id INT);".toList ∧
      ¬ ∃ front phrase body, "-- CREATE TABLE\nghost (id INT);".toList =
          front ++ (phrase ++ '(' :: body) ∧
        (Header.read? (phrase ++ '(' :: body)).isSome ∧
        Dialect.mysql.lexis.AllCode (Dialect.mysql.lexis.run .code front)
          (phrase ++ ['(']) := by
  refine ⟨by decide +kernel, ?_⟩
  rintro ⟨front, phrase, body, htext, hread, hcode⟩
  have hcomment : ∀ glyph ∈ Dialect.mysql.lexis.trace .code
      "-- CREATE TABLE\nghost (id INT);".toList,
      foldCapital glyph.char = 'C' → glyph.mode.inCode = false := by decide
  obtain ⟨c, rest, hsplit, hc⟩ := Header.exists_of_read? hread
  cases phrase with
  | nil =>
      rw [← (List.cons.inj hsplit).1] at hc
      exact absurd hc (by decide)
  | cons first phrase =>
      rw [← (List.cons.inj hsplit).1] at hc
      have hfirst := hcode ⟨_, first⟩ List.mem_cons_self
      have hmem : ⟨Dialect.mysql.lexis.run .code front, first⟩ ∈
          Dialect.mysql.lexis.trace .code
            "-- CREATE TABLE\nghost (id INT);".toList := by
        rw [htext, Lexis.trace_append]
        exact List.mem_append_right _ List.mem_cons_self
      rw [hcomment _ hmem hc] at hfirst
      contradiction

end DdlDiagram
