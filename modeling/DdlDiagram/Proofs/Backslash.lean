/-
What the dialect decides about extraction.  Two readings agree on a text when they
find the same comments and take a backslash in a literal alike, or the text has no
backslash.  Each stage hands on characters of its text and a few signs of its own,
none of them a backslash, so readings that agree on a text agree on its bodies,
clauses and columns.
-/
import DdlDiagram.Extraction
import DdlDiagram.Proofs.Balance
import DdlDiagram.Proofs.Wording
import Mathlib.Data.List.Basic

namespace DdlDiagram

open Text

namespace Text

variable {c : Char} {text : Text}

theorem mem_of_mem_trim (h : c ∈ trim text) : c ∈ text :=
  mem_of_mem_trimMatching (show c ∈ trimMatching isBlank text from h)

theorem mem_of_mem_dropBytes {count : Nat} (h : c ∈ dropBytes count text) :
    c ∈ text := by
  fun_induction dropBytes count text with
  | case1 => exact h
  | case2 => exact h
  | case3 count first rest ih => exact List.mem_cons_of_mem first (ih h)

theorem mem_of_mem_takeBytes {count : Nat} (h : c ∈ takeBytes count text) :
    c ∈ text := by
  fun_induction takeBytes count text with
  | case1 => contradiction
  | case2 => exact h
  | case3 count first rest ih =>
      rcases List.mem_cons.mp h with rfl | h
      · exact List.mem_cons_self
      · exact List.mem_cons_of_mem first (ih h)

theorem mem_of_mem_between {start stop : Nat} (h : c ∈ between start stop text) :
    c ∈ text :=
  mem_of_mem_dropBytes (mem_of_mem_takeBytes h)

end Text

namespace Lexis

/-- Two readings that find the same comments, and between which a backslash makes a
difference only where the text has none. -/
structure Agree (first second : Lexis) (text : Text) : Prop where
  comments : first.comments = second.comments
  escapes : '\\' ∈ text → first.escapes = second.escapes

section origin

variable {lexis : Lexis} {mode : Mode} {c : Char} {text : Text}

theorem char_mem_of_mem_trace {glyph : Glyph} (h : glyph ∈ lexis.trace mode text) :
    glyph.char ∈ text := by
  rw [← map_char_trace lexis mode text]
  exact List.mem_map_of_mem h

/-- What stands for comments, or waits until it is known whether one begins. -/
def separators : List Char :=
  ['-', '/', '\n', ' ']

/-- Whatever a text without comments keeps, other than a separator, was read. -/
theorem eq_of_mem_kept (hc : c ∉ separators) {glyph : Glyph} (h : c ∈ kept glyph) :
    glyph.char = c := by
  obtain ⟨mode, read⟩ := glyph
  have hreleased : c ∈ released read → read = c := by
    intro hmem
    rw [released] at hmem
    split at hmem
    · contradiction
    · exact (List.mem_singleton.mp hmem).symm
  have hdash : c ≠ '-' := fun heq => hc (heq ▸ by decide)
  have hslash : c ≠ '/' := fun heq => hc (heq ▸ by decide)
  have hnewline : c ≠ '\n' := fun heq => hc (heq ▸ by decide)
  have hspace : c ≠ ' ' := fun heq => hc (heq ▸ by decide)
  cases mode with
  | code | closed => exact hreleased h
  | dash =>
      simp only [kept] at h
      split at h
      · contradiction
      · exact hreleased ((List.mem_cons.mp h).resolve_left hdash)
  | slash =>
      simp only [kept] at h
      split at h
      · contradiction
      · exact hreleased ((List.mem_cons.mp h).resolve_left hslash)
  | literal | escaped => exact (List.mem_singleton.mp h).symm
  | block => contradiction
  | line =>
      simp only [kept] at h
      split at h
      · exact absurd (List.mem_singleton.mp h) hnewline
      · contradiction
  | star =>
      simp only [kept] at h
      split at h
      · exact absurd (List.mem_singleton.mp h) hspace
      · contradiction

theorem mem_of_mem_withoutComments (hc : c ∉ separators)
    (h : c ∈ lexis.withoutComments text) : c ∈ text := by
  have hend : ∀ mode : Mode, keptAtEnd mode ⊆ separators := by
    intro mode
    cases mode <;> decide
  rcases List.mem_append.mp h with h | h
  · obtain ⟨glyph, hglyph, hkept⟩ := List.mem_flatMap.mp h
    rw [← eq_of_mem_kept hc hkept]
    exact char_mem_of_mem_trace hglyph
  · exact absurd (hend _ h) hc

theorem mem_of_mem_cutParts {depth : Int} {glyphs : List Glyph} {part : Text}
    (hpart : part ∈ (cutParts depth glyphs).1 :: (cutParts depth glyphs).2)
    (hc : c ∈ part) : c ∈ glyphs.map Glyph.char := by
  induction glyphs generalizing depth part with
  | nil => simp_all [cutParts]
  | cons glyph rest ih =>
      rw [List.map_cons, List.mem_cons]
      rw [cutParts] at hpart
      split at hpart
      · rcases List.mem_cons.mp hpart with rfl | hpart
        · contradiction
        · exact Or.inr (ih hpart hc)
      · rcases List.mem_cons.mp hpart with rfl | hpart
        · rcases List.mem_cons.mp hc with rfl | hc
          · exact Or.inl rfl
          · exact Or.inr (ih List.mem_cons_self hc)
        · exact Or.inr (ih (List.mem_cons_of_mem _ hpart) hc)

/-- The parts of a body hold characters of the body only. -/
theorem mem_of_mem_parts {part : Text} (hpart : part ∈ lexis.parts text)
    (hc : c ∈ part) : c ∈ text := by
  obtain ⟨raw, hraw, rfl⟩ := List.mem_map.mp (mem_of_mem_dropEmptyLast hpart)
  have hmem := mem_of_mem_cutParts hraw (mem_of_mem_trim hc)
  rwa [map_char_trace] at hmem

end origin

namespace Agree

variable {first second : Lexis} {text part : Text}

/-- Readings agree on whatever brings in no backslash. -/
theorem mono (h : Agree first second text) (hpart : '\\' ∈ part → '\\' ∈ text) :
    Agree first second part :=
  ⟨h.comments, fun hmem => h.escapes (hpart hmem)⟩

theorem tail {c : Char} (h : Agree first second (c :: text)) :
    Agree first second text :=
  h.mono (List.mem_cons_of_mem c)

/-- Both readings go on to the same mode behind a character. -/
theorem step {c : Char} (h : Agree first second (c :: text)) (mode : Mode) :
    first.step mode c = second.step mode c := by
  have hcode : first.afterCode c = second.afterCode c := by
    simp only [afterCode, h.comments]
  cases mode with
  | code | closed => exact hcode
  | dash | slash => simp only [Lexis.step, hcode]
  | literal =>
      by_cases hc : c = '\\'
      · subst hc
        simp only [Lexis.step, h.escapes List.mem_cons_self]
      · simp [Lexis.step, hc]
  | escaped | line | block | star => rfl

theorem trace (h : Agree first second text) (mode : Mode) :
    first.trace mode text = second.trace mode text := by
  induction text generalizing mode with
  | nil => rfl
  | cons c rest ih => rw [trace_cons, trace_cons, h.step, ih h.tail]

theorem run (h : Agree first second text) (mode : Mode) :
    first.run mode text = second.run mode text := by
  induction text generalizing mode with
  | nil => rfl
  | cons c rest ih => rw [run_cons, run_cons, h.step, ih h.tail]

theorem bracketPairs (h : Agree first second text) :
    first.bracketPairs text = second.bracketPairs text := by
  rw [Lexis.bracketPairs, Lexis.bracketPairs, brackets, brackets, h.trace]

theorem withoutComments (h : Agree first second text) :
    first.withoutComments text = second.withoutComments text := by
  rw [Lexis.withoutComments, Lexis.withoutComments, h.trace, h.run]

theorem parts (h : Agree first second text) :
    first.parts text = second.parts text := by
  rw [Lexis.parts, Lexis.parts, h.trace]

theorem blanked {glyph : Glyph} (h : Agree first second text)
    (hglyph : glyph.char ∈ text) : first.blanked glyph = second.blanked glyph := by
  by_cases hc : glyph.char = '\\'
  · simp only [Lexis.blanked, h.escapes (hc ▸ hglyph)]
  · simp [Lexis.blanked, hc]

theorem blankLiterals (h : Agree first second text) :
    first.blankLiterals text = second.blankLiterals text := by
  rw [Lexis.blankLiterals, Lexis.blankLiterals, h.trace, h.run]
  congr 1
  apply List.flatMap_congr
  intro glyph hglyph
  exact h.blanked (char_mem_of_mem_trace hglyph)

theorem sites (h : Agree first second text) :
    TableSite.all first text = TableSite.all second text := by
  rw [TableSite.all, TableSite.all, h.bracketPairs]

/-- A clause says the same in both readings. -/
theorem read (h : Agree first second text) :
    Clause.read first text = Clause.read second text := by
  simp only [Clause.read, Clause.Declaration.read?, h.blankLiterals]

end Agree

end Lexis

namespace Dialect

/-- Two dialects that read a text alike: both or neither let a backslash in a
literal take the next character with it, or the text has no backslash. -/
def ReadAlike (first second : Dialect) (text : Text) : Prop :=
  '\\' ∈ text → first.backslashEscapes = second.backslashEscapes

namespace ReadAlike

variable {first second : Dialect} {text part : Text}

theorem mono (h : ReadAlike first second text) (hpart : '\\' ∈ part → '\\' ∈ text) :
    ReadAlike first second part :=
  fun hmem => h (hpart hmem)

theorem lexis (h : ReadAlike first second text) :
    first.lexis.Agree second.lexis text :=
  ⟨rfl, h⟩

theorem literalLexis (h : ReadAlike first second text) :
    first.literalLexis.Agree second.literalLexis text :=
  ⟨rfl, h⟩

/-- A body has the same clauses in both dialects. -/
theorem clauses (h : ReadAlike first second text) :
    TableBody.clauses first text = TableBody.clauses second text := by
  have hcode : ReadAlike first second (first.lexis.withoutComments text) :=
    h.mono (Lexis.mem_of_mem_withoutComments (by decide))
  simp only [TableBody.clauses]
  rw [← h.lexis.withoutComments, ← hcode.literalLexis.parts]
  apply List.map_congr_left
  intro part hpart
  have hread : ReadAlike first second part :=
    hcode.mono (Lexis.mem_of_mem_parts (List.mem_filter.mp hpart).1)
  exact hread.literalLexis.read

/-- Adding a table comes to the same in both dialects. -/
theorem addTable (h : ReadAlike first second text) (schema : Schema) (name : Text) :
    schema.addTable first name text = schema.addTable second name text := by
  simp only [Schema.addTable, TableBody.read, TableBody.outcomes, h.clauses]

theorem ofSites (h : ReadAlike first second text) (schema : Schema)
    (sites : List TableSite) :
    Extraction.ofSites first text schema sites =
      Extraction.ofSites second text schema sites := by
  induction sites generalizing schema with
  | nil => rfl
  | cons site rest ih =>
      cases hclosing : site.closing with
      | none => simp only [Extraction.ofSites, hclosing, ih]
      | some closing =>
          have hbody : ReadAlike first second
              (TableSite.body text site.opening closing) :=
            h.mono mem_of_mem_between
          simp only [Extraction.ofSites, hclosing, hbody.addTable, ih]

end ReadAlike

end Dialect

/-- The dialect of a clean text only decides how backslashes in its literals are
read: dialects other than MySQL extract the same from every text, and all dialects
do from a text without a backslash. -/
theorem Extraction.ofText_dialect (text : Text) (first second : Dialect)
    (h : first ≠ .mysql ∧ second ≠ .mysql ∨ '\\' ∉ text) :
    ofText first text = ofText second text := by
  have hnone : ∀ dialect : Dialect, dialect ≠ .mysql →
      dialect.backslashEscapes = false := by
    intro dialect hne
    cases dialect <;> first | rfl | contradiction
  have halike : Dialect.ReadAlike first second text := by
    rcases h with ⟨hfirst, hsecond⟩ | hmem
    · intro _
      rw [hnone first hfirst, hnone second hsecond]
    · intro hback
      exact absurd hback hmem
  rw [ofText, ofText, ← halike.lexis.sites]
  exact halike.ofSites Schema.empty _

/-- A literal that ends in a backslash hides the key behind it from MySQL alone;
without a backslash MySQL sees what SQL Server sees. -/
theorem Extraction.ofText_dialect_backslash :
    let backslash :=
      "CREATE TABLE t (a TEXT DEFAULT '\\' PRIMARY KEY, b INT) -- '".toList
    let plain := "CREATE TABLE t (a TEXT DEFAULT '''' PRIMARY KEY, b INT)".toList
    ofText .postgres backslash = ofText .generic backslash ∧
      ofText .mysql backslash ≠ ofText .generic backslash ∧
      '\\' ∉ plain ∧ ofText .mysql plain = ofText .mssql plain :=
  ⟨ofText_dialect _ .postgres .generic (Or.inl ⟨by decide, by decide⟩),
    by decide +kernel, by decide,
    ofText_dialect _ .mysql .mssql (Or.inr (by decide))⟩

end DdlDiagram
