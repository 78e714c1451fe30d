/-
The names that a list of columns spells.  A list is its entries with commas between them,
and an entry is a name in quotes or without, perhaps a length in brackets and perhaps more
words; what is read of a list is what its entries name.
-/
import DdlDiagram.Proofs.LinkTarget
import Mathlib.Data.List.Forall2

namespace DdlDiagram

open Text

namespace Text

/-- A text is what is trimmed of it, with characters of the class on both sides. -/
theorem exists_trimMatching (isEdge : Char → Bool) (text : Text) :
    ∃ front back, text = front ++ (trimMatching isEdge text ++ back) ∧
      (∀ c ∈ front, isEdge c = true) ∧ ∀ c ∈ back, isEdge c = true := by
  have hreverse := List.takeWhile_append_dropWhile (p := isEdge)
    (l := (text.dropWhile isEdge).reverse)
  refine ⟨text.takeWhile isEdge,
    ((text.dropWhile isEdge).reverse.takeWhile isEdge).reverse, ?_,
    fun _ hc => List.mem_takeWhile_imp hc,
    fun _ hc => List.mem_takeWhile_imp (List.mem_reverse.mp hc)⟩
  rw [trimMatching, ← List.reverse_append, hreverse, List.reverse_reverse,
    List.takeWhile_append_dropWhile]

/-- Of characters of the class alone nothing is left. -/
theorem trimMatching_eq_nil {isEdge : Char → Bool} {text : Text}
    (h : ∀ c ∈ text, isEdge c = true) : trimMatching isEdge text = [] := by
  rw [trimMatching, List.dropWhile_eq_nil_iff.mpr h]
  rfl

/-- What stands in front of a mark goes up to the first of them. -/
theorem before_eq_iff {mark : Char} {text front : Text} :
    before mark text = front ↔
      ∃ back, text = front ++ back ∧ mark ∉ front ∧ ∀ c ∈ back.head?, c = mark := by
  constructor
  · rintro rfl
    refine ⟨text.dropWhile (· != mark), List.takeWhile_append_dropWhile.symm, fun hmem => ?_,
      fun c hc => by simpa using stops_dropWhile (· != mark) text c hc⟩
    simpa using List.mem_takeWhile_imp hmem
  · rintro ⟨back, rfl, hfront, hback⟩
    apply takeWhile_solid_append
    · intro c hc
      rw [bne_iff_ne]
      rintro rfl
      exact hfront hc
    · intro c hc
      simp [hback c hc]

/-- The first word of a text behind blanks, and the rest, which is empty or begins with a
blank. -/
def LeadsWord (text word rest : Text) : Prop :=
  ∃ lead, text = lead ++ (word ++ rest) ∧ (∀ c ∈ lead, isBlank c = true) ∧ IsWord word ∧
    Breaks rest

theorem leadsWord_iff {text word rest : Text} :
    LeadsWord text word rest ↔ word ≠ [] ∧ firstWord text = word ∧ afterWord text = rest := by
  constructor
  · rintro ⟨lead, rfl, hlead, hword, hrest⟩
    have htrim : trimStart (lead ++ (word ++ rest)) = word ++ rest := by
      rw [trimStart, List.dropWhile_append_of_pos hlead]
      exact trimStart_isWord_append hword
    have hsolid : ∀ c ∈ word, (!isBlank c) = true := fun c hc => by simp [hword.2 c hc]
    have hends : ∀ c ∈ rest.head?, (!isBlank c) = false := fun c hc => by simp [hrest c hc]
    rw [firstWord, afterWord, htrim]
    exact ⟨hword.1, takeWhile_solid_append hsolid hends, dropWhile_solid_append hsolid hends⟩
  · rintro ⟨hne, rfl, rfl⟩
    obtain ⟨lead, hlead, hblanks⟩ := Phrase.trimStart_split text
    refine ⟨lead, ?_, hblanks, ⟨hne, fun c hc => ?_⟩, fun c hc => ?_⟩
    · rw [firstWord, afterWord, List.takeWhile_append_dropWhile]
      exact hlead
    · simpa using List.mem_takeWhile_imp hc
    · simpa using stops_dropWhile (fun c => !isBlank c) _ c hc

end Text

namespace Clause

/-- A name with quotes around it or without: it has none itself at either end. -/
def QuotedName (quoted name : Text) : Prop :=
  ∃ opening closing, quoted = opening ++ (name ++ closing) ∧
    (∀ c ∈ opening, isQuote c = true) ∧ (∀ c ∈ closing, isQuote c = true) ∧
    (∀ c ∈ name.head?, isQuote c = false) ∧ ∀ c ∈ name.getLast?, isQuote c = false

/-- An entry of a list names a column: a name with or without quotes is its first word, up
to a bracket that may open behind it.  An entry of blanks names the empty text. -/
inductive EntryNames : Text → Text → Prop
  | blank {entry : Text} (hentry : ∀ c ∈ entry, isBlank c = true) : EntryNames entry []
  | word {entry quoted name length behind : Text}
      (hword : LeadsWord entry (quoted ++ length) behind) (hname : QuotedName quoted name)
      (hbracket : '(' ∉ name) (hlength : ∀ c ∈ length.head?, c = '(') :
      EntryNames entry name

/-- A list names columns: those of its entries in their order, where an entry that names
the empty text names none. -/
def ListNames (list : Text) (names : List Text) : Prop :=
  ∃ entries named, entries ≠ [] ∧ list = joined [','] entries ∧
    (∀ entry ∈ entries, ',' ∉ entry) ∧ List.Forall₂ EntryNames entries named ∧
    names = named.filter fun name => !name.isEmpty

variable {entry quoted name list : Text} {names : List Text}

/-- Quotes around a name do not belong to it. -/
theorem quotedName_iff : QuotedName quoted name ↔ unquoted quoted = name := by
  constructor
  · rintro ⟨opening, closing, rfl, hopening, hclosing, hfirst, hlast⟩
    by_cases hne : name = []
    · subst hne
      apply trimMatching_eq_nil
      intro c hc
      rcases List.mem_append.mp hc with hc | hc
      · exact hopening c hc
      · exact hclosing c hc
    · exact trimMatching_framed hopening hclosing hne hfirst hlast
  · rintro rfl
    obtain ⟨opening, closing, hquoted, hopening, hclosing⟩ := exists_trimMatching isQuote quoted
    exact ⟨opening, closing, hquoted, hopening, hclosing, head?_trimMatching isQuote quoted,
      getLast?_trimMatching isQuote quoted⟩

/-- No bracket is a quote. -/
theorem QuotedName.bracket_not_mem_iff (h : QuotedName quoted name) :
    '(' ∉ quoted ↔ '(' ∉ name := by
  obtain ⟨opening, closing, rfl, hopening, hclosing, _⟩ := h
  have hquotes : ∀ {quotes : Text}, (∀ c ∈ quotes, isQuote c = true) → '(' ∉ quotes := by
    intro quotes hquotes hmem
    have hquote := hquotes '(' hmem
    contradiction
  simp [hquotes hopening, hquotes hclosing]

/-- What is read of an entry is what it names. -/
theorem EntryNames.unquoted_eq (h : EntryNames entry name) :
    unquoted (before '(' (firstWord entry)) = name := by
  cases h with
  | blank hentry =>
      have hnone : trimStart entry = [] := List.dropWhile_eq_nil_iff.mpr hentry
      rw [firstWord, hnone]
      rfl
  | word hword hname hbracket hlength =>
      rw [(leadsWord_iff.mp hword).2.1, before_eq_iff.mpr
        ⟨_, rfl, hname.bracket_not_mem_iff.mpr hbracket, hlength⟩]
      exact quotedName_iff.mp hname

/-- Every entry names what is read of it. -/
theorem entryNames (entry : Text) :
    EntryNames entry (unquoted (before '(' (firstWord entry))) := by
  by_cases hnone : firstWord entry = []
  · rw [hnone]
    exact .blank (List.dropWhile_eq_nil_iff.mp (trimStart_of_firstWord hnone))
  · obtain ⟨length, hsplit, hbracket, hlength⟩ :=
      before_eq_iff.mp (rfl : before '(' (firstWord entry) = _)
    have hname : QuotedName (before '(' (firstWord entry)) _ := quotedName_iff.mpr rfl
    exact .word (leadsWord_iff.mpr ⟨hsplit ▸ hnone, hsplit, rfl⟩) hname
      (hname.bracket_not_mem_iff.mp hbracket) hlength

/-- The columns that are read of a list are those that it names. -/
theorem listNames_iff : ListNames list names ↔ columnNames list = names := by
  constructor
  · rintro ⟨entries, named, hne, rfl, hcomma, hnamed, rfl⟩
    have hmap : entries.map (fun entry => unquoted (before '(' (firstWord entry))) = named := by
      clear hne hcomma
      induction hnamed with
      | nil => rfl
      | cons hfirst _ ih => rw [List.map_cons, hfirst.unquoted_eq, ih]
    rw [columnNames, splitAt_joined hne hcomma, hmap]
  · rintro rfl
    refine ⟨splitAt ',' list, _, List.cons_ne_nil _ _, (joined_splitAt ',' list).symm,
      fun _ => not_mem_of_mem_splitAt, ?_, rfl⟩
    rw [List.forall₂_map_right_iff]
    exact List.forall₂_same.mpr fun entry _ => entryNames entry

end Clause

end DdlDiagram
