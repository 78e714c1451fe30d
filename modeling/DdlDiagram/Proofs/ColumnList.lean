/-
The list of a key's columns.  An entry is a name, with or without quotes, that a length
and an order may follow.  The list is read up to the first bracket that closes, which is
that of a length if there is one: so the columns that are read are those up to the first
entry with a length.
-/
import DdlDiagram.Proofs.ClauseReading
import DdlDiagram.Proofs.LinkTarget

namespace DdlDiagram

open Text Phrase

/-- The ways to write a name in a list of columns. -/
inductive Quoting where
  | plain
  | backquotes
  | doubleQuotes
  | brackets
deriving DecidableEq, Repr

namespace Quoting

def opening : Quoting → Text
  | plain => []
  | backquotes => ['`']
  | doubleQuotes => ['"']
  | brackets => ['[']

def closing : Quoting → Text
  | plain => []
  | backquotes => ['`']
  | doubleQuotes => ['"']
  | brackets => [']']

def around (quoting : Quoting) (name : Identifier) : Text :=
  quoting.opening ++ (name.text ++ quoting.closing)

/-- What stands around a name is a quote, no blank and no mark. -/
theorem isQuote_of_mem {quoting : Quoting} {c : Char}
    (hc : c ∈ quoting.opening ∨ c ∈ quoting.closing) :
    Clause.isQuote c = true ∧ isBlank c = false ∧ c ∉ marks := by
  have hall : ∀ c ∈ ['`', '"', '[', ']'],
      Clause.isQuote c = true ∧ isBlank c = false ∧ c ∉ marks := by
    decide
  apply hall
  cases quoting with
  | plain => simp [opening, closing] at hc
  | backquotes | doubleQuotes | brackets =>
      simp only [opening, closing, List.mem_singleton, or_self] at hc
      simp [hc]

variable (quoting : Quoting) (name : Identifier)

theorem mem_around {c : Char} (hc : c ∈ quoting.around name) :
    isNameChar c = true ∨ Clause.isQuote c = true ∧ isBlank c = false ∧ c ∉ marks := by
  rcases List.mem_append.mp hc with hc | hc
  · exact Or.inr (isQuote_of_mem (Or.inl hc))
  · rcases List.mem_append.mp hc with hc | hc
    · exact Or.inl (name.isNameChar_of_mem hc)
    · exact Or.inr (isQuote_of_mem (Or.inr hc))

theorem isWord_around : IsWord (quoting.around name) := by
  refine ⟨by simp [around, name.ne_nil], fun c hc => ?_⟩
  rcases quoting.mem_around name hc with hc | ⟨_, hc, _⟩
  · exact isBlank_of_isWordChar (isWordChar_of_isNameChar hc)
  · exact hc

theorem unmarked_around : Unmarked (quoting.around name) := by
  intro c hc
  rcases quoting.mem_around name hc with hc | ⟨_, _, hc⟩
  · exact not_mem_marks_of_isWordChar (isWordChar_of_isNameChar hc)
  · exact hc

/-- The quotes are lost. -/
theorem unquoted_around : Clause.unquoted (quoting.around name) = name.text := by
  have hsolid : ∀ c ∈ name.text, Clause.isQuote c = false := by
    intro c hc
    exact isQuote_of_isNameChar (name.isNameChar_of_mem hc)
  exact trimMatching_framed (fun c hc => (isQuote_of_mem (Or.inl hc)).1)
    (fun c hc => (isQuote_of_mem (Or.inr hc)).1) name.ne_nil
    (fun c hc => hsolid c (List.mem_of_mem_head? hc))
    (fun c hc => hsolid c (List.mem_of_mem_getLast? hc))

end Quoting

/-- The order that a key keeps a column in. -/
inductive SortOrder where
  | ascending
  | descending
deriving DecidableEq, Repr

def SortOrder.text : SortOrder → Text
  | ascending => "ASC".toList
  | descending => "DESC".toList

/-- An entry of a key's list: a column, how much of it counts, and its order. -/
structure KeyEntry where
  name : Identifier
  quoting : Quoting
  length : Option Nat
  order : Option SortOrder
deriving DecidableEq

namespace KeyEntry

def size (entry : KeyEntry) : TypeSize :=
  entry.length.elim .unsized .length

/-- The order with a blank in front. -/
def behind (entry : KeyEntry) : Text :=
  entry.order.elim [] fun order => ' ' :: order.text

def text (entry : KeyEntry) : Text :=
  entry.quoting.around entry.name ++ (entry.size.text ++ entry.behind)

/-- The entries up to the first one with a length. -/
def upToLength : List KeyEntry → List KeyEntry
  | [] => []
  | entry :: rest =>
      if entry.length.isSome then [entry] else entry :: upToLength rest

/-- Where no entry but the last has a length, these are all. -/
theorem upToLength_eq_self {entries : List KeyEntry}
    (h : ∀ entry ∈ entries.dropLast, entry.length = none) : upToLength entries = entries := by
  induction entries with
  | nil => rfl
  | cons entry rest ih =>
      cases rest with
      | nil => simp [upToLength]
      | cons next rest =>
          rw [List.dropLast_cons_cons, List.forall_mem_cons] at h
          rw [upToLength, h.1, Option.isSome_none, if_neg Bool.false_ne_true, ih h.2]

end KeyEntry

theorem Text.before_append {mark : Char} {left : Text} (hleft : mark ∉ left) (right : Text) :
    before mark (left ++ right) = left ++ before mark right := by
  apply List.takeWhile_append_of_pos
  intro c hc
  have hne : c ≠ mark := by
    rintro rfl
    exact hleft hc
  simpa using hne

namespace Clause

/-- A comma ends an entry. -/
theorem columnNames_append_comma {left : Text} (hleft : ',' ∉ left) (right : Text) :
    columnNames (left ++ ',' :: right) = columnNames left ++ columnNames right := by
  rw [columnNames, splitAt_append hleft, columnNames, splitAt_of_not_mem hleft, columnNames,
    ← List.filter_append, ← List.map_append, List.singleton_append]

/-- Of an entry the name is read, up to a bracket or to the end of its word. -/
theorem columnNames_entry {lead behind : Text} (quoting : Quoting) (name : Identifier)
    (tail : Text) (hlead : ∀ c ∈ lead, isBlank c = true) (htail : ∀ c ∈ tail, isBlank c = false)
    (hopens : ∀ c ∈ tail.head?, c = '(') (hbehind : Breaks behind)
    (hcomma : ',' ∉ tail ++ behind) :
    columnNames (lead ++ (quoting.around name ++ (tail ++ behind))) = [name.text] := by
  have hword : IsWord (quoting.around name ++ tail) := by
    refine ⟨by simp [(quoting.isWord_around name).1], fun c hc => ?_⟩
    rcases List.mem_append.mp hc with hc | hc
    · exact (quoting.isWord_around name).2 c hc
    · exact htail c hc
  have hfirst : firstWord (lead ++ (quoting.around name ++ (tail ++ behind))) =
      quoting.around name ++ tail := by
    rw [firstWord, trimStart, List.dropWhile_append_of_pos hlead, ← List.append_assoc]
    exact firstWord_isWord_append hword hbehind
  have hbefore : before '(' (quoting.around name ++ tail) = quoting.around name := by
    apply takeWhile_solid_append
    · intro c hc
      have hne : c ≠ '(' := by
        rintro rfl
        exact quoting.unmarked_around name _ hc (by decide)
      simpa using hne
    · intro c hc
      simp [hopens c hc]
  have hsplit : ',' ∉ lead ++ (quoting.around name ++ (tail ++ behind)) := by
    have hmark : ',' ∈ marks := by decide
    intro hmem
    rcases List.mem_append.mp hmem with hmem | hmem
    · exact not_mem_marks_of_isBlank (hlead _ hmem) hmark
    · rcases List.mem_append.mp hmem with hmem | hmem
      · exact quoting.unmarked_around name _ hmem hmark
      · exact hcomma hmem
  rw [columnNames, splitAt_of_not_mem hsplit, List.map_singleton, hfirst, hbefore,
    quoting.unquoted_around name]
  exact List.filter_cons_of_pos (by simp [name.ne_nil])

end Clause

namespace KeyEntry

/-- The entries of a list with a comma and a blank between neighbours. -/
def listed (entries : List KeyEntry) : Text :=
  joined ", ".toList (entries.map text)

variable (entry : KeyEntry)

theorem mem_behind {c : Char} (hc : c ∈ entry.behind) : c = ' ' ∨ c.isAlpha = true := by
  have hall : ∀ order : SortOrder, ∀ c ∈ order.text, c.isAlpha = true := by
    intro order
    cases order <;> decide
  rw [behind] at hc
  cases horder : entry.order with
  | none => simp [horder] at hc
  | some order =>
      rw [horder, Option.elim_some, List.mem_cons] at hc
      exact hc.imp_right (hall order c)

theorem unmarked_behind : Unmarked entry.behind := by
  intro c hc
  rcases entry.mem_behind hc with rfl | hc
  · decide
  · exact not_mem_marks_of_isWordChar (isWordChar_of_isNameChar (isNameChar_of_isAlpha hc))

theorem breaks_behind : Breaks entry.behind := by
  rw [behind]
  cases entry.order with
  | none => simp [Breaks]
  | some order => exact breaks_space _

/-- A bracket that closes stands in an entry only behind a length. -/
theorem text_cases :
    (entry.length = none ∧ entry.text = entry.quoting.around entry.name ++ entry.behind) ∨
      ∃ count, entry.length = some count ∧ entry.text =
        entry.quoting.around entry.name ++ ('(' :: decimal count ++ ')' :: entry.behind) := by
  rw [text, size]
  cases entry.length with
  | none => exact Or.inl ⟨rfl, rfl⟩
  | some count => exact Or.inr ⟨count, rfl, by simp [TypeSize.text]⟩

/-- Up to its length an entry has no mark but the bracket that opens it. -/
theorem not_mem_stem {lead : Text} (hlead : ∀ c ∈ lead, isBlank c = true) {tail : Text}
    {mark : Char} (hmark : mark ∈ marks) (htail : mark ∉ tail) :
    mark ∉ lead ++ (entry.quoting.around entry.name ++ tail) := by
  intro hmem
  rcases List.mem_append.mp hmem with hmem | hmem
  · exact not_mem_marks_of_isBlank (hlead _ hmem) hmark
  · rcases List.mem_append.mp hmem with hmem | hmem
    · exact entry.quoting.unmarked_around entry.name _ hmem hmark
    · exact htail hmem

/-- An entry is its name, also when it ends in front of the bracket that closes its
length. -/
theorem columnNames_stem {lead : Text} (hlead : ∀ c ∈ lead, isBlank c = true) :
    Clause.columnNames (lead ++ (entry.quoting.around entry.name ++ entry.behind)) =
        [entry.name.text] ∧
      ∀ count, Clause.columnNames (lead ++ (entry.quoting.around entry.name ++
        '(' :: decimal count)) = [entry.name.text] := by
  constructor
  · have hcomma : ',' ∉ [] ++ entry.behind := fun hmem =>
      entry.unmarked_behind _ hmem (by decide)
    exact Clause.columnNames_entry entry.quoting entry.name [] hlead (by simp) (by simp)
      entry.breaks_behind hcomma
  · intro count
    have hdigit : ∀ c ∈ decimal count, isWordChar c = true := by
      intro c hc
      exact isWordChar_of_isNameChar (isNameChar_of_isDigit (isDigit_of_mem_decimal hc))
    have hsolid : ∀ c ∈ '(' :: decimal count, isBlank c = false :=
      List.forall_mem_cons.mpr ⟨by decide, fun c hc => isBlank_of_isWordChar (hdigit c hc)⟩
    have hopens : ∀ c ∈ ('(' :: decimal count).head?, c = '(' := fun c hc =>
      (Option.some.inj hc).symm
    have hcomma : ',' ∉ ('(' :: decimal count) ++ [] := by
      rw [List.append_nil, List.mem_cons, not_or]
      exact ⟨by decide, fun hmem => absurd (hdigit ',' hmem) (by decide)⟩
    have hname := Clause.columnNames_entry entry.quoting entry.name ('(' :: decimal count) hlead
      hsolid hopens (by simp [Breaks]) hcomma
    rwa [List.append_nil] at hname

/-- Up to the first bracket that closes, the list names the columns up to the first
length. -/
theorem columnNames_before {entries : List KeyEntry} (hne : entries ≠ []) {lead : Text}
    (hlead : ∀ c ∈ lead, isBlank c = true) (behind : Text) :
    Clause.columnNames (before ')' (lead ++ (listed entries ++ ')' :: behind))) =
      (upToLength entries).map fun entry => entry.name.text := by
  have hclosing : ')' ∈ marks := by decide
  have hbefore : ∀ rest, before ')' (')' :: rest) = [] := fun _ => rfl
  induction entries generalizing lead with
  | nil => exact absurd rfl hne
  | cons entry rest ih =>
      obtain ⟨hunsized, hsized⟩ := entry.columnNames_stem hlead
      rcases entry.text_cases with ⟨hnone, htext⟩ | ⟨count, hsome, htext⟩
      · have hstem : ∀ mark ∈ marks,
            mark ∉ lead ++ (entry.quoting.around entry.name ++ entry.behind) := by
          intro mark hmark
          exact entry.not_mem_stem hlead hmark fun hmem => entry.unmarked_behind _ hmem hmark
        rw [upToLength, hnone, Option.isSome_none, if_neg Bool.false_ne_true, List.map_cons]
        cases rest with
        | nil =>
            rw [listed, List.map_singleton, joined, htext, ← List.append_assoc,
              before_append (hstem _ hclosing), hbefore, List.append_nil, hunsized]
            rfl
        | cons next rest =>
            have hshape : lead ++ (listed (entry :: next :: rest) ++ ')' :: behind) =
                (lead ++ (entry.quoting.around entry.name ++ entry.behind)) ++
                  ',' :: ([' '] ++ (listed (next :: rest) ++ ')' :: behind)) := by
              simp [listed, joined, htext]
            have hcomma : ∀ rest, before ')' (',' :: rest) = ',' :: before ')' rest :=
              fun _ => rfl
            rw [hshape, before_append (hstem _ hclosing), hcomma,
              Clause.columnNames_append_comma (hstem ',' (by decide)), hunsized,
              ih (by simp) (by simp [isBlank_space])]
            rfl
      · have hstem : ')' ∉ lead ++ (entry.quoting.around entry.name ++
            '(' :: decimal count) := by
          apply entry.not_mem_stem hlead hclosing
          rw [List.mem_cons, not_or]
          exact ⟨by decide, fun hmem => absurd (isDigit_of_mem_decimal hmem) (by decide)⟩
        obtain ⟨rest', hshape⟩ : ∃ rest', lead ++ (listed (entry :: rest) ++ ')' :: behind) =
            (lead ++ (entry.quoting.around entry.name ++ '(' :: decimal count)) ++
              ')' :: rest' := by
          rw [listed, List.map_cons, joined_cons, htext]
          exact ⟨entry.behind ++ ((rest.map text).flatMap (", ".toList ++ ·) ++ ')' :: behind),
            by simp⟩
        rw [hshape, before_append hstem, hbefore, List.append_nil, hsized, upToLength, hsome,
          Option.isSome_some, if_pos rfl]
        rfl

/-- An entry is read inside the brackets of its list. -/
theorem reads_text (lexis : Lexis) : lexis.Reads false 1 entry.text 1 := by
  have haround := (lexis.quiet_unmarked (entry.quoting.unmarked_around entry.name))
  have hbehind := (lexis.quiet_unmarked entry.unmarked_behind)
  rcases entry.text_cases with ⟨_, htext⟩ | ⟨count, _, htext⟩
  · rw [htext]
    exact haround.reads.append hbehind.reads
  · rw [htext]
    exact haround.reads.append ((lexis.reads_opening false 1).append
      ((lexis.quiet_unmarked (unmarked_decimal count)).reads.append
        ((lexis.reads_closing false 1).append hbehind.reads)))

theorem reads_listed (lexis : Lexis) (entries : List KeyEntry) :
    lexis.Reads false 1 (listed entries) 1 := by
  induction entries with
  | nil => exact lexis.quiet_nil.reads
  | cons entry rest ih =>
      cases rest with
      | nil => exact entry.reads_text lexis
      | cons next rest =>
          have hcomma : lexis.Reads false 1 [','] 1 :=
            lexis.reads_comma (Or.inr (Nat.lt_succ_self 0))
          have hspace := lexis.quiet_unmarked unmarked_space
          have hwhole := (entry.reads_text lexis).append (hcomma.append (hspace.reads.append ih))
          simpa [listed, joined] using hwhole

end KeyEntry

end DdlDiagram
