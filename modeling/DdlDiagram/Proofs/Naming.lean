/-
The characters that names and keywords are made of, and what the readers of names
make of an identifier: it is one word, has no quotes to lose, and a list of
identifiers is read as those identifiers.
-/
import DdlDiagram.Clause.Name
import DdlDiagram.Phrase
import DdlDiagram.Proofs.Draft
import DdlDiagram.Proofs.Wording

namespace DdlDiagram

open Text

/-- The characters that no header and no name crosses: quotes of literals,
brackets, separators, and what may begin a comment. -/
def marks : List Char :=
  ['\'', '(', ')', ',', ';', '-', '/']

/-- A text without marks. -/
def Unmarked (text : Text) : Prop :=
  ∀ c ∈ text, c ∉ marks

instance (text : Text) : Decidable (Unmarked text) :=
  inferInstanceAs (Decidable (∀ c ∈ text, c ∉ marks))

theorem unmarked_nil : Unmarked [] := by
  intro c hc
  contradiction

section characters

variable {c : Char}

theorem toNat_lt_of_isNameChar (hc : isNameChar c = true) : c.toNat < 128 := by
  have hclass : (c.isUpper || c.isLower || c.isDigit || c == '_') = true := hc
  simp only [Bool.or_eq_true, beq_iff_eq] at hclass
  rcases hclass with ((hupper | hlower) | hdigit) | rfl
  · exact Nat.lt_of_le_of_lt (of_decide_eq_true hupper).2 (by decide)
  · have hle := (Bool.and_eq_true_iff.mp hlower).2
    exact Nat.lt_of_le_of_lt (of_decide_eq_true hle) (by decide)
  · have hle := (Bool.and_eq_true_iff.mp hdigit).2
    exact Nat.lt_of_le_of_lt (of_decide_eq_true hle) (by decide)
  · decide

/-- What holds of the 63 characters of names holds of every one. -/
theorem forall_isNameChar {p : Char → Bool}
    (h : ∀ code < 128, isNameChar (Char.ofNat code) = true →
      p (Char.ofNat code) = true) (hc : isNameChar c = true) :
    p c = true := by
  have hcode := h c.toNat (toNat_lt_of_isNameChar hc)
  rw [Char.ofNat_toNat] at hcode
  exact hcode hc

theorem isWordChar_of_isNameChar (hc : isNameChar c = true) :
    isWordChar c = true :=
  forall_isNameChar (by decide +kernel) hc

theorem isNameChar_of_isAlpha (hc : c.isAlpha = true) : isNameChar c = true := by
  simp [isNameChar, Char.isAlphanum, hc]

theorem isNameChar_of_isDigit (hc : c.isDigit = true) : isNameChar c = true := by
  simp [isNameChar, Char.isAlphanum, hc]

theorem isDigit_of_mem_decimal {count : Nat} (hc : c ∈ decimal count) :
    c.isDigit = true :=
  Nat.isDigit_of_mem_toDigits (by decide) (by decide) hc

theorem isQuote_of_isNameChar (hc : isNameChar c = true) :
    Clause.isQuote c = false := by
  have hquote : (!Clause.isQuote c) = true :=
    forall_isNameChar (p := fun c => !Clause.isQuote c) (by decide +kernel) hc
  simpa using hquote

theorem toLower_foldCapital (hc : isNameChar c = true) :
    (foldCapital c).toLower = c.toLower := by
  have hlower : ((foldCapital c).toLower == c.toLower) = true :=
    forall_isNameChar (p := fun c => (foldCapital c).toLower == c.toLower)
      (by decide +kernel) hc
  simpa using hlower

theorem asciiLower_capitals (hc : isNameChar c = true) :
    asciiLower (capitals c) = [c.toLower] := by
  have hlower : (asciiLower (capitals c) == [c.toLower]) = true :=
    forall_isNameChar (p := fun c => asciiLower (capitals c) == [c.toLower])
      (by decide +kernel) hc
  simpa using hlower

/-- The codes of the twenty-five blanks. -/
def blankCodes : List Nat :=
  [9, 10, 11, 12, 13, 0x20, 0x85, 0xA0, 0x1680, 0x2000, 0x2001, 0x2002, 0x2003,
    0x2004, 0x2005, 0x2006, 0x2007, 0x2008, 0x2009, 0x200A, 0x2028, 0x2029,
    0x202F, 0x205F, 0x3000]

theorem mem_blankCodes (hc : isBlank c = true) : c.toNat ∈ blankCodes := by
  simp only [isBlank, Bool.or_eq_true, Bool.and_eq_true, decide_eq_true_eq,
    beq_iff_eq] at hc
  simp only [blankCodes, List.mem_cons, List.not_mem_nil]
  omega

theorem isWordChar_of_isBlank (hc : isBlank c = true) :
    isWordChar c = false := by
  have hall : ∀ code ∈ blankCodes, isWordChar (Char.ofNat code) = false := by
    decide +kernel
  have hcode := hall c.toNat (mem_blankCodes hc)
  rwa [Char.ofNat_toNat] at hcode

/-- A name ends in front of a space. -/
theorem ends_space (rest : Text) :
    ∀ c ∈ (' ' :: rest).head?, isWordChar c = false := by
  intro c hc
  rw [← Option.some.inj hc]
  exact isWordChar_of_isBlank isBlank_space

theorem isBlank_of_isWordChar (hc : isWordChar c = true) :
    isBlank c = false := by
  by_contra hblank
  rw [Bool.not_eq_false] at hblank
  rw [isWordChar_of_isBlank hblank] at hc
  contradiction

theorem not_mem_marks_of_isWordChar (hc : isWordChar c = true) :
    c ∉ marks := by
  have hall : ∀ mark ∈ marks, isWordChar mark = false := by decide
  intro hmem
  rw [hall c hmem] at hc
  contradiction

theorem not_mem_marks_of_isBlank (hc : isBlank c = true) : c ∉ marks := by
  have hall : ∀ mark ∈ marks, isBlank mark = false := by decide
  intro hmem
  rw [hall c hmem] at hc
  contradiction

/-- Only word characters spell the letters of keywords. -/
theorem isWordChar_of_foldCapital (hc : (foldCapital c).isUpper = true) :
    isWordChar c = true := by
  by_cases hlong : c = 'ſ'
  · rw [hlong]
    decide +kernel
  · by_cases hkelvin : c = '\u212A'
    · rw [hkelvin]
      decide +kernel
    · rw [foldCapital, if_neg hlong, if_neg hkelvin] at hc
      apply isWordChar_of_isNameChar
      apply isNameChar_of_isAlpha
      by_cases hlower : c.isLower = true
      · exact Bool.or_eq_true_iff.mpr (Or.inr hlower)
      · have hupper : c.toUpper = c := by
          refine dif_neg fun hbounds => hlower ?_
          exact Bool.and_eq_true_iff.mpr
            ⟨decide_eq_true hbounds.1, decide_eq_true hbounds.2⟩
        rw [hupper] at hc
        exact Bool.or_eq_true_iff.mpr (Or.inl hc)

end characters

section letterCase

variable {text : Text} (htext : ∀ c ∈ text, isNameChar c = true)
include htext

theorem asciiLower_map_foldCapital :
    asciiLower (text.map foldCapital) = asciiLower text := by
  rw [asciiLower, asciiLower, List.map_map]
  apply List.map_congr_left
  intro c hc
  exact toLower_foldCapital (htext c hc)

theorem asciiLower_upper : asciiLower (upper text) = asciiLower text := by
  induction text with
  | nil => rfl
  | cons c rest ih =>
      have hc := asciiLower_capitals (htext c List.mem_cons_self)
      have hrest := ih fun other hother =>
        htext other (List.mem_cons_of_mem c hother)
      simp only [upper, List.flatMap_cons]
      rw [asciiLower, List.map_append]
      exact congrArg₂ (· ++ ·) hc hrest

/-- A name that is not a word in lower case is not that word in capitals. -/
theorem upper_ne {word : Text} (h : asciiLower text ≠ asciiLower word) :
    upper text ≠ word := by
  rintro rfl
  exact h (asciiLower_upper htext).symm

theorem map_foldCapital_ne {word : Text}
    (h : asciiLower text ≠ asciiLower word) : text.map foldCapital ≠ word := by
  rintro rfl
  exact h (asciiLower_map_foldCapital htext).symm

theorem lower_eq_asciiLower : lower text = asciiLower text := by
  apply List.map_congr_left
  intro c hc
  rw [if_neg]
  rintro rfl
  exact absurd (htext _ hc) (by decide)

end letterCase

theorem Unmarked.append {left right : Text} (hleft : Unmarked left)
    (hright : Unmarked right) : Unmarked (left ++ right) := by
  intro c hc
  rcases List.mem_append.mp hc with hc | hc
  · exact hleft c hc
  · exact hright c hc

theorem unmarked_of_blanks {blanks : Text}
    (hblanks : ∀ c ∈ blanks, isBlank c = true) : Unmarked blanks := by
  intro c hc
  exact not_mem_marks_of_isBlank (hblanks c hc)

theorem unmarked_space : Unmarked [' '] := by
  decide

/-- Up to its first mark a text is cut in one way only. -/
theorem Unmarked.cut_unique {left left' right right' : Text} {mark mark' : Char}
    (hleft : Unmarked left) (hleft' : Unmarked left') (hmark : mark ∈ marks)
    (hmark' : mark' ∈ marks)
    (h : left ++ mark :: right = left' ++ mark' :: right') :
    left = left' ∧ mark = mark' ∧ right = right' := by
  induction left generalizing left' with
  | nil =>
      cases left' with
      | nil => simpa using h
      | cons c rest =>
          obtain ⟨rfl, _⟩ := List.cons.inj h
          exact absurd hmark (hleft' mark List.mem_cons_self)
  | cons c rest ih =>
      cases left' with
      | nil =>
          obtain ⟨rfl, _⟩ := List.cons.inj h
          exact absurd hmark' (hleft c List.mem_cons_self)
      | cons c' rest' =>
          obtain ⟨rfl, htail⟩ := List.cons.inj h
          obtain ⟨rfl, hmarks⟩ := ih
            (fun other hother => hleft other (List.mem_cons_of_mem c hother))
            (fun other hother => hleft' other (List.mem_cons_of_mem c hother))
            htail
          exact ⟨rfl, hmarks⟩

theorem Clause.unquoted_eq_self {text : Text}
    (h : ∀ c ∈ text, Clause.isQuote c = false) : Clause.unquoted text = text :=
  trimMatching_eq_self (fun c hc => h c (List.mem_of_mem_head? hc))
    fun c hc => h c (List.mem_of_mem_getLast? hc)

namespace Identifier

variable (identifier : Identifier)

theorem isNameChar_of_mem {c : Char} (hc : c ∈ identifier.text) :
    isNameChar c = true := by
  obtain ⟨text, hvalid⟩ := identifier
  cases text with
  | nil => exact absurd hc List.not_mem_nil
  | cons first rest =>
      simp only [isIdentifier, Bool.and_eq_true, List.all_eq_true] at hvalid
      rcases List.mem_cons.mp hc with rfl | hrest
      · exact hvalid.1.1
      · exact hvalid.2 c hrest

theorem eq_of_text {left right : Identifier} (h : left.text = right.text) :
    left = right := by
  cases left
  cases right
  cases h
  rfl

theorem ne_nil : identifier.text ≠ [] := by
  obtain ⟨text, hvalid⟩ := identifier
  rintro rfl
  simp [isIdentifier] at hvalid

theorem isWordChar_of_mem {c : Char} (hc : c ∈ identifier.text) :
    isWordChar c = true :=
  isWordChar_of_isNameChar (identifier.isNameChar_of_mem hc)

theorem isWord : IsWord identifier.text := by
  refine ⟨identifier.ne_nil, ?_⟩
  intro c hc
  exact isBlank_of_isWordChar (identifier.isWordChar_of_mem hc)

theorem unmarked : Unmarked identifier.text := by
  intro c hc
  exact not_mem_marks_of_isWordChar (identifier.isWordChar_of_mem hc)

theorem not_mem_of_mem_marks {mark : Char} (hmark : mark ∈ marks) :
    mark ∉ identifier.text := by
  intro hmem
  exact identifier.unmarked mark hmem hmark

/-- An identifier has no quotes to lose. -/
theorem unquoted_text : Clause.unquoted identifier.text = identifier.text :=
  Clause.unquoted_eq_self fun _ hc => isQuote_of_isNameChar (identifier.isNameChar_of_mem hc)

theorem before_text {mark : Char} (hmark : mark ∈ marks) :
    before mark identifier.text = identifier.text := by
  have htake : (identifier.text ++ []).takeWhile (· != mark) =
      identifier.text := by
    apply takeWhile_solid_append
    · intro c hc
      have hne : c ≠ mark := by
        rintro rfl
        exact identifier.not_mem_of_mem_marks hmark hc
      simpa using hne
    · simp
  rwa [List.append_nil] at htake

end Identifier

@[simp] theorem Dialect.plainSpelling_name (dialect : Dialect)
    (identifier : Identifier) :
    dialect.plainSpelling.name identifier = identifier.text := by
  simp [Dialect.plainSpelling, Spelling.name]

theorem Dialect.plainSpelling_names (dialect : Dialect)
    (identifiers : List Identifier) :
    dialect.plainSpelling.names identifiers =
      joined ", ".toList (identifiers.map Identifier.text) := by
  rw [Spelling.names]
  congr 1
  exact List.map_congr_left fun identifier _ =>
    dialect.plainSpelling_name identifier

theorem TableDraft.header_plain (dialect : Dialect) (draft : TableDraft) :
    draft.header dialect.plainSpelling =
      "CREATE TABLE ".toList ++ (draft.name.text ++ [' ']) :=
  congrArg (fun name => "CREATE TABLE ".toList ++ (name ++ [' ']))
    (dialect.plainSpelling_name draft.name)

namespace Clause

/-- The entries of a list of names: each but the first has the blank behind its
comma in front. -/
theorem splitAt_names {entry : Text} (hentry : ',' ∉ entry)
    (rest : List Identifier) :
    splitAt ',' (entry ++
        (rest.map Identifier.text).flatMap (", ".toList ++ ·)) =
      entry :: rest.map fun identifier => ' ' :: identifier.text := by
  induction rest generalizing entry with
  | nil => simpa using splitAt_of_not_mem hentry
  | cons next rest ih =>
      have hnext : ',' ∉ ' ' :: next.text := by
        intro hmem
        rcases List.mem_cons.mp hmem with heq | hmem
        · exact absurd heq (by decide)
        · exact next.not_mem_of_mem_marks (by decide) hmem
      have hshape : entry ++ ((next :: rest).map Identifier.text).flatMap
          (", ".toList ++ ·) = entry ++ ',' :: (' ' :: next.text ++
            (rest.map Identifier.text).flatMap (", ".toList ++ ·)) := by
        simp
      rw [hshape, splitAt_append hentry, ih hnext]
      rfl

/-- What is read of an entry that is one identifier, with or without a blank in
front. -/
theorem entry_name (identifier : Identifier) :
    unquoted (before '(' (firstWord identifier.text)) = identifier.text ∧
      unquoted (before '(' (firstWord (' ' :: identifier.text))) =
        identifier.text := by
  have hfirst : firstWord identifier.text = identifier.text := by
    have hword : firstWord (identifier.text ++ []) = identifier.text :=
      firstWord_isWord_append identifier.isWord (by simp [Breaks])
    rwa [List.append_nil] at hword
  have hblank : firstWord (' ' :: identifier.text) =
      firstWord identifier.text := rfl
  rw [hblank, hfirst, identifier.before_text (by decide),
    identifier.unquoted_text]
  exact ⟨rfl, rfl⟩

/-- A list of identifiers is read as those identifiers. -/
theorem columnNames_names (dialect : Dialect) (identifiers : List Identifier) :
    columnNames (dialect.plainSpelling.names identifiers) =
      identifiers.map Identifier.text := by
  rw [dialect.plainSpelling_names]
  cases identifiers with
  | nil => rfl
  | cons first rest =>
      have hentries : (splitAt ',' (joined ", ".toList
          ((first :: rest).map Identifier.text))).map (fun entry =>
            unquoted (before '(' (firstWord entry))) =
          (first :: rest).map Identifier.text := by
        rw [List.map_cons, joined_cons,
          splitAt_names (first.not_mem_of_mem_marks (by decide)),
          List.map_cons, (entry_name first).1, List.map_map]
        congr 1
        exact List.map_congr_left fun identifier _ => (entry_name identifier).2
      rw [columnNames, hentries, List.filter_eq_self]
      intro name hname
      obtain ⟨identifier, _, rfl⟩ := List.mem_map.mp hname
      simp [identifier.ne_nil]

end Clause

end DdlDiagram
