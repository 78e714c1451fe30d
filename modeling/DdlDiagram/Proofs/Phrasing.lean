/-
What the recognisers of phrases read.  A keyword is read where its letters stand
and nowhere else, a header reads no mark before its bracket, and a search passes
over every word that does not open a phrase.
-/
import DdlDiagram.Proofs.Naming
import Mathlib.Data.List.TakeWhile

namespace DdlDiagram

open Text

namespace Text

/-- A keyword as it is written in the readers: capital letters. -/
def IsKeyword (keyword : Text) : Prop :=
  keyword ≠ [] ∧ ∀ k ∈ keyword, k.isUpper = true ∧ foldCapital k = k

instance (keyword : Text) : Decidable (IsKeyword keyword) :=
  inferInstanceAs (Decidable (_ ∧ _))

theorem afterKeyword?_eq_some_iff {keyword text rest : Text} :
    afterKeyword? keyword text = some rest ↔
      ∃ used, text = used ++ rest ∧ used.map foldCapital = keyword := by
  induction keyword generalizing text with
  | nil =>
      constructor
      · intro h
        exact ⟨[], Option.some.inj h, rfl⟩
      · rintro ⟨used, rfl, hused⟩
        rw [List.map_eq_nil_iff.mp hused]
        rfl
  | cons k keyword ih =>
      cases text with
      | nil => simp [afterKeyword?]
      | cons c text =>
          by_cases hc : foldCapital c = k
          · rw [afterKeyword?, if_pos hc, ih]
            constructor
            · rintro ⟨used, rfl, rfl⟩
              exact ⟨c :: used, rfl, by rw [List.map_cons, hc]⟩
            · rintro ⟨used, hused, hmap⟩
              cases used with
              | nil => simp at hmap
              | cons c' used =>
                  obtain ⟨rfl, rfl⟩ := List.cons.inj hused
                  exact ⟨used, rfl, (List.cons.inj hmap).2⟩
          · rw [afterKeyword?, if_neg hc]
            constructor
            · intro h
              contradiction
            · rintro ⟨used, hused, hmap⟩
              cases used with
              | nil => simp at hmap
              | cons c' used =>
                  obtain ⟨rfl, _⟩ := List.cons.inj hused
                  exact absurd (List.cons.inj hmap).1 hc

theorem afterKeyword?_append {keyword used : Text} (hused : used.map foldCapital = keyword)
    (rest : Text) : afterKeyword? keyword (used ++ rest) = some rest :=
  afterKeyword?_eq_some_iff.mpr ⟨used, rfl, hused⟩

theorem IsKeyword.map_foldCapital {keyword : Text} (h : IsKeyword keyword) :
    keyword.map foldCapital = keyword := by
  calc
    keyword.map foldCapital = keyword.map id := by
      apply List.map_congr_left
      intro k hk
      exact (h.2 k hk).2
    _ = keyword := List.map_id keyword

theorem IsKeyword.afterKeyword? {keyword : Text} (h : IsKeyword keyword)
    (rest : Text) : Text.afterKeyword? keyword (keyword ++ rest) = some rest :=
  afterKeyword?_append h.map_foldCapital rest

/-- What reads as a keyword consists of word characters. -/
theorem IsKeyword.isWordChar_of_map {keyword used : Text}
    (h : IsKeyword keyword) (hused : used.map foldCapital = keyword) :
    ∀ c ∈ used, isWordChar c = true := by
  intro c hc
  apply isWordChar_of_foldCapital
  apply (h.2 (foldCapital c) _).1
  rw [← hused]
  exact List.mem_map_of_mem hc

/-- A keyword does not begin with a blank. -/
theorem IsKeyword.isBlank_of_mem_head? {keyword used : Text} (h : IsKeyword keyword)
    (hused : used.map foldCapital = keyword) (rest : Text) :
    ∀ c ∈ (used ++ rest).head?, isBlank c = false := by
  have hne : used ≠ [] := by
    rintro rfl
    exact h.1 hused.symm
  intro c hc
  rw [List.head?_append_of_ne_nil _ hne] at hc
  exact isBlank_of_isWordChar (h.isWordChar_of_map hused c (List.mem_of_mem_head? hc))

/-- A piece of text without marks that holds a number of words, whatever stands
behind it. -/
def Spans (count : Nat) (front : Text) : Prop :=
  Unmarked front ∧
    ∀ rest, count + (words rest).length ≤ (words (front ++ rest)).length

theorem Spans.zero {front : Text} (h : Unmarked front) : Spans 0 front := by
  refine ⟨h, ?_⟩
  intro rest
  rw [Nat.zero_add]
  exact length_words_le front rest

theorem Spans.append {first second : Nat} {left right : Text}
    (hleft : Spans first left) (hright : Spans second right) :
    Spans (first + second) (left ++ right) := by
  refine ⟨hleft.1.append hright.1, ?_⟩
  intro rest
  have h₁ := hleft.2 (right ++ rest)
  have h₂ := hright.2 rest
  rw [List.append_assoc]
  omega

end Text

namespace Phrase

theorem afterChar?_eq_some_iff {expected : Char} {text rest : Text} :
    afterChar? expected text = some rest ↔ text = expected :: rest := by
  cases text with
  | nil => simp [afterChar?]
  | cons c tail => simp [afterChar?]

theorem afterBlanks?_eq_some {text rest : Text}
    (h : afterBlanks? text = some rest) :
    ∃ blank blanks, text = blank :: (blanks ++ rest) ∧ isBlank blank = true ∧
      ∀ c ∈ blanks, isBlank c = true := by
  cases text with
  | nil => simp [afterBlanks?] at h
  | cons c tail =>
      by_cases hc : isBlank c = true
      · rw [afterBlanks?, if_pos hc, Option.some.injEq] at h
        refine ⟨c, tail.takeWhile isBlank, ?_, hc, ?_⟩
        · rw [← h, trimStart, List.takeWhile_append_dropWhile]
        · intro other hother
          exact List.mem_takeWhile_imp hother
      · simp [afterBlanks?, hc] at h

theorem trimStart_of_afterBlanks? {text rest : Text}
    (h : afterBlanks? text = some rest) : trimStart text = rest := by
  cases text with
  | nil => simp [afterBlanks?] at h
  | cons c tail =>
      by_cases hc : isBlank c = true
      · rw [afterBlanks?, if_pos hc, Option.some.injEq] at h
        rw [← h, trimStart, List.dropWhile_cons_of_pos hc, trimStart]
      · simp [afterBlanks?, hc] at h

section keywords

/-- A keyword in any letter case, with blanks behind it. -/
def IsSpacedKeyword (keyword text : Text) : Prop :=
  ∃ used gap, text = used ++ gap ∧ used.map foldCapital = keyword ∧ gap ≠ [] ∧
    ∀ c ∈ gap, isBlank c = true

variable {keyword text rest : Text}

/-- A keyword is read with all the blanks behind it. -/
theorem afterSpacedKeyword?_eq_some_iff :
    afterSpacedKeyword? keyword text = some rest ↔
      ∃ front, text = front ++ rest ∧ IsSpacedKeyword keyword front ∧
        ∀ c ∈ rest.head?, isBlank c = false := by
  constructor
  · intro h
    obtain ⟨behind, hread, hblanks⟩ := Option.bind_eq_some_iff.mp h
    obtain ⟨used, rfl, hused⟩ := afterKeyword?_eq_some_iff.mp hread
    have htrim := trimStart_of_afterBlanks? hblanks
    obtain ⟨blank, blanks, rfl, hblank, hothers⟩ := afterBlanks?_eq_some hblanks
    refine ⟨used ++ blank :: blanks, by simp, ⟨used, blank :: blanks, rfl, hused,
      List.cons_ne_nil _ _, List.forall_mem_cons.mpr ⟨hblank, hothers⟩⟩, fun c hc => ?_⟩
    have hstop := List.head?_dropWhile_not isBlank (blank :: (blanks ++ rest))
    rw [← htrim] at hc
    rw [trimStart, Option.mem_def] at hc
    rw [hc] at hstop
    simpa using hstop
  · rintro ⟨_, rfl, ⟨used, gap, rfl, hused, hgap, hblanks⟩, hrest⟩
    obtain ⟨blank, others, rfl⟩ := List.exists_cons_of_ne_nil hgap
    obtain ⟨hblank, hothers⟩ := List.forall_mem_cons.mp hblanks
    rw [List.append_assoc, afterSpacedKeyword?, afterKeyword?_append hused, Option.bind_some,
      List.cons_append, afterBlanks?, if_pos hblank, trimStart,
      dropWhile_solid_append hothers hrest]

/-- A keyword is read in front of anything but a blank. -/
theorem IsSpacedKeyword.read {front : Text} (h : IsSpacedKeyword keyword front)
    (hrest : ∀ c ∈ rest.head?, isBlank c = false) :
    afterSpacedKeyword? keyword (front ++ rest) = some rest :=
  afterSpacedKeyword?_eq_some_iff.mpr ⟨front, rfl, h, hrest⟩

theorem IsSpacedKeyword.isBlank_of_mem_head? {front : Text} (h : IsSpacedKeyword keyword front)
    (hkeyword : IsKeyword keyword) (rest : Text) :
    ∀ c ∈ (front ++ rest).head?, isBlank c = false := by
  obtain ⟨used, gap, rfl, hused, _⟩ := h
  rw [List.append_assoc]
  exact hkeyword.isBlank_of_mem_head? hused _

/-- A keyword with its blanks is one word of the text it is read from. -/
theorem afterSpacedKeyword?_split (hkeyword : IsKeyword keyword)
    (h : afterSpacedKeyword? keyword text = some rest) :
    ∃ front, text = front ++ rest ∧ Spans 1 front := by
  obtain ⟨behind, hread, hblanks⟩ := Option.bind_eq_some_iff.mp h
  obtain ⟨used, rfl, hused⟩ := afterKeyword?_eq_some_iff.mp hread
  obtain ⟨blank, blanks, rfl, hblank, hblanks⟩ := afterBlanks?_eq_some hblanks
  have hchars := hkeyword.isWordChar_of_map hused
  have hword : IsWord used := by
    constructor
    · rintro rfl
      exact hkeyword.1 hused.symm
    · intro c hc
      exact isBlank_of_isWordChar (hchars c hc)
  refine ⟨used ++ blank :: blanks, by simp, ?_, ?_⟩
  · apply Unmarked.append
    · intro c hc
      exact not_mem_marks_of_isWordChar (hchars c hc)
    · apply unmarked_of_blanks
      intro c hc
      rcases List.mem_cons.mp hc with rfl | hc
      · exact hblank
      · exact hblanks c hc
  · intro tail
    rw [List.append_assoc, List.cons_append, words_isWord_append hword hblank,
      words_append_of_blanks hblanks, List.length_cons, Nat.add_comm]

/-- The keyword is the whole word in front. -/
theorem afterSpacedKeyword?_word {word behind : Text}
    (hkeyword : IsKeyword keyword)
    (hword : ∀ c ∈ word, isWordChar c = true)
    (hbehind : ∀ c ∈ behind.head?, isWordChar c = false)
    (h : afterSpacedKeyword? keyword (word ++ behind) = some rest) :
    word.map foldCapital = keyword ∧
      (∃ c ∈ behind.head?, isBlank c = true) ∧ trimStart behind = rest := by
  obtain ⟨tail, hread, hblanks⟩ := Option.bind_eq_some_iff.mp h
  obtain ⟨used, hsplit, hused⟩ := afterKeyword?_eq_some_iff.mp hread
  have htrim := trimStart_of_afterBlanks? hblanks
  obtain ⟨blank, blanks, rfl, hblank, _⟩ := afterBlanks?_eq_some hblanks
  have hfront : word = used := by
    have hleft := takeWhile_solid_append hword hbehind
    have hright : (used ++ blank :: (blanks ++ rest)).takeWhile isWordChar =
        used := takeWhile_solid_append (hkeyword.isWordChar_of_map hused)
      (by simp [isWordChar_of_isBlank hblank])
    rw [hsplit, hright] at hleft
    exact hleft.symm
  subst hfront
  obtain rfl := List.append_cancel_left hsplit
  exact ⟨hused, ⟨blank, rfl, hblank⟩, htrim⟩

/-- Another word in front is not read as the keyword. -/
theorem afterSpacedKeyword?_eq_none {word behind : Text}
    (hkeyword : IsKeyword keyword)
    (hword : ∀ c ∈ word, isWordChar c = true)
    (hne : word.map foldCapital ≠ keyword)
    (hbehind : ∀ c ∈ behind.head?, isWordChar c = false) :
    afterSpacedKeyword? keyword (word ++ behind) = none := by
  rw [Option.eq_none_iff_forall_ne_some]
  intro tail htail
  exact hne (afterSpacedKeyword?_word hkeyword hword hbehind htail).1

/-- What follows from reading a keyword follows from reading one of two. -/
theorem of_either {motive : Prop} {first second : Text} (hfirst : IsKeyword first)
    (hsecond : IsKeyword second)
    (hkeyword : ∀ {keyword}, IsKeyword keyword →
      afterSpacedKeyword? keyword text = some rest → motive)
    (h : (afterSpacedKeyword? first text).or (afterSpacedKeyword? second text) = some rest) :
    motive := by
  rcases Option.or_eq_some_iff.mp h with h | ⟨_, h⟩
  · exact hkeyword hfirst h
  · exact hkeyword hsecond h

/-- What holds of a text and of what is left behind an optional part of it holds behind the
part, whether it is there or not. -/
theorem of_getD {motive : Text → Prop} {read : Option Text} (hnone : motive text)
    (hsome : ∀ rest, read = some rest → motive rest) : motive (read.getD text) := by
  cases read with
  | none => exact hnone
  | some rest => exact hsome rest rfl

/-- A keyword is read only where its first letter stands. -/
theorem afterSpacedKeyword?_of_ne {k c : Char} (hc : foldCapital c ≠ k) :
    afterSpacedKeyword? (k :: keyword) (c :: text) = none := by
  rw [afterSpacedKeyword?, afterKeyword?, if_neg hc]
  rfl

theorem afterSpacedKeyword?_append (hkeyword : IsKeyword keyword)
    (rest : Text) :
    afterSpacedKeyword? keyword (keyword ++ ' ' :: rest) =
      some (trimStart rest) := by
  rw [afterSpacedKeyword?, hkeyword.afterKeyword?]
  rfl

end keywords

section names

variable {text name rest : Text}

/-- At most one character is left out. -/
theorem exists_dropOne (belongs : Char → Bool) (text : Text) :
    ∃ dropped : Option Char, text = dropped.toList ++ dropOne belongs text ∧
      ∀ c ∈ dropped, belongs c = true := by
  cases text with
  | nil => exact ⟨none, rfl, by simp⟩
  | cons c tail =>
      by_cases hc : belongs c = true
      · refine ⟨some c, by simp [dropOne, hc], fun other hother => ?_⟩
        rwa [← Option.some.inj hother]
      · exact ⟨none, by simp [dropOne, hc], by simp⟩

theorem dropOne_split (belongs : Char → Bool) (text : Text) :
    ∃ front, text = front ++ dropOne belongs text ∧
      ∀ c ∈ front, belongs c = true := by
  obtain ⟨dropped, hsplit, hdropped⟩ := exists_dropOne belongs text
  exact ⟨dropped.toList, hsplit, fun c hc => hdropped c (Option.mem_toList.mp hc)⟩

/-- Characters of a class that holds no mark. -/
theorem unmarked_of_belongs {belongs : Char → Bool}
    (hmarks : ∀ mark ∈ marks, belongs mark = false) {front : Text}
    (h : ∀ c ∈ front, belongs c = true) : Unmarked front := by
  intro c hc hmem
  have hbelongs := h c hc
  rw [hmarks c hmem] at hbelongs
  contradiction

/-- A word is read from a piece without marks that is not blank. -/
theorem quotedWord?_split (h : quotedWord? text = some (name, rest)) :
    ∃ front, text = front ++ rest ∧ Unmarked front ∧
      ∃ c ∈ front, isBlank c = false := by
  obtain ⟨opener, hopener, hopens⟩ := dropOne_split opensName text
  have hparts := List.takeWhile_append_dropWhile (p := isWordChar)
    (l := dropOne opensName text)
  obtain ⟨closer, hcloser, hcloses⟩ :=
    dropOne_split closesName ((dropOne opensName text).dropWhile isWordChar)
  rw [quotedWord?] at h
  by_cases hempty : ((dropOne opensName text).takeWhile isWordChar).isEmpty = true
  · rw [if_pos hempty] at h
    contradiction
  · rw [if_neg hempty, Option.some.injEq, Prod.mk.injEq] at h
    obtain ⟨hname, hrest⟩ := h
    rw [hname, hcloser, hrest] at hparts
    rw [hname] at hempty
    have hword : ∀ c ∈ name, isWordChar c = true := by
      intro c hc
      rw [← hname] at hc
      exact List.mem_takeWhile_imp hc
    refine ⟨opener ++ (name ++ closer), ?_, ?_, ?_⟩
    · rw [hopener, ← hparts]
      simp
    · apply (unmarked_of_belongs (by decide) hopens).append
      apply Unmarked.append _ (unmarked_of_belongs (by decide) hcloses)
      intro c hc
      exact not_mem_marks_of_isWordChar (hword c hc)
    · cases hcases : name with
      | nil => simp [hcases] at hempty
      | cons c tail =>
          refine ⟨c, by simp, ?_⟩
          apply isBlank_of_isWordChar
          apply hword
          simp [hcases]

theorem trimStart_split (text : Text) :
    ∃ blanks, text = blanks ++ trimStart text ∧
      ∀ c ∈ blanks, isBlank c = true :=
  ⟨text.takeWhile isBlank, List.takeWhile_append_dropWhile.symm,
    fun _ hc => List.mem_takeWhile_imp hc⟩

/-- Between a name and its bracket stands no mark. -/
theorem nameBeforeBracket?_split
    (h : nameBeforeBracket? text = some (name, rest)) :
    ∃ front, text = front ++ '(' :: rest ∧ Unmarked front ∧
      ∃ c ∈ front, isBlank c = false := by
  fun_induction nameBeforeBracket? text with
  | case1 | case2 | case5 => contradiction
  | case3 text word behind hword more hmore =>
      obtain ⟨front, rfl, hfront, hsolid⟩ := quotedWord?_split hword
      obtain ⟨blanks, hblanks, hall⟩ := trimStart_split behind
      obtain ⟨_, rfl⟩ : word = name ∧ more = rest := by simpa using h
      refine ⟨front ++ blanks, ?_, hfront.append (unmarked_of_blanks hall), ?_⟩
      · rw [hblanks, hmore, List.append_assoc]
      · obtain ⟨c, hc, hblank⟩ := hsolid
        exact ⟨c, List.mem_append_left _ hc, hblank⟩
  | case4 text word behind hword more hmore _ ih =>
      obtain ⟨front, rfl, hfront, hsolid⟩ := quotedWord?_split hword
      obtain ⟨blanks, hblanks, hall⟩ := trimStart_split behind
      obtain ⟨inner, hinner, hall'⟩ := trimStart_split more
      obtain ⟨last, hlast, hunmarked, _⟩ := ih h
      refine ⟨front ++ (blanks ++ '.' :: (inner ++ last)), ?_, ?_, ?_⟩
      · rw [hblanks, hmore, hinner, hlast]
        simp
      · apply hfront.append
        apply (unmarked_of_blanks hall).append
        intro c hc
        rcases List.mem_cons.mp hc with rfl | hc
        · decide
        · exact (unmarked_of_blanks hall').append hunmarked c hc
      · obtain ⟨c, hc, hblank⟩ := hsolid
        exact ⟨c, List.mem_append_left _ hc, hblank⟩

/-- A word is read up to what ends it. -/
theorem quotedWord?_word {word behind : Text} (hne : word ≠ [])
    (hchars : ∀ c ∈ word, isWordChar c = true)
    (hword : ∀ c ∈ behind.head?, isWordChar c = false)
    (hcloses : ∀ c ∈ behind.head?, closesName c = false) :
    quotedWord? (word ++ behind) = some (word, behind) := by
  have hopen : dropOne opensName (word ++ behind) = word ++ behind := by
    cases word with
    | nil => exact absurd rfl hne
    | cons c tail =>
        have hc : isWordChar c = true := hchars c List.mem_cons_self
        have hopens : opensName c = false := by
          by_contra hopens
          rw [Bool.not_eq_false] at hopens
          simp only [opensName, Bool.or_eq_true, beq_iff_eq] at hopens
          rcases hopens with (rfl | rfl) | rfl <;> simp [isWordChar] at hc
        simp [dropOne, hopens]
  have hclose : dropOne closesName behind = behind := by
    cases behind with
    | nil => rfl
    | cons c tail => simp [dropOne, hcloses c rfl]
  rw [quotedWord?, hopen, takeWhile_solid_append hchars hword,
    dropWhile_solid_append hchars hword, hclose]
  simp [hne]

theorem quotedWord?_identifier (identifier : Identifier) {behind : Text}
    (hword : ∀ c ∈ behind.head?, isWordChar c = false)
    (hcloses : ∀ c ∈ behind.head?, closesName c = false) :
    quotedWord? (identifier.text ++ behind) =
      some (identifier.text, behind) :=
  quotedWord?_word identifier.ne_nil (fun _ hc => identifier.isWordChar_of_mem hc)
    hword hcloses

/-- An identifier with a bracket behind it. -/
theorem nameBeforeBracket?_identifier (identifier : Identifier)
    (behind : Text) :
    nameBeforeBracket? (identifier.text ++ ' ' :: '(' :: behind) =
      some (identifier.text, behind) := by
  have hread : quotedWord? (identifier.text ++ ' ' :: '(' :: behind) =
      some (identifier.text, ' ' :: '(' :: behind) :=
    quotedWord?_identifier identifier (ends_space _) (by simp; decide)
  have htrim : trimStart (' ' :: '(' :: behind) = '(' :: behind := rfl
  rw [nameBeforeBracket?.eq_def]
  split
  · next hnone =>
      rw [hread] at hnone
      contradiction
  · next word rest hsome =>
      rw [hread, Option.some.injEq, Prod.mk.injEq] at hsome
      obtain ⟨rfl, rfl⟩ := hsome
      rw [htrim]
      simp

/-- The text up to the next closing bracket is what stands in front of it. -/
theorem upToBracket?_append {inside : Text} (hempty : inside ≠ [])
    (hinside : ')' ∉ inside) (behind : Text) :
    upToBracket? (inside ++ ')' :: behind) = some (inside, behind) := by
  have hne : ∀ c ∈ inside, (c != ')') = true := by
    intro c hc
    have : c ≠ ')' := by
      rintro rfl
      exact hinside hc
    simpa using this
  cases inside with
  | nil => exact absurd rfl hempty
  | cons c tail =>
      rw [upToBracket?, takeWhile_solid_append hne (by simp),
        dropWhile_solid_append hne (by simp)]

end names

/-- A recogniser of phrases that begin with a keyword and a blank. -/
def OpensWith (keyword : Text) {α : Type} (recognise : Text → Option α) :
    Prop :=
  ∀ text, afterSpacedKeyword? keyword text = none → recognise text = none

section search

variable {α : Type} {recognise : Text → Option α} {k c : Char}
  {keyword front word behind : Text}

/-- What reads as a keyword's first letter is a word character. -/
theorem foldCapital_ne (hkeyword : IsKeyword (k :: keyword))
    (hc : isWordChar c = false) : foldCapital c ≠ k := by
  rintro rfl
  rw [isWordChar_of_foldCapital (hkeyword.2 _ List.mem_cons_self).1] at hc
  contradiction

/-- A search over the places where a test of the character in front allows it. -/
def searchWhere (stands : Option Char → Bool) (recognise : Text → Option α) :
    Option Char → Text → Option α
  | _, [] => none
  | previous, c :: rest =>
      (if stands previous then recognise (c :: rest) else none).or
        (searchWhere stands recognise (some c) rest)

/-- Every place is allowed. -/
def anywhere (_ : Option Char) : Bool :=
  true

/-- The places that no word character precedes are allowed. -/
def atWord (previous : Option Char) : Bool :=
  !previous.any isWordChar

theorem search_eq (previous : Option Char) (text : Text) :
    search recognise text = searchWhere anywhere recognise previous text := by
  induction text generalizing previous with
  | nil => rfl
  | cons c rest ih => exact congrArg (Option.or _) (ih (some c))

theorem searchAtWord_eq (previous : Option Char) (text : Text) :
    searchAtWord recognise previous text = searchWhere atWord recognise previous text := by
  induction text generalizing previous with
  | nil => rfl
  | cons c rest ih =>
      rw [searchAtWord, searchWhere, atWord, ih]
      cases previous.any isWordChar <;> rfl

section passing

variable (hopens : OpensWith (k :: keyword) recognise) {stands : Option Char → Bool}
include hopens

theorem searchWhere_cons (hc : foldCapital c ≠ k) (previous : Option Char) (behind : Text) :
    searchWhere stands recognise previous (c :: behind) =
      searchWhere stands recognise (some c) behind := by
  rw [searchWhere, hopens _ (afterSpacedKeyword?_of_ne hc), ite_self, Option.none_or]

/-- A search passes over characters other than a phrase's first letter. -/
theorem searchWhere_eq_none_of_chars (hfront : ∀ c ∈ front, foldCapital c ≠ k)
    (hbehind : ∀ previous, searchWhere stands recognise previous behind = none)
    (previous : Option Char) :
    searchWhere stands recognise previous (front ++ behind) = none := by
  induction front generalizing previous with
  | nil => exact hbehind previous
  | cons c rest ih =>
      obtain ⟨hc, hrest⟩ := List.forall_mem_cons.mp hfront
      rw [List.cons_append, searchWhere_cons hopens hc]
      exact ih hrest (some c)

theorem search_cons_eq_none (hc : foldCapital c ≠ k)
    (hbehind : search recognise behind = none) : search recognise (c :: behind) = none := by
  rw [search_eq none, searchWhere_cons hopens hc, ← search_eq, hbehind]

theorem search_eq_none_of_chars (hfront : ∀ c ∈ front, foldCapital c ≠ k)
    (hbehind : search recognise behind = none) :
    search recognise (front ++ behind) = none := by
  rw [search_eq none]
  refine searchWhere_eq_none_of_chars hopens hfront (fun previous => ?_) none
  rw [← search_eq, hbehind]

theorem searchAtWord_cons_eq_none (hc : foldCapital c ≠ k)
    (hbehind : ∀ previous, searchAtWord recognise previous behind = none)
    (previous : Option Char) : searchAtWord recognise previous (c :: behind) = none := by
  rw [searchAtWord_eq, searchWhere_cons hopens hc, ← searchAtWord_eq, hbehind]

theorem searchAtWord_eq_none_of_chars (hfront : ∀ c ∈ front, foldCapital c ≠ k)
    (hbehind : ∀ previous, searchAtWord recognise previous behind = none)
    (previous : Option Char) : searchAtWord recognise previous (front ++ behind) = none := by
  rw [searchAtWord_eq]
  refine searchWhere_eq_none_of_chars hopens hfront (fun other => ?_) previous
  rw [← searchAtWord_eq, hbehind]

end passing

/-- A search passes over a word that no blank ends. -/
theorem search_eq_none_of_word (hkeyword : IsKeyword keyword)
    (hopens : OpensWith keyword recognise)
    (hword : ∀ c ∈ word, isWordChar c = true)
    (hends : ∀ c ∈ behind.head?, isWordChar c = false ∧ isBlank c = false)
    (hbehind : search recognise behind = none) :
    search recognise (word ++ behind) = none := by
  induction word with
  | nil => exact hbehind
  | cons c rest ih =>
      have hnone : recognise (c :: (rest ++ behind)) = none := by
        apply hopens
        rw [Option.eq_none_iff_forall_ne_some]
        intro tail htail
        obtain ⟨_, ⟨blank, hblank, hisBlank⟩, _⟩ :=
          afterSpacedKeyword?_word hkeyword hword
            (fun c hc => (hends c hc).1) htail
        rw [(hends blank hblank).2] at hisBlank
        contradiction
      rw [List.cons_append, search, hnone, Option.none_or]
      apply ih
      intro other hother
      exact hword other (List.mem_cons_of_mem c hother)

/-- Inside a word nothing is looked for. -/
theorem searchAtWord_eq_none_inside {previous : Char}
    (hprevious : isWordChar previous = true)
    (hword : ∀ c ∈ word, isWordChar c = true)
    (hbehind : ∀ previous, searchAtWord recognise previous behind = none) :
    searchAtWord recognise (some previous) (word ++ behind) = none := by
  induction word generalizing previous with
  | nil => exact hbehind _
  | cons c rest ih =>
      rw [List.cons_append, searchAtWord, Option.any_some, if_pos hprevious,
        Option.none_or]
      apply ih (hword c List.mem_cons_self)
      intro other hother
      exact hword other (List.mem_cons_of_mem c hother)

/-- A search at words passes over a word that is not the keyword. -/
theorem searchAtWord_eq_none_of_word (hkeyword : IsKeyword keyword)
    (hopens : OpensWith keyword recognise)
    (hword : ∀ c ∈ word, isWordChar c = true)
    (hne : word.map foldCapital ≠ keyword)
    (hends : ∀ c ∈ behind.head?, isWordChar c = false)
    (hbehind : ∀ previous, searchAtWord recognise previous behind = none)
    (previous : Option Char) :
    searchAtWord recognise previous (word ++ behind) = none := by
  cases word with
  | nil => exact hbehind previous
  | cons c rest =>
      have hnone : recognise (c :: (rest ++ behind)) = none :=
        hopens _ (afterSpacedKeyword?_eq_none hkeyword hword hne hends)
      rw [List.cons_append, searchAtWord, hnone, ite_self, Option.none_or]
      apply searchAtWord_eq_none_inside (hword c List.mem_cons_self) _ hbehind
      intro other hother
      exact hword other (List.mem_cons_of_mem c hother)

end search

section firstPlace

variable {α : Type} {c : Char} {text rest : Text} {value : α}

/-- What is spelled at the first place of a text where anything is.  A place may be excluded
by what stands in front of it. -/
def FirstSpelled (allowed : Text → Prop) (spelled : Text → α → Prop) (text : Text)
    (value : α) : Prop :=
  ∃ front rest, text = front ++ rest ∧ allowed front ∧ spelled rest value ∧
    ∀ earlier behind, text = earlier ++ behind → earlier.length < front.length →
      allowed earlier → ∀ other, ¬ spelled behind other

variable {allowed : Text → Prop} {spelled : Text → α → Prop}

theorem firstSpelled_nil (hnil : ∀ other, ¬ spelled [] other) :
    ¬ FirstSpelled allowed spelled [] value := by
  rintro ⟨front, rest, hsplit, _, hspelled, _⟩
  rw [(List.append_eq_nil_iff.mp hsplit.symm).2] at hspelled
  exact hnil value hspelled

/-- The first place is in front of the text, or it is behind its first character. -/
theorem firstSpelled_cons : FirstSpelled allowed spelled (c :: rest) value ↔
    (allowed [] ∧ spelled (c :: rest) value) ∨
      (allowed [] → ∀ other, ¬ spelled (c :: rest) other) ∧
        FirstSpelled (fun front => allowed (c :: front)) spelled rest value := by
  constructor
  · rintro ⟨front, behind, hsplit, hallowed, hspelled, hfirst⟩
    cases front with
    | nil =>
        obtain rfl : c :: rest = behind := hsplit
        exact Or.inl ⟨hallowed, hspelled⟩
    | cons d front =>
        obtain ⟨rfl, rfl⟩ := List.cons.inj hsplit
        refine Or.inr ⟨hfirst [] _ rfl (Nat.succ_pos _), front, behind, rfl, hallowed,
          hspelled, ?_⟩
        intro earlier later hlater hlt
        exact hfirst (c :: earlier) later (congrArg (c :: ·) hlater) (Nat.succ_lt_succ hlt)
  · rintro (⟨hallowed, hspelled⟩ | ⟨hnone, front, behind, rfl, hallowed, hspelled, hfirst⟩)
    · exact ⟨[], c :: rest, rfl, hallowed, hspelled, by simp⟩
    · refine ⟨c :: front, behind, rfl, hallowed, hspelled, ?_⟩
      intro earlier later hlater hlt
      cases earlier with
      | nil =>
          obtain rfl := hlater
          exact hnone
      | cons d earlier =>
          obtain ⟨rfl, htail⟩ := List.cons.inj hlater
          exact hfirst earlier later htail (Nat.lt_of_succ_lt_succ hlt)

/-- A place where nothing is spelled is passed over. -/
theorem firstSpelled_cons_of_not (hnone : allowed [] → ∀ other, ¬ spelled (c :: rest) other) :
    FirstSpelled allowed spelled (c :: rest) value ↔
      FirstSpelled (fun front => allowed (c :: front)) spelled rest value := by
  rw [firstSpelled_cons, and_iff_right hnone]
  exact or_iff_right fun h => hnone h.1 value h.2

/-- Something is spelled first where anything is spelled. -/
theorem exists_firstSpelled_iff : (∃ value, FirstSpelled allowed spelled text value) ↔
    ∃ front rest value, text = front ++ rest ∧ allowed front ∧ spelled rest value := by
  constructor
  · rintro ⟨value, front, rest, hsplit, hallowed, hspelled, _⟩
    exact ⟨front, rest, value, hsplit, hallowed, hspelled⟩
  · rintro ⟨front, rest, value, hsplit, hallowed, hspelled⟩
    induction hlength : front.length using Nat.strong_induction_on
      generalizing front rest value with
    | h length ih =>
        by_cases hfirst : ∀ earlier behind, text = earlier ++ behind →
            earlier.length < front.length → allowed earlier → ∀ other, ¬ spelled behind other
        · exact ⟨value, front, rest, hsplit, hallowed, hspelled, hfirst⟩
        · push Not at hfirst
          obtain ⟨earlier, behind, hbehind, hlt, hearlier, other, hother⟩ := hfirst
          exact ih _ (hlength ▸ hlt) earlier behind other hbehind hearlier hother rfl

variable {recognise : Text → Option α} (hnil : recognise [] = none)
  (hspelled : ∀ text value, recognise text = some value ↔ spelled text value)
include hnil hspelled

/-- A search finds what is spelled first. -/
theorem search_eq_some_iff :
    search recognise text = some value ↔ FirstSpelled (fun _ => True) spelled text value := by
  induction text with
  | nil =>
      have hnone : ∀ other, ¬ spelled [] other := by
        intro other hother
        rw [← hspelled, hnil] at hother
        contradiction
      simp [search, firstSpelled_nil hnone]
  | cons c rest ih =>
      have hnone : recognise (c :: rest) = none ↔ ∀ other, ¬ spelled (c :: rest) other := by
        simp only [Option.eq_none_iff_forall_ne_some, ne_eq, hspelled]
      rw [search, Option.or_eq_some_iff, hspelled, hnone, ih, firstSpelled_cons, true_and,
        true_imp_iff]

end firstPlace

end Phrase

end DdlDiagram
