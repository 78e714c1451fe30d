/-
Words in a text: what a blank between two pieces does to the words of the whole,
and how a joined list comes apart again.
-/
import DdlDiagram.Text.Blank
import Mathlib.Data.List.Basic

namespace DdlDiagram

namespace Text

/-- Whether all characters of a text pass a test is decided along the text. -/
instance {p : Char → Prop} [DecidablePred p] (text : Text) :
    Decidable (∀ c ∈ text, p c) :=
  List.decidableBAll p text

/-- A text that is one word. -/
def IsWord (text : Text) : Prop :=
  text ≠ [] ∧ ∀ c ∈ text, isBlank c = false

instance (text : Text) : Decidable (IsWord text) :=
  inferInstanceAs (Decidable (_ ∧ _))

/-- A text in which a word that stands in front of it ends. -/
def Breaks (text : Text) : Prop :=
  ∀ c ∈ text.head?, isBlank c = true

theorem isBlank_space : isBlank ' ' = true := by
  decide

/-- A word ends in front of a space. -/
theorem breaks_space (rest : Text) : Breaks (' ' :: rest) := by
  intro c hc
  rw [← Option.some.inj hc]
  exact isBlank_space

section words

variable {left right blanks word : Text} {blank : Char}

theorem cutWords_append_blank (hblank : isBlank blank = true) :
    cutWords (left ++ blank :: right) =
      ((cutWords left).1, (cutWords left).2 ++ words right) := by
  induction left with
  | nil => simp [cutWords, words, hblank]
  | cons c rest ih =>
      simp only [List.cons_append, cutWords, ih]
      by_cases hc : isBlank c = true
      · rw [if_pos hc, if_pos hc]
        by_cases hempty : (cutWords rest).1.isEmpty = true
        · rw [if_pos hempty, if_pos hempty]
        · rw [if_neg hempty, if_neg hempty, List.cons_append]
      · rw [if_neg hc, if_neg hc]

/-- A blank ends a word. -/
theorem words_append_blank (hblank : isBlank blank = true) :
    words (left ++ blank :: right) = words left ++ words right := by
  rw [words.eq_1 (left ++ blank :: right), cutWords_append_blank hblank,
    words.eq_1 left]
  by_cases hempty : (cutWords left).1.isEmpty = true
  · simp only [hempty, ↓reduceIte]
  · simp only [hempty, Bool.false_eq_true, ↓reduceIte, List.cons_append]

theorem words_cons_blank (hblank : isBlank blank = true) :
    words (blank :: right) = words right := by
  have hwords : words ([] ++ blank :: right) = words [] ++ words right :=
    words_append_blank hblank
  exact hwords

theorem words_append_of_blanks (hblanks : ∀ c ∈ blanks, isBlank c = true) :
    words (blanks ++ right) = words right := by
  induction blanks with
  | nil => rfl
  | cons c rest ih =>
      rw [List.cons_append, words_cons_blank (hblanks c List.mem_cons_self)]
      apply ih
      intro other hother
      exact hblanks other (List.mem_cons_of_mem c hother)

theorem cutWords_of_solid (hword : ∀ c ∈ word, isBlank c = false) :
    cutWords word = (word, []) := by
  induction word with
  | nil => rfl
  | cons c rest ih =>
      have hc := hword c List.mem_cons_self
      have hrest := ih fun other hother =>
        hword other (List.mem_cons_of_mem c hother)
      simp [cutWords, hc, hrest]

theorem words_of_isWord (hword : IsWord word) : words word = [word] := by
  rw [words, cutWords_of_solid hword.2]
  simp [hword.1]

/-- The word in front of a blank is the first. -/
theorem words_isWord_append (hword : IsWord word)
    (hblank : isBlank blank = true) :
    words (word ++ blank :: right) = word :: words right := by
  rw [words_append_blank hblank, words_of_isWord hword]
  rfl

/-- More text in front does not make fewer words. -/
theorem length_words_le (left right : Text) :
    (words right).length ≤ (words (left ++ right)).length := by
  induction left with
  | nil => exact Nat.le_refl _
  | cons c rest ih =>
      apply Nat.le_trans ih
      by_cases hc : isBlank c = true
      · have hwords : words (c :: rest ++ right) = words (rest ++ right) :=
          words_cons_blank hc
        exact Nat.le_of_eq (congrArg List.length hwords.symm)
      · simp only [List.cons_append, words, cutWords, hc]
        by_cases hempty : (cutWords (rest ++ right)).1.isEmpty = true
        · simp [hempty]
        · simp [hempty]

/-- A text with a character that is not blank has a word. -/
theorem words_pos {c : Char} (hmem : c ∈ left) (hc : isBlank c = false) :
    0 < (words left).length := by
  obtain ⟨front, back, rfl⟩ := List.append_of_mem hmem
  apply Nat.lt_of_lt_of_le _ (length_words_le front (c :: back))
  simp [words, cutWords, hc]

theorem trimStart_of_solid {c : Char} (hc : isBlank c = false) :
    trimStart (c :: right) = c :: right := by
  simp [trimStart, hc]

theorem trimStart_isWord_append (hword : IsWord word) :
    trimStart (word ++ right) = word ++ right := by
  cases word with
  | nil => exact absurd rfl hword.1
  | cons c rest => exact trimStart_of_solid (hword.2 c List.mem_cons_self)

theorem takeWhile_solid_append {p : Char → Bool} (hword : ∀ c ∈ word, p c = true)
    (hright : ∀ c ∈ right.head?, p c = false) :
    (word ++ right).takeWhile p = word := by
  rw [List.takeWhile_append_of_pos hword]
  cases right with
  | nil => simp
  | cons c rest => simp [hright c rfl]

theorem dropWhile_solid_append {p : Char → Bool} (hword : ∀ c ∈ word, p c = true)
    (hright : ∀ c ∈ right.head?, p c = false) :
    (word ++ right).dropWhile p = right := by
  rw [List.dropWhile_append_of_pos hword]
  cases right with
  | nil => simp
  | cons c rest => simp [hright c rfl]

/-- The first word ends where a blank begins. -/
theorem firstWord_isWord_append (hword : IsWord word) (hright : Breaks right) :
    firstWord (word ++ right) = word := by
  rw [firstWord, trimStart_isWord_append hword]
  apply takeWhile_solid_append
  · intro c hc
    simp [hword.2 c hc]
  · intro c hc
    simp [hright c hc]

end words

theorem dropWhile_eq_self {p : Char → Bool} {text : Text}
    (h : ∀ c ∈ text.head?, p c = false) : text.dropWhile p = text := by
  cases text with
  | nil => rfl
  | cons c rest =>
      rw [List.dropWhile_cons_of_neg]
      simp [h c rfl]

/-- What is trimmed off is the characters of the class on both sides. -/
theorem trimMatching_framed {isEdge : Char → Bool} {front text back : Text}
    (hfront : ∀ c ∈ front, isEdge c = true) (hback : ∀ c ∈ back, isEdge c = true)
    (hne : text ≠ []) (hfirst : ∀ c ∈ text.head?, isEdge c = false)
    (hlast : ∀ c ∈ text.getLast?, isEdge c = false) :
    trimMatching isEdge (front ++ (text ++ back)) = text := by
  have hstart : (front ++ (text ++ back)).dropWhile isEdge = text ++ back := by
    rw [List.dropWhile_append_of_pos hfront, dropWhile_eq_self]
    intro c hc
    rw [List.head?_append_of_ne_nil _ hne] at hc
    exact hfirst c hc
  rw [trimMatching, hstart, List.reverse_append, List.dropWhile_append_of_pos,
    dropWhile_eq_self, List.reverse_reverse]
  · intro c hc
    rw [List.head?_reverse] at hc
    exact hlast c hc
  · intro c hc
    exact hback c (List.mem_reverse.mp hc)

/-- A text without such characters at its ends has none to lose. -/
theorem trimMatching_eq_self {isEdge : Char → Bool} {text : Text}
    (hfirst : ∀ c ∈ text.head?, isEdge c = false)
    (hlast : ∀ c ∈ text.getLast?, isEdge c = false) : trimMatching isEdge text = text := by
  rw [trimMatching, dropWhile_eq_self hfirst, dropWhile_eq_self, List.reverse_reverse]
  intro c hc
  rw [List.head?_reverse] at hc
  exact hlast c hc

theorem trim_eq_self {text : Text} (hfirst : ∀ c ∈ text.head?, isBlank c = false)
    (hlast : ∀ c ∈ text.getLast?, isBlank c = false) : trim text = text :=
  trimMatching_eq_self hfirst hlast

theorem trim_isWord {word : Text} (hword : IsWord word) : trim word = word := by
  apply trim_eq_self
  · intro c hc
    exact hword.2 c (List.mem_of_mem_head? hc)
  · intro c hc
    exact hword.2 c (List.mem_of_mem_getLast? hc)

/-- A text that begins and ends with a word has no blanks around it. -/
theorem trim_framed {left right : Text} (hleft : IsWord left)
    (hright : IsWord right) (middle : Text) :
    trim (left ++ (middle ++ right)) = left ++ (middle ++ right) := by
  apply trim_eq_self
  · intro c hc
    rw [List.head?_append_of_ne_nil _ hleft.1] at hc
    exact hleft.2 c (List.mem_of_mem_head? hc)
  · intro c hc
    rw [← List.append_assoc, List.getLast?_append_of_ne_nil _ hright.1] at hc
    exact hright.2 c (List.mem_of_mem_getLast? hc)

/-- Trimming adds nothing. -/
theorem mem_of_mem_trimMatching {isEdge : Char → Bool} {text : Text} {c : Char}
    (h : c ∈ trimMatching isEdge text) : c ∈ text := by
  have hreverse := (List.dropWhile_suffix isEdge).subset (List.mem_reverse.mp h)
  exact (List.dropWhile_suffix isEdge).subset (List.mem_reverse.mp hreverse)

/-- A joined list is its first part, and the others behind a separator each. -/
theorem joined_cons (separator part : Text) (rest : List Text) :
    joined separator (part :: rest) =
      part ++ rest.flatMap (separator ++ ·) := by
  induction rest generalizing part with
  | nil => simp [joined]
  | cons next rest ih => simp [joined, ih]

theorem splitAt_append {mark : Char} {part rest : Text} (hpart : mark ∉ part) :
    splitAt mark (part ++ mark :: rest) = part :: splitAt mark rest := by
  induction part with
  | nil => simp [splitAt, cutAt]
  | cons c tail ih =>
      have hc : c ≠ mark := fun heq => hpart (heq ▸ List.mem_cons_self)
      have htail : mark ∉ tail := fun hmem =>
        hpart (List.mem_cons_of_mem c hmem)
      have := ih htail
      simp only [splitAt, List.cons.injEq] at this
      simp [splitAt, cutAt, hc, this.1, this.2]

theorem splitAt_of_not_mem {mark : Char} {part : Text} (hpart : mark ∉ part) :
    splitAt mark part = [part] := by
  induction part with
  | nil => rfl
  | cons c tail ih =>
      have hc : c ≠ mark := fun heq => hpart (heq ▸ List.mem_cons_self)
      have htail : mark ∉ tail := fun hmem =>
        hpart (List.mem_cons_of_mem c hmem)
      have := ih htail
      simp only [splitAt, List.cons.injEq] at this
      simp [splitAt, cutAt, hc, this.1, this.2]

theorem joined_splitAt (mark : Char) (text : Text) :
    joined [mark] (splitAt mark text) = text := by
  induction text with
  | nil => rfl
  | cons c rest ih =>
      simp only [splitAt] at ih
      rw [splitAt, cutAt]
      by_cases hc : c = mark
      · rw [if_pos hc, joined, ih, hc]
        rfl
      · rw [if_neg hc, joined_cons, List.cons_append, ← joined_cons, ih]

theorem not_mem_of_mem_splitAt {mark : Char} {text part : Text} (h : part ∈ splitAt mark text) :
    mark ∉ part := by
  induction text generalizing part with
  | nil =>
      rw [List.mem_singleton.mp h]
      exact List.not_mem_nil
  | cons c rest ih =>
      simp only [splitAt] at ih
      rw [splitAt, cutAt] at h
      by_cases hc : c = mark
      · rw [if_pos hc] at h
        rcases List.mem_cons.mp h with rfl | h
        · exact List.not_mem_nil
        · exact ih h
      · rw [if_neg hc] at h
        rcases List.mem_cons.mp h with rfl | h
        · rw [List.mem_cons, not_or]
          exact ⟨Ne.symm hc, ih List.mem_cons_self⟩
        · exact ih (List.mem_cons_of_mem _ h)

/-- Parts that do not hold the mark come apart at it. -/
theorem splitAt_joined {mark : Char} {parts : List Text} (hne : parts ≠ [])
    (h : ∀ part ∈ parts, mark ∉ part) : splitAt mark (joined [mark] parts) = parts := by
  induction parts with
  | nil => exact absurd rfl hne
  | cons part rest ih =>
      obtain ⟨hpart, hrest⟩ := List.forall_mem_cons.mp h
      cases rest with
      | nil => exact splitAt_of_not_mem hpart
      | cons next rest =>
          rw [joined, List.append_assoc, List.singleton_append, splitAt_append hpart,
            ih (List.cons_ne_nil _ _) hrest]

end Text

end DdlDiagram
