/-
Searches that go from word to word.  A phrase begins with a keyword and a blank, so
inside a word it can begin only where the rest of the word is the keyword, and it goes
on with the next word.  A search passes a word behind which no phrase goes on.
-/
import DdlDiagram.Proofs.Blanking
import DdlDiagram.Proofs.NameClass
import Mathlib.Data.List.Infix

namespace DdlDiagram.Phrase

open Text

variable {α : Type} {recognise : Text → Option α} {f : Text → Option α}
  {k : Char} {keyword word behind rest : Text} {previous : Option Char}

/-- In front of a blank the keyword is the rest of the word. -/
theorem afterSpacedKeyword?_solid (hkeyword : IsKeyword keyword)
    (hword : ∀ c ∈ word, isBlank c = false)
    (h : afterSpacedKeyword? keyword (word ++ ' ' :: behind) = some rest) :
    word.map foldCapital = keyword ∧ trimStart behind = rest := by
  obtain ⟨tail, hread, hblanks⟩ := Option.bind_eq_some_iff.mp h
  obtain ⟨used, hsplit, hused⟩ := afterKeyword?_eq_some_iff.mp hread
  have htrim := trimStart_of_afterBlanks? hblanks
  obtain ⟨blank, blanks, rfl, hblank, _⟩ := afterBlanks?_eq_some hblanks
  have hsolid : ∀ c ∈ used, (!isBlank c) = true := by
    intro c hc
    simp [isBlank_of_isWordChar (hkeyword.isWordChar_of_map hused c hc)]
  have hfront : word = used := by
    have hleft : (word ++ ' ' :: behind).takeWhile (fun c => !isBlank c) = word :=
      takeWhile_solid_append (fun c hc => by simp [hword c hc]) (by simp [isBlank_space])
    have hright : (used ++ blank :: (blanks ++ rest)).takeWhile (fun c => !isBlank c) = used :=
      takeWhile_solid_append hsolid (by simp [hblank])
    rw [hsplit, hright] at hleft
    exact hleft.symm
  subst hfront
  obtain ⟨rfl, rfl⟩ := List.cons.inj (List.append_cancel_left hsplit)
  exact ⟨hused, htrim⟩

/-- A recogniser of phrases with a keyword in front. -/
def ReadsAfter (keyword : Text) (f recognise : Text → Option α) : Prop :=
  ∀ text, recognise text = (afterSpacedKeyword? keyword text).bind f

theorem ReadsAfter.opensWith (h : ReadsAfter keyword f recognise) :
    OpensWith keyword recognise := by
  intro text hnone
  rw [h, hnone, Option.bind_none]

/-- No place in a word reads as the keyword from there to the word's end. -/
def EndsOtherwise (keyword word : Text) : Prop :=
  ∀ place ∈ word.tails, place.map foldCapital ≠ keyword

instance (keyword word : Text) : Decidable (EndsOtherwise keyword word) :=
  inferInstanceAs (Decidable (∀ _ ∈ _, _))

/-- An identifier is compared with a keyword in small letters. -/
theorem endsOtherwise_identifier (identifier : Identifier)
    (h : ∀ place ∈ (asciiLower identifier.text).tails, place ≠ asciiLower keyword) :
    EndsOtherwise keyword identifier.text := by
  intro place hplace
  have hsuffix := (List.mem_tails _ _).mp hplace
  apply map_foldCapital_ne fun c hc => identifier.isNameChar_of_mem (hsuffix.subset hc)
  exact h _ ((List.mem_tails _ _).mpr (hsuffix.map Char.toLower))

/-- What ends in a sign does not end in a keyword. -/
theorem endsOtherwise_sign (hkeyword : IsKeyword keyword) {sign : Char}
    (hsign : isWordChar sign = false) (front : Text) :
    EndsOtherwise keyword (front ++ [sign]) := by
  intro place hplace hmap
  have hne : place ≠ [] := by
    rintro rfl
    exact hkeyword.1 hmap.symm
  obtain ⟨before, hbefore⟩ := (List.mem_tails _ _).mp hplace
  have hlast : place.getLast? = some sign := by
    have hwhole := congrArg List.getLast? hbefore
    rwa [List.getLast?_append_of_ne_nil _ hne, List.getLast?_concat] at hwhole
  rw [hkeyword.isWordChar_of_map hmap sign (List.mem_of_mem_getLast? hlast)] at hsign
  contradiction

section passing

variable (hkeyword : IsKeyword (k :: keyword)) (hreads : ReadsAfter (k :: keyword) f recognise)
include hkeyword hreads

/-- What a word has to be in front of so that no phrase begins in it. -/
theorem recognise_solid (hword : ∀ c ∈ word, isBlank c = false)
    (hpass : word.map foldCapital = k :: keyword → f (trimStart behind) = none) :
    recognise (word ++ ' ' :: behind) = none := by
  rw [hreads, Option.eq_none_iff_forall_ne_some]
  intro result hresult
  obtain ⟨rest, hrest, hread⟩ := Option.bind_eq_some_iff.mp hresult
  obtain ⟨hmap, rfl⟩ := afterSpacedKeyword?_solid hkeyword hword hrest
  rw [hpass hmap] at hread
  contradiction

/-- A search passes a word that does not end in the keyword, or behind which the phrase
does not go on. -/
theorem searchWhere_solid {stands : Option Char → Bool} (hword : ∀ c ∈ word, isBlank c = false)
    (hpass : ∀ place, place <:+ word → place.map foldCapital = k :: keyword →
      f (trimStart behind) = none) (previous : Option Char) :
    searchWhere stands recognise previous (word ++ ' ' :: behind) =
      searchWhere stands recognise (some ' ') behind := by
  induction word generalizing previous with
  | nil => exact searchWhere_cons hreads.opensWith (foldCapital_ne hkeyword (by decide)) _ _
  | cons c tail ih =>
      have hhere : recognise (c :: (tail ++ ' ' :: behind)) = none :=
        recognise_solid hkeyword hreads hword (hpass _ List.suffix_rfl)
      rw [List.cons_append, searchWhere, hhere, ite_self, Option.none_or]
      exact ih (fun other hother => hword other (List.mem_cons_of_mem c hother))
        (fun place hplace => hpass place (hplace.trans (List.suffix_cons c tail))) (some c)

/-- A search passes a word that does not end in the keyword, whatever follows it. -/
theorem searchWhere_other {stands : Option Char → Bool} (hword : ∀ c ∈ word, isBlank c = false)
    (h : EndsOtherwise (k :: keyword) word) (previous : Option Char) :
    searchWhere stands recognise previous (word ++ ' ' :: behind) =
      searchWhere stands recognise (some ' ') behind :=
  searchWhere_solid hkeyword hreads hword (fun place hplace hmap =>
    absurd hmap (h place ((List.mem_tails _ _).mpr hplace))) previous

theorem search_solid (hword : ∀ c ∈ word, isBlank c = false)
    (hpass : ∀ place, place <:+ word → place.map foldCapital = k :: keyword →
      f (trimStart behind) = none) :
    search recognise (word ++ ' ' :: behind) = search recognise behind := by
  rw [search_eq none, searchWhere_solid hkeyword hreads hword hpass, ← search_eq]

theorem search_other (hword : ∀ c ∈ word, isBlank c = false)
    (h : EndsOtherwise (k :: keyword) word) :
    search recognise (word ++ ' ' :: behind) = search recognise behind := by
  rw [search_eq none, searchWhere_other hkeyword hreads hword h, ← search_eq]

theorem searchAtWord_solid (hword : ∀ c ∈ word, isBlank c = false)
    (hpass : ∀ place, place <:+ word → place.map foldCapital = k :: keyword →
      f (trimStart behind) = none) :
    searchAtWord recognise previous (word ++ ' ' :: behind) =
      searchAtWord recognise none behind := by
  rw [searchAtWord_eq, searchWhere_solid hkeyword hreads hword hpass, ← searchAtWord_eq,
    BlankedAlike.searchAtWord_behind (by decide)]

end passing

theorem readsAfter_keyWordsHere? :
    ReadsAfter "PRIMARY".toList (fun text => do
      let text ← afterKeyword? "KEY".toList text
      if text.head?.any isWordChar then none else some ()) Clause.keyWordsHere? :=
  fun _ => rfl

theorem readsAfter_referenceHere? :
    ReadsAfter "REFERENCES".toList (fun text => do
      let (table, text) ← nameBeforeBracket? text
      let (column, text) ← quotedWord? (trimStart text)
      let _ ← afterChar? ')' (trimStart text)
      return (table, column)) Clause.referenceHere? :=
  fun _ => rfl

theorem readsAfter_primaryKeyHere? :
    ReadsAfter "PRIMARY".toList (fun text => do
      let text ← afterKeyword? "KEY".toList text
      let text := trimStart text
      let text ← afterChar? '(' ((Clause.afterStorage? text).getD text)
      let (columns, _) ← upToBracket? text
      return Clause.columnNames columns) Clause.primaryKeyHere? :=
  fun _ => rfl

theorem readsAfter_foreignKeyHere? :
    ReadsAfter "FOREIGN".toList (fun text => do
      let text ← afterKeyword? "KEY".toList text
      let text := trimStart text
      let text := ((quotedWord? text).map fun read => trimStart read.2).getD text
      let text ← afterChar? '(' text
      let (columns, text) ← upToBracket? text
      let text ← afterSpacedKeyword? "REFERENCES".toList (trimStart text)
      let (table, text) ← nameBeforeBracket? text
      let (targets, _) ← upToBracket? text
      return List.zipWith (fun column target => ⟨column, table, target⟩)
        (Clause.columnNames columns) (Clause.columnNames targets)) Clause.foreignKeyHere? :=
  fun _ => rfl

/-- What is recognised at the front of a text is the first that is found. -/
theorem searchAtWord_of_recognise {text : Text} {result : α} (hne : text ≠ [])
    (h : recognise text = some result) : searchAtWord recognise none text = some result := by
  cases text with
  | nil => exact absurd rfl hne
  | cons c rest => rw [searchAtWord, h, Option.any_none, if_neg Bool.false_ne_true, Option.some_or]

/-- No phrase begins in a text without blanks. -/
theorem search_eq_none_of_solid (hopens : OpensWith keyword recognise)
    (hword : ∀ c ∈ word, isBlank c = false) : search recognise word = none := by
  rw [Option.eq_none_iff_forall_ne_some]
  intro result hresult
  obtain ⟨place, hplace, hread⟩ := exists_of_search hresult
  have hnone : afterSpacedKeyword? keyword place = none := by
    rw [Option.eq_none_iff_forall_ne_some]
    intro rest hrest
    obtain ⟨tail, htail, hblanks⟩ := Option.bind_eq_some_iff.mp hrest
    obtain ⟨used, rfl, _⟩ := afterKeyword?_eq_some_iff.mp htail
    obtain ⟨blank, blanks, rfl, hblank, _⟩ := afterBlanks?_eq_some hblanks
    have hmem : blank ∈ word :=
      hplace.subset (List.mem_append_right _ List.mem_cons_self)
    rw [hword blank hmem] at hblank
    contradiction
  rw [hopens place hnone] at hread
  contradiction

/-- What stands nowhere in a text is at no word of it. -/
theorem searchAtWord_eq_none_of_search (h : search recognise word = none) :
    searchAtWord recognise previous word = none := by
  induction word generalizing previous with
  | nil => rfl
  | cons c tail ih =>
      obtain ⟨hhere, hlater⟩ := Option.or_eq_none_iff.mp h
      rw [searchAtWord, hhere, ite_self, Option.none_or]
      exact ih hlater

end DdlDiagram.Phrase
