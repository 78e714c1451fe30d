/-
The search for table headers.  A header reads at least three words and no mark in
front of its bracket, so a piece of text without marks that has fewer words starts
none, and one that starts inside a literal ends there.
-/
import DdlDiagram.Header
import DdlDiagram.Proofs.Phrasing

namespace DdlDiagram

open Text Phrase

namespace Header

/-- What is left of a text behind a piece without marks. -/
def Behind (rest text : Text) : Prop :=
  ∃ front, text = front ++ rest ∧ Unmarked front

theorem Behind.refl (text : Text) : Behind text text :=
  ⟨[], rfl, unmarked_nil⟩

theorem Behind.trans {first second text : Text} (h : Behind first second)
    (h' : Behind second text) : Behind first text := by
  obtain ⟨right, rfl, hright⟩ := h
  obtain ⟨left, rfl, hleft⟩ := h'
  exact ⟨left ++ right, by simp, hleft.append hright⟩

theorem behind_of_keyword {keyword text rest : Text}
    (hkeyword : IsKeyword keyword)
    (h : afterSpacedKeyword? keyword text = some rest) : Behind rest text := by
  obtain ⟨front, hfront, hspans⟩ := afterSpacedKeyword?_split hkeyword h
  exact ⟨front, hfront, hspans.1⟩

theorem behind_temporary (text : Text) :
    Behind ((afterTemporary? text).getD text) text := by
  refine of_getD (motive := (Behind · text)) (.refl text) fun rest h => ?_
  apply (of_either (by decide) (by decide) behind_of_keyword h).trans
  refine of_getD (motive := (Behind · text)) (.refl text) fun start hstart => ?_
  exact of_either (by decide) (by decide) behind_of_keyword hstart

theorem behind_ifNotExists (text : Text) :
    Behind ((afterIfNotExists? text).getD text) text := by
  refine of_getD (motive := (Behind · text)) (.refl text) fun rest h => ?_
  obtain ⟨first, hfirst, h⟩ := Option.bind_eq_some_iff.mp h
  obtain ⟨second, hsecond, h⟩ := Option.bind_eq_some_iff.mp h
  apply (behind_of_keyword (by decide) h).trans
  apply (behind_of_keyword (by decide) hsecond).trans
  exact behind_of_keyword (by decide) hfirst

/-- A header is three words or more, then the bracket that opens a body. -/
theorem read?_split {text name body : Text}
    (h : read? text = some (name, body)) :
    ∃ front, text = front ++ '(' :: body ∧ Unmarked front ∧
      3 ≤ (words front).length := by
  obtain ⟨first, hcreate, hfirst⟩ := Option.bind_eq_some_iff.mp h
  obtain ⟨second, htable, hname⟩ := Option.bind_eq_some_iff.mp hfirst
  obtain ⟨create, htext, hcreate⟩ :=
    afterSpacedKeyword?_split (by decide) hcreate
  obtain ⟨temporary, hfirst, htemporary⟩ := behind_temporary first
  obtain ⟨table, hsecond, htable⟩ := afterSpacedKeyword?_split (by decide) htable
  obtain ⟨exists', hthird, hexists⟩ := behind_ifNotExists second
  obtain ⟨last, hlast, hunmarked, c, hc, hblank⟩ :=
    nameBeforeBracket?_split hname
  have hspans : Spans 2 (create ++ (temporary ++ (table ++ exists'))) :=
    hcreate.append ((Spans.zero htemporary).append
      (htable.append (Spans.zero hexists)))
  refine ⟨create ++ (temporary ++ (table ++ exists')) ++ last, ?_,
    hspans.1.append hunmarked, ?_⟩
  · rw [htext, hfirst, hsecond, hthird, hlast]
    simp
  · have hwords := hspans.2 last
    have hpos := words_pos hc hblank
    omega

theorem opensWith_read? : OpensWith "CREATE".toList read? := by
  intro text h
  rw [read?, h]
  rfl

section search

variable {previous : Option Char} {offset : Nat}

/-- No header begins in front of a mark within fewer than three words. -/
theorem read?_eq_none {front rest : Text} {mark : Char} (hfront : Unmarked front)
    (hmark : mark ∈ marks)
    (hwords : mark ≠ '(' ∨ (words front).length ≤ 2) :
    read? (front ++ mark :: rest) = none := by
  rw [Option.eq_none_iff_forall_ne_some]
  rintro ⟨name, body⟩ h
  obtain ⟨front', hsplit, hunmarked, hthree⟩ := read?_split h
  obtain ⟨rfl, rfl, _⟩ :=
    hfront.cut_unique hunmarked hmark (by decide) hsplit
  rcases hwords with hne | hle
  · exact hne rfl
  · omega

/-- The search passes over a piece without marks that is no header, and the mark
behind it. -/
theorem searchFrom_unmarked {front : Text} {mark : Char}
    (hfront : Unmarked front) (hmark : mark ∈ marks)
    (hwords : mark ≠ '(' ∨ (words front).length ≤ 2) (rest : Text) :
    searchFrom previous offset 0 (front ++ mark :: rest) =
      searchFrom (some mark)
        (offset + byteLength front + mark.utf8Size) 0 rest := by
  induction front generalizing previous offset with
  | nil =>
      have hnone : read? (mark :: rest) = none :=
        read?_eq_none hfront hmark hwords
      rw [List.nil_append, searchFrom, hnone, ite_self]
      rfl
  | cons c tail ih =>
      have hnone : read? (c :: (tail ++ mark :: rest)) = none :=
        read?_eq_none hfront hmark hwords
      rw [List.cons_append, searchFrom, hnone, ite_self]
      rw [ih]
      · rw [byteLength_cons, Nat.add_assoc offset]
      · intro other hother
        exact hfront other (List.mem_cons_of_mem c hother)
      · exact hwords.imp_right (Nat.le_trans (length_words_le [c] tail))

/-- Without a bracket there is no header. -/
theorem searchFrom_eq_nil {front : Text} (hfront : Unmarked front) :
    searchFrom previous offset 0 front = [] := by
  induction front generalizing previous offset with
  | nil => rfl
  | cons c tail ih =>
      have hnone : read? (c :: tail) = none := by
        rw [Option.eq_none_iff_forall_ne_some]
        rintro ⟨name, body⟩ h
        obtain ⟨front', hsplit, _⟩ := read?_split h
        apply hfront '('
        · rw [hsplit]
          simp
        · decide
      rw [searchFrom, hnone, ite_self]
      apply ih
      intro other hother
      exact hfront other (List.mem_cons_of_mem c hother)

/-- Behind a header the search goes on where its bracket ends. -/
theorem searchFrom_skip (front : Text) (mark : Char) (rest : Text) :
    searchFrom previous offset (front.length + 1) (front ++ mark :: rest) =
      searchFrom (some mark)
        (offset + byteLength front + mark.utf8Size) 0 rest := by
  induction front generalizing previous offset with
  | nil => rfl
  | cons c tail ih =>
      rw [List.cons_append, List.length_cons, searchFrom, ih, byteLength_cons,
        Nat.add_assoc offset]

/-- The header that is found where one is read. -/
theorem searchFrom_of_read? {front name body : Text}
    (hprevious : previous.any isWordChar = false) (hne : front ≠ [])
    (h : read? (front ++ '(' :: body) = some (name, body)) :
    searchFrom previous offset 0 (front ++ '(' :: body) =
      ⟨name, offset + byteLength front⟩ ::
        searchFrom (some '(') (offset + byteLength front + 1) 0 body := by
  cases front with
  | nil => exact absurd rfl hne
  | cons c tail =>
      have hlength : (c :: (tail ++ '(' :: body)).length - body.length =
          (c :: tail).length + 1 := by
        simp only [List.length_cons, List.length_append]
        omega
      have htake : (c :: (tail ++ '(' :: body)).take (c :: tail).length =
          c :: tail := by
        rw [← List.cons_append, List.take_left]
      rw [List.cons_append] at h ⊢
      rw [searchFrom]
      simp only [hprevious, Bool.false_eq_true, ↓reduceIte, h, hlength,
        Nat.add_sub_cancel, htake]
      rw [List.length_cons, searchFrom_skip, byteLength_cons,
        Nat.add_assoc offset]
      rfl

/-- Blanks in front of a definition start no header. -/
theorem searchFrom_blanks {blanks : Text}
    (hprevious : previous.any isWordChar = false)
    (hblanks : ∀ c ∈ blanks, isBlank c = true) (rest : Text) :
    ∃ last, last.any isWordChar = false ∧
      searchFrom previous offset 0 (blanks ++ rest) =
        searchFrom last (offset + byteLength blanks) 0 rest := by
  induction blanks generalizing previous offset with
  | nil => exact ⟨previous, hprevious, rfl⟩
  | cons c tail ih =>
      have hc := hblanks c List.mem_cons_self
      have hword := isWordChar_of_isBlank hc
      have hnone : read? (c :: (tail ++ rest)) = none := by
        apply opensWith_read?
        apply afterSpacedKeyword?_of_ne
        intro hfold
        have hletter : isWordChar c = true := isWordChar_of_foldCapital (by rw [hfold]; decide)
        rw [hword] at hletter
        contradiction
      have hbehind : (some c).any isWordChar = false := by simp [hword]
      have htail : ∀ other ∈ tail, isBlank other = true := fun other hother =>
        hblanks other (List.mem_cons_of_mem c hother)
      obtain ⟨last, hlast, hsearch⟩ : ∃ last, last.any isWordChar = false ∧
          searchFrom (some c) (offset + c.utf8Size) 0 (tail ++ rest) =
            searchFrom last (offset + c.utf8Size + byteLength tail) 0 rest := ih hbehind htail
      refine ⟨last, hlast, ?_⟩
      rw [List.cons_append, searchFrom, hnone, ite_self, byteLength_cons,
        ← Nat.add_assoc]
      exact hsearch

/-- A header that begins in front of a mark, other than its bracket, has its
bracket there too. -/
theorem exists_bracket {front header body rest : Text} {mark : Char}
    (hheader : Unmarked header) (hmark : mark ∈ marks) (hne : mark ≠ '(')
    (h : front ++ mark :: rest = header ++ '(' :: body) :
    ∃ back, front = header ++ '(' :: back := by
  rcases List.append_eq_append_iff.mp h with
    ⟨middle, rfl, hmiddle⟩ | ⟨middle, rfl, hmiddle⟩
  · cases middle with
    | nil => exact absurd (List.cons.inj hmiddle).1 hne
    | cons c tail =>
        obtain ⟨rfl, _⟩ := List.cons.inj hmiddle
        exact absurd hmark (hheader mark (by simp))
  · cases middle with
    | nil => exact absurd (List.cons.inj hmiddle).1.symm hne
    | cons c tail =>
        obtain ⟨rfl, _⟩ := List.cons.inj hmiddle
        exact ⟨tail, rfl⟩

/-- Where no header in front of a mark is of use, the useful headers are those
behind the mark. -/
theorem filterMap_searchFrom {α : Type} {use : Header → Option α} {front : Text}
    {mark : Char} (hmark : mark ∈ marks) (hne : mark ≠ '(') {skip : Nat}
    (hskip : skip ≤ front.length)
    (huse : ∀ left right name, front = left ++ '(' :: right →
      use ⟨name, offset + byteLength left⟩ = none) (rest : Text) :
    (searchFrom previous offset skip (front ++ mark :: rest)).filterMap use =
      (searchFrom (some mark) (offset + byteLength front + mark.utf8Size) 0
        rest).filterMap use := by
  induction front generalizing previous offset skip with
  | nil =>
      obtain rfl := Nat.le_zero.mp hskip
      rw [searchFrom_unmarked unmarked_nil hmark (Or.inl hne)]
  | cons c tail ih =>
      have huse' : ∀ left right name, tail = left ++ '(' :: right →
          use ⟨name, offset + c.utf8Size + byteLength left⟩ = none := by
        rintro left right name rfl
        rw [Nat.add_assoc]
        exact huse (c :: left) right name rfl
      rw [byteLength_cons, ← Nat.add_assoc offset]
      cases skip with
      | succ left =>
          rw [List.cons_append, searchFrom]
          exact ih (Nat.le_of_succ_le_succ hskip) huse'
      | zero =>
          rw [List.cons_append, searchFrom]
          split
          · exact ih (Nat.zero_le _) huse'
          · next name body hhere =>
              have hread : read? (c :: (tail ++ mark :: rest)) =
                  some (name, body) := by
                by_cases hprevious : previous.any isWordChar = true
                · simp [hprevious] at hhere
                · simpa [hprevious] using hhere
              obtain ⟨header, hsplit, hheader, hthree⟩ := read?_split hread
              obtain ⟨back, hback⟩ : ∃ back, c :: tail = header ++ '(' :: back :=
                exists_bracket hheader hmark hne hsplit
              have hlength : (c :: (tail ++ mark :: rest)).length -
                  body.length - 1 = header.length := by
                rw [hsplit, List.length_append, List.length_cons]
                omega
              have htake : (c :: (tail ++ mark :: rest)).take header.length =
                  header := by
                rw [hsplit, List.take_left]
              simp only [hlength, htake, List.filterMap_cons,
                huse header back name hback]
              apply ih _ huse'
              have hlengths := congrArg List.length hback
              simp only [List.length_cons, List.length_append] at hlengths
              omega

end search

/-- A table's name is not taken for the words in front of a name. -/
theorem afterIfNotExists?_identifier (identifier : Identifier) (behind : Text) :
    afterIfNotExists? (identifier.text ++ ' ' :: '(' :: behind) = none := by
  rw [afterIfNotExists?]
  cases hif : afterSpacedKeyword? "IF".toList
      (identifier.text ++ ' ' :: '(' :: behind) with
  | none => rfl
  | some rest =>
      obtain ⟨_, _, rfl⟩ := afterSpacedKeyword?_word (by decide)
        (fun c hc => identifier.isWordChar_of_mem hc) (ends_space _) hif
      rfl

/-- The word `TABLE` is not taken for the words in front of it. -/
theorem afterTemporary?_table (behind : Text) :
    afterTemporary? ("TABLE".toList ++ ' ' :: behind) = none := by
  have hnone : ∀ keyword, IsKeyword keyword →
      "TABLE".toList.map foldCapital ≠ keyword →
      afterSpacedKeyword? keyword ("TABLE".toList ++ ' ' :: behind) = none := by
    intro keyword hkeyword hne
    apply afterSpacedKeyword?_eq_none hkeyword (by decide) hne
    simp
    decide
  rw [afterTemporary?, hnone _ (by decide) (by decide),
    hnone _ (by decide) (by decide), Option.or_none, Option.getD_none,
    hnone _ (by decide) (by decide), hnone _ (by decide) (by decide)]
  rfl

/-- A definition's header is read in front of its bracket. -/
theorem read?_createTable (identifier : Identifier) (behind : Text) :
    read? ("CREATE TABLE ".toList ++ (identifier.text ++ [' ']) ++ '(' :: behind) =
      some (identifier.text, behind) := by
  have hwords : "CREATE TABLE ".toList =
      "CREATE".toList ++ ' ' :: ("TABLE".toList ++ [' ']) := by decide
  have hshape : "CREATE TABLE ".toList ++ (identifier.text ++ [' ']) ++ '(' :: behind =
      "CREATE".toList ++ ' ' :: ("TABLE".toList ++ ' ' ::
        (identifier.text ++ ' ' :: '(' :: behind)) := by
    rw [hwords]
    simp only [List.append_assoc, List.cons_append, List.nil_append]
  have hcreate := afterSpacedKeyword?_append
    (show IsKeyword "CREATE".toList by decide) ("TABLE".toList ++ ' ' ::
      (identifier.text ++ ' ' :: '(' :: behind))
  have htable := afterSpacedKeyword?_append
    (show IsKeyword "TABLE".toList by decide) (identifier.text ++ ' ' :: '(' :: behind)
  rw [trimStart_isWord_append (by decide)] at hcreate
  rw [trimStart_isWord_append identifier.isWord] at htable
  rw [read?, hshape, hcreate, Option.bind_eq_bind, Option.bind_some,
    afterTemporary?_table, Option.getD_none]
  dsimp only
  rw [htable, Option.bind_some, afterIfNotExists?_identifier, Option.getD_none]
  exact nameBeforeBracket?_identifier identifier behind

/-- The header of a draft is read in front of its bracket. -/
theorem read?_header (dialect : Dialect) (draft : TableDraft) (behind : Text) :
    read? (draft.header dialect.plainSpelling ++ '(' :: behind) =
      some (draft.name.text, behind) := by
  rw [draft.header_plain]
  exact read?_createTable draft.name behind

end Header

end DdlDiagram
