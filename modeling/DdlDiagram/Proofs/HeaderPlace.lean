/-
The places of headers in a text.  A header is known from the text up to its
bracket, whatever stands behind, and the search for headers is a walk that passes
a character or finds a header and goes on behind its bracket.  So the headers of a
text that is cut behind a mark are those of its two parts.
-/
import DdlDiagram.Proofs.HeaderSearch

namespace DdlDiagram

open Text Phrase

namespace Phrase

section mark

variable {p : Char → Bool} {text : Text} {mark : Char}

/-- Characters are dropped up to a mark at most. -/
theorem dropWhile_append_of_mark (hp : p mark = false) (h : mark ∈ text)
    (behind : Text) :
    (text ++ behind).dropWhile p = text.dropWhile p ++ behind ∧
      mark ∈ text.dropWhile p := by
  have hmem : mark ∈ text.dropWhile p := by
    rw [← List.takeWhile_append_dropWhile (p := p) (l := text)] at h
    rcases List.mem_append.mp h with htake | hdrop
    · rw [List.mem_takeWhile_imp htake] at hp
      contradiction
    · exact hdrop
  refine ⟨?_, hmem⟩
  rw [List.dropWhile_append, if_neg]
  intro hempty
  rw [List.isEmpty_iff.mp hempty] at hmem
  contradiction

theorem takeWhile_append_of_mark (hp : p mark = false) (h : mark ∈ text)
    (behind : Text) : (text ++ behind).takeWhile p = text.takeWhile p := by
  obtain ⟨front, back, rfl⟩ := List.append_of_mem h
  rw [List.append_assoc, List.cons_append, List.takeWhile_append,
    List.takeWhile_append, List.takeWhile_cons_of_neg (by simp [hp]),
    List.takeWhile_cons_of_neg (by simp [hp])]

theorem dropOne_append_of_mark (hp : p mark = false) (h : mark ∈ text)
    (behind : Text) :
    dropOne p (text ++ behind) = dropOne p text ++ behind ∧
      mark ∈ dropOne p text := by
  cases text with
  | nil => contradiction
  | cons c rest =>
      by_cases hc : p c = true
      · have hne : mark ≠ c := by
          rintro rfl
          rw [hp] at hc
          contradiction
        simp only [List.cons_append, dropOne, hc, ↓reduceIte]
        exact ⟨trivial, (List.mem_cons.mp h).resolve_left hne⟩
      · simp only [List.cons_append, dropOne, hc]
        exact ⟨rfl, h⟩

variable (hmark : mark ∈ marks)
include hmark

theorem isBlank_mark : isBlank mark = false := by
  by_contra hblank
  rw [Bool.not_eq_false] at hblank
  exact not_mem_marks_of_isBlank hblank hmark

theorem isWordChar_mark : isWordChar mark = false := by
  by_contra hword
  rw [Bool.not_eq_false] at hword
  exact not_mem_marks_of_isWordChar hword hmark

theorem trimStart_append_of_mark (h : mark ∈ text) (behind : Text) :
    trimStart (text ++ behind) = trimStart text ++ behind ∧
      mark ∈ trimStart text :=
  dropWhile_append_of_mark (isBlank_mark hmark) h behind

end mark

/-- A recogniser that looks at a text up to a mark at most, and leaves the mark. -/
structure Leaves (mark : Char) (recognise : Text → Option Text) : Prop where
  append : ∀ {text}, mark ∈ text → ∀ behind,
    recognise (text ++ behind) = (recognise text).map (· ++ behind)
  mem_iff : ∀ {text rest}, recognise text = some rest → (mark ∈ rest ↔ mark ∈ text)

section recognisers

variable {mark : Char} {first second : Text → Option Text}

theorem mem_iff_of_unmarked (hmark : mark ∈ marks) {front : Text}
    (hfront : Unmarked front) (rest : Text) : mark ∈ rest ↔ mark ∈ front ++ rest := by
  rw [List.mem_append]
  exact ⟨Or.inr, fun h => h.resolve_left fun hmem => hfront mark hmem hmark⟩

theorem leaves_keyword (hmark : mark ∈ marks) {keyword : Text}
    (hkeyword : Unmarked keyword) : Leaves mark (afterKeyword? keyword) := by
  have hall : ∀ mark ∈ marks, foldCapital mark = mark := by decide
  have hfold := hall mark hmark
  constructor
  · intro text h behind
    induction keyword generalizing text with
    | nil => rfl
    | cons k keyword ih =>
        cases text with
        | nil => contradiction
        | cons c text =>
            by_cases hc : foldCapital c = k
            · have hne : mark ≠ c := by
                rintro rfl
                apply hkeyword k List.mem_cons_self
                rw [← hc, hfold]
                exact hmark
              simp only [List.cons_append, afterKeyword?, hc, ↓reduceIte]
              exact ih (fun k hk => hkeyword k (List.mem_cons_of_mem _ hk))
                ((List.mem_cons.mp h).resolve_left hne)
            · simp only [List.cons_append, afterKeyword?, hc, ↓reduceIte, Option.map_none]
  · intro text rest h
    obtain ⟨used, rfl, hused⟩ := afterKeyword?_eq_some_iff.mp h
    rw [List.mem_append]
    refine ⟨Or.inr, fun hmem => hmem.resolve_left fun hmem => ?_⟩
    apply hkeyword mark _ hmark
    rw [← hused, ← hfold]
    exact List.mem_map_of_mem hmem

theorem leaves_blanks (hmark : mark ∈ marks) : Leaves mark afterBlanks? := by
  constructor
  · intro text h behind
    cases text with
    | nil => contradiction
    | cons c text =>
        by_cases hc : isBlank c = true
        · have hne : mark ≠ c := by
            rintro rfl
            rw [isBlank_mark hmark] at hc
            contradiction
          have htail := (List.mem_cons.mp h).resolve_left hne
          simp only [List.cons_append, afterBlanks?, hc, ↓reduceIte]
          rw [(trimStart_append_of_mark hmark htail behind).1]
          rfl
        · simp only [List.cons_append, afterBlanks?, hc]
          rfl
  · intro text rest h
    obtain ⟨blank, blanks, rfl, hblank, hblanks⟩ := afterBlanks?_eq_some h
    rw [← List.cons_append]
    apply mem_iff_of_unmarked hmark
    apply unmarked_of_blanks
    exact List.forall_mem_cons.mpr ⟨hblank, hblanks⟩

/-- One recogniser behind another. -/
theorem Leaves.bind (hfirst : Leaves mark first) (hsecond : Leaves mark second) :
    Leaves mark fun text => (first text).bind second := by
  constructor
  · intro text h behind
    have happend := hfirst.append h behind
    cases hread : first text with
    | none => simp [happend, hread]
    | some middle =>
        simp only [happend, hread, Option.map_some, Option.bind_some]
        exact hsecond.append ((hfirst.mem_iff hread).mpr h) behind
  · intro text rest h
    obtain ⟨middle, hmiddle, hrest⟩ := Option.bind_eq_some_iff.mp h
    exact (hsecond.mem_iff hrest).trans (hfirst.mem_iff hmiddle)

/-- Whichever of two recognisers fits. -/
theorem Leaves.or (hfirst : Leaves mark first) (hsecond : Leaves mark second) :
    Leaves mark fun text => (first text).or (second text) := by
  constructor
  · intro text h behind
    simp only [hfirst.append h behind, hsecond.append h behind, Option.map_or]
  · intro text rest h
    rcases Option.or_eq_some_iff.mp h with h | ⟨_, h⟩
    · exact hfirst.mem_iff h
    · exact hsecond.mem_iff h

/-- A recogniser behind what another one may read. -/
theorem Leaves.optional (hfirst : Leaves mark first) (hsecond : Leaves mark second) :
    Leaves mark fun text => second ((first text).getD text) := by
  constructor
  · intro text h behind
    have happend := hfirst.append h behind
    cases hread : first text with
    | none =>
        simp only [happend, hread, Option.map_none, Option.getD_none]
        exact hsecond.append h behind
    | some middle =>
        simp only [happend, hread, Option.map_some, Option.getD_some]
        exact hsecond.append ((hfirst.mem_iff hread).mpr h) behind
  · intro text rest h
    cases hread : first text with
    | none =>
        simp only [hread, Option.getD_none] at h
        exact hsecond.mem_iff h
    | some middle =>
        simp only [hread, Option.getD_some] at h
        exact (hsecond.mem_iff h).trans (hfirst.mem_iff hread)

theorem leaves_spacedKeyword (hmark : mark ∈ marks) {keyword : Text}
    (hkeyword : Unmarked keyword) : Leaves mark (afterSpacedKeyword? keyword) :=
  (leaves_keyword hmark hkeyword).bind (leaves_blanks hmark)

end recognisers

section names

variable {text word rest : Text} {mark : Char} (hmark : mark ∈ marks)
include hmark

/-- A quoted word is known from the text up to a mark. -/
theorem quotedWord?_append_of_mark (h : mark ∈ text) :
    (∀ behind, quotedWord? (text ++ behind) =
      (quotedWord? text).map fun (word, rest) => (word, rest ++ behind)) ∧
    ∀ word rest, quotedWord? text = some (word, rest) → mark ∈ rest := by
  have hopensMark : ∀ mark ∈ marks, opensName mark = false := by decide
  have hclosesMark : ∀ mark ∈ marks, closesName mark = false := by decide
  have hword : isWordChar mark = false := isWordChar_mark hmark
  have hopens := fun behind =>
    dropOne_append_of_mark (hopensMark mark hmark) h behind
  have hdrop := fun behind =>
    dropWhile_append_of_mark hword (hopens []).2 behind
  have hcloses := fun behind =>
    dropOne_append_of_mark (hclosesMark mark hmark) (hdrop []).2 behind
  constructor
  · intro behind
    rw [quotedWord?, quotedWord?, (hopens behind).1,
      takeWhile_append_of_mark hword (hopens []).2, (hdrop behind).1,
      (hcloses behind).1]
    split <;> rfl
  · intro word rest hread
    simp only [quotedWord?] at hread
    split at hread
    · contradiction
    · rw [← (Prod.mk.inj (Option.some.inj hread)).2]
      exact (hcloses []).2

omit hmark in
theorem nameBeforeBracket?_of_none (h : quotedWord? text = none) :
    nameBeforeBracket? text = none := by
  rw [nameBeforeBracket?.eq_def]
  split
  · rfl
  · next hsome =>
      rw [h] at hsome
      contradiction

omit hmark in
/-- How reading a dotted name goes on behind a word. -/
theorem nameBeforeBracket?_of_word (h : quotedWord? text = some (word, rest)) :
    nameBeforeBracket? text =
      match trimStart rest with
      | [] => none
      | c :: more =>
          if c = '(' then some (word, more)
          else if c = '.' then nameBeforeBracket? (trimStart more)
          else none := by
  rw [nameBeforeBracket?.eq_def]
  split
  · next hnone =>
      rw [h] at hnone
      contradiction
  · next word' rest' hsome =>
      rw [h, Option.some.injEq, Prod.mk.injEq] at hsome
      obtain ⟨rfl, rfl⟩ := hsome
      split <;> simp_all

/-- A dotted name with its bracket is known from the text up to a mark. -/
theorem nameBeforeBracket?_append_of_mark (h : mark ∈ text) (behind : Text) :
    nameBeforeBracket? (text ++ behind) =
      (nameBeforeBracket? text).map fun (name, body) =>
        (name, body ++ behind) := by
  fun_induction nameBeforeBracket? text with
  | case1 text hnone =>
      have happend := (quotedWord?_append_of_mark hmark h).1 behind
      rw [hnone] at happend
      exact nameBeforeBracket?_of_none happend
  | case2 text word rest hsome hempty =>
      have hrest := (quotedWord?_append_of_mark hmark h).2 _ _ hsome
      have htrim := (trimStart_append_of_mark hmark hrest []).2
      rw [hempty] at htrim
      contradiction
  | case3 text word rest hsome more hmore =>
      have happend := (quotedWord?_append_of_mark hmark h).1 behind
      have hrest := (quotedWord?_append_of_mark hmark h).2 _ _ hsome
      rw [hsome] at happend
      rw [nameBeforeBracket?_of_word happend,
        (trimStart_append_of_mark hmark hrest behind).1, hmore]
      rfl
  | case4 text word rest hsome more hmore hdot ih =>
      have hdotMark : ∀ mark ∈ marks, mark ≠ '.' := by decide
      have happend := (quotedWord?_append_of_mark hmark h).1 behind
      have hrest := (quotedWord?_append_of_mark hmark h).2 _ _ hsome
      have hmem := (trimStart_append_of_mark hmark hrest []).2
      rw [hsome] at happend
      rw [hmore] at hmem
      have hinner := (List.mem_cons.mp hmem).resolve_left (hdotMark mark hmark)
      obtain ⟨htrim, hleft⟩ := trimStart_append_of_mark hmark hinner behind
      rw [nameBeforeBracket?_of_word happend,
        (trimStart_append_of_mark hmark hrest behind).1, hmore, ← ih hleft,
        ← htrim]
      rfl
  | case5 text word rest hsome c more hmore hbracket hdot =>
      have happend := (quotedWord?_append_of_mark hmark h).1 behind
      have hrest := (quotedWord?_append_of_mark hmark h).2 _ _ hsome
      rw [hsome] at happend
      rw [nameBeforeBracket?_of_word happend,
        (trimStart_append_of_mark hmark hrest behind).1, hmore]
      simp [hbracket, hdot]

end names

end Phrase

namespace Text

/-- The character in front of what follows is the last of a text, or one in front of
the text. -/
theorem getLast?_cons_or (c : Char) (rest : Text) (previous : Option Char) :
    (c :: rest).getLast?.or previous = rest.getLast?.or (some c) := by
  rw [← List.singleton_append, List.getLast?_append, Option.or_assoc]
  rfl

theorem getLast?_append_cons_or (front : Text) (c : Char) (rest : Text)
    (previous : Option Char) :
    (front ++ c :: rest).getLast?.or previous = rest.getLast?.or (some c) := by
  rw [List.append_cons, List.getLast?_append, List.getLast?_concat,
    Option.or_assoc]
  rfl

/-- Offsets behind a bracket. -/
theorem add_byteLength_bracket (offset : Nat) (front back : Text) :
    offset + byteLength (front ++ '(' :: back) =
      offset + byteLength front + 1 + byteLength back := by
  rw [byteLength_append, byteLength_cons]
  change offset + (_ + (1 + _)) = _
  omega

end Text

namespace Header

theorem leaves_temporary {mark : Char} (hmark : mark ∈ marks) :
    Leaves mark afterTemporary? :=
  ((leaves_spacedKeyword hmark (by decide)).or
    (leaves_spacedKeyword hmark (by decide))).optional
      ((leaves_spacedKeyword hmark (by decide)).or
        (leaves_spacedKeyword hmark (by decide)))

theorem leaves_ifNotExists {mark : Char} (hmark : mark ∈ marks) :
    Leaves mark afterIfNotExists? :=
  (leaves_spacedKeyword hmark (by decide)).bind
    ((leaves_spacedKeyword hmark (by decide)).bind
      (leaves_spacedKeyword hmark (by decide)))

/-- The text behind `CREATE` and `TABLE`, and what may stand between the two. -/
def afterCreateTable? (text : Text) : Option Text :=
  (afterSpacedKeyword? "CREATE".toList text).bind fun text =>
    afterSpacedKeyword? "TABLE".toList ((afterTemporary? text).getD text)

theorem leaves_createTable {mark : Char} (hmark : mark ∈ marks) :
    Leaves mark afterCreateTable? :=
  (leaves_spacedKeyword hmark (by decide)).bind
    ((leaves_temporary hmark).optional (leaves_spacedKeyword hmark (by decide)))

theorem read?_eq_bind (text : Text) :
    read? text = (afterCreateTable? text).bind fun text =>
      nameBeforeBracket? ((afterIfNotExists? text).getD text) := by
  rw [read?, afterCreateTable?, Option.bind_assoc]
  rfl

/-- A header is known from the text up to a bracket. -/
theorem read?_append_of_bracket {text : Text} (h : '(' ∈ text) (behind : Text) :
    read? (text ++ behind) =
      (read? text).map fun (name, body) => (name, body ++ behind) := by
  have hmark : '(' ∈ marks := by decide
  rw [read?_eq_bind, read?_eq_bind, (leaves_createTable hmark).append h]
  cases hcreate : afterCreateTable? text with
  | none => rfl
  | some middle =>
      have hmiddle := ((leaves_createTable hmark).mem_iff hcreate).mpr h
      simp only [Option.map_some, Option.bind_some,
        (leaves_ifNotExists hmark).append hmiddle]
      cases hexists : afterIfNotExists? middle with
      | none => exact nameBeforeBracket?_append_of_mark hmark hmiddle behind
      | some rest =>
          have hrest := ((leaves_ifNotExists hmark).mem_iff hexists).mpr hmiddle
          exact nameBeforeBracket?_append_of_mark hmark hrest behind

/-- The walk of the search over a text, with the headers that it finds: it passes
a character at which no header begins, and goes on behind the bracket of a header
that it finds. -/
inductive Finds : Option Char → Nat → Text → List Header → Prop
  | done {previous : Option Char} {offset : Nat} : Finds previous offset [] []
  | pass {previous : Option Char} {offset : Nat} {c : Char} {rest : Text}
      {found : List Header}
      (hnone : previous.any isWordChar = false → read? (c :: rest) = none)
      (later : Finds (some c) (offset + c.utf8Size) rest found) :
      Finds previous offset (c :: rest) found
  | found {previous : Option Char} {offset : Nat} {front name body : Text}
      {found : List Header} (hprevious : previous.any isWordChar = false)
      (hfront : Unmarked front) (hne : front ≠ [])
      (hread : read? (front ++ '(' :: body) = some (name, body))
      (later : Finds (some '(') (offset + byteLength front + 1) body found) :
      Finds previous offset (front ++ '(' :: body)
        (⟨name, offset + byteLength front⟩ :: found)

section walk

variable {previous : Option Char} {offset : Nat} {text : Text}
  {found : List Header}

theorem searchFrom_of_none {c : Char} {rest : Text}
    (hnone : previous.any isWordChar = false → read? (c :: rest) = none) :
    searchFrom previous offset 0 (c :: rest) =
      searchFrom (some c) (offset + c.utf8Size) 0 rest := by
  have hhere : (if previous.any isWordChar = true then none
      else read? (c :: rest)) = none := by
    split
    · rfl
    · next hprevious => exact hnone (Bool.eq_false_iff.mpr hprevious)
  rw [searchFrom]
  simp only [hhere]

/-- The search walks over every text. -/
theorem finds_searchFrom (previous : Option Char) (offset : Nat) (text : Text) :
    Finds previous offset text (searchFrom previous offset 0 text) := by
  induction hlength : text.length using Nat.strong_induction_on
    generalizing previous offset text with
  | h length ih =>
      subst hlength
      cases text with
      | nil => exact .done
      | cons c rest =>
          by_cases hhere : previous.any isWordChar = false ∧
              (read? (c :: rest)).isSome = true
          · obtain ⟨hprevious, hsome⟩ := hhere
            obtain ⟨⟨name, body⟩, hread⟩ := Option.isSome_iff_exists.mp hsome
            obtain ⟨front, hsplit, hfront, hthree⟩ := read?_split hread
            have hne : front ≠ [] := by
              rintro rfl
              simp [words, cutWords] at hthree
            rw [hsplit] at hread ih ⊢
            rw [searchFrom_of_read? hprevious hne hread]
            refine .found hprevious hfront hne hread (ih _ ?_ _ _ _ rfl)
            simp only [List.length_append, List.length_cons]
            omega
          · have hnone : previous.any isWordChar = false →
                read? (c :: rest) = none := by
              intro hprevious
              simpa [hprevious] using hhere
            rw [searchFrom_of_none hnone]
            exact .pass hnone (ih _ (Nat.lt_succ_self _) _ _ _ rfl)

/-- What a walk finds is what the search finds. -/
theorem Finds.eq_searchFrom (h : Finds previous offset text found) :
    searchFrom previous offset 0 text = found := by
  induction h with
  | done => rfl
  | pass hnone _ ih => rw [searchFrom_of_none hnone, ih]
  | found hprevious _ hne hread _ ih =>
      rw [searchFrom_of_read? hprevious hne hread, ih]

/-- The search depends on the character in front only as to whether a word may
begin behind it. -/
theorem searchFrom_congr {previous' : Option Char}
    (h : previous.any isWordChar = previous'.any isWordChar) :
    searchFrom previous offset 0 text = searchFrom previous' offset 0 text := by
  cases text with
  | nil => rfl
  | cons c rest => rw [searchFrom, searchFrom, h]

/-- Every header stands in the text where it was read. -/
theorem Finds.exists_of_mem (h : Finds previous offset text found)
    {header : Header} (hheader : header ∈ found) :
    ∃ front phrase body, text = front ++ (phrase ++ '(' :: body) ∧
      (front.getLast?.or previous).any isWordChar = false ∧
      Unmarked phrase ∧
      read? (phrase ++ '(' :: body) = some (header.name, body) ∧
      header.opening = offset + byteLength (front ++ phrase) := by
  induction h with
  | done => contradiction
  | @pass previous offset c rest found hnone _ ih =>
      obtain ⟨front, phrase, body, rfl, hlast, hphrase, hread, hopening⟩ :=
        ih hheader
      refine ⟨c :: front, phrase, body, rfl, ?_, hphrase, hread, ?_⟩
      · rw [getLast?_cons_or]
        exact hlast
      · rw [hopening, List.cons_append, byteLength_cons, Nat.add_assoc]
  | @found previous offset phrase name body found hprevious hphrase hne hread _
      ih =>
      rcases List.mem_cons.mp hheader with rfl | hheader
      · exact ⟨[], phrase, body, rfl, hprevious, hphrase, hread, rfl⟩
      · obtain ⟨front, phrase', body', rfl, hlast, hphrase', hread', hopening⟩ :=
          ih hheader
        refine ⟨phrase ++ '(' :: front, phrase', body', by simp, ?_, hphrase',
          hread', ?_⟩
        · rw [getLast?_append_cons_or]
          exact hlast
        · rw [hopening, List.append_assoc, List.cons_append,
            add_byteLength_bracket]

/-- Headers ascend, each behind the place the search began at. -/
theorem Finds.ascending (h : Finds previous offset text found) :
    (∀ header ∈ found, offset < header.opening) ∧
      found.Pairwise fun left right => left.opening < right.opening := by
  induction h with
  | done => exact ⟨by simp, List.Pairwise.nil⟩
  | @pass previous offset c rest found hnone _ ih =>
      refine ⟨fun header hheader => ?_, ih.2⟩
      have := ih.1 header hheader
      omega
  | @found previous offset front name body found hprevious hfront hne hread _
      ih =>
      have hpos : 0 < byteLength front := by
        cases front with
        | nil => exact absurd rfl hne
        | cons c rest =>
            have := c.utf8Size_pos
            rw [byteLength_cons]
            omega
      constructor
      · intro header hheader
        rcases List.mem_cons.mp hheader with rfl | hheader
        · exact Nat.lt_add_of_pos_right hpos
        · have := ih.1 header hheader
          omega
      · refine List.pairwise_cons.mpr ⟨fun header hheader => ?_, ih.2⟩
        have hafter := ih.1 header hheader
        change offset + byteLength front < header.opening
        omega

/-- A header that is read in front of a mark, other than its bracket, is read there
whatever stands behind the mark. -/
theorem read?_append_of_mark (front : Text) {mark : Char} (hmark : mark ∈ marks)
    (hne : mark ≠ '(') (rest : Text) :
    read? (front ++ mark :: rest) =
      (read? (front ++ [mark])).map fun (name, body) => (name, body ++ rest) := by
  by_cases h : '(' ∈ front
  · rw [List.append_cons]
    exact read?_append_of_bracket (List.mem_append_left _ h) rest
  · have hnone : ∀ behind, read? (front ++ mark :: behind) = none := by
      intro behind
      rw [Option.eq_none_iff_forall_ne_some]
      rintro ⟨name, body⟩ hread
      obtain ⟨phrase, hsplit, hphrase, _⟩ := read?_split hread
      obtain ⟨back, rfl⟩ := exists_bracket hphrase hmark hne hsplit
      exact h (by simp)
    rw [hnone, hnone]
    rfl

/-- A walk that comes to a mark at the end of its text goes on behind the mark
when more text follows. -/
theorem Finds.append_mark {mark : Char} (hmark : mark ∈ marks) (hne : mark ≠ '(')
    (rest : Text) (h : Finds previous offset text found) {front : Text}
    (htext : text = front ++ [mark]) :
    Finds previous offset (front ++ mark :: rest)
      (found ++ searchFrom (some mark)
        (offset + byteLength front + mark.utf8Size) 0 rest) := by
  induction h generalizing front with
  | done => simp at htext
  | @pass previous offset c tail found hnone later ih =>
      cases front with
      | nil =>
          obtain ⟨rfl, rfl⟩ := List.cons.inj htext
          obtain rfl : [] = found := later.eq_searchFrom
          refine .pass (fun _ => ?_) (finds_searchFrom (some c) _ rest)
          exact read?_eq_none unmarked_nil hmark (Or.inl hne)
      | cons c' front =>
          rw [List.cons_append] at htext
          obtain ⟨rfl, rfl⟩ := List.cons.inj htext
          rw [byteLength_cons, ← Nat.add_assoc]
          refine .pass (fun hprevious => ?_) (ih rfl)
          refine (read?_append_of_mark (c :: front) hmark hne rest).trans ?_
          rw [List.cons_append, hnone hprevious]
          rfl
  | @found previous offset phrase name body found hprevious hphrase hempty hread
      later ih =>
      obtain ⟨back, rfl⟩ := exists_bracket hphrase hmark hne htext.symm
      obtain rfl : body = back ++ [mark] := by
        simpa [List.append_assoc] using htext
      have hbracket : '(' ∈ phrase ++ '(' :: (back ++ [mark]) := by simp
      have hread' := read?_append_of_bracket hbracket rest
      rw [hread] at hread'
      have hlater := ih rfl
      rw [List.append_assoc, List.cons_append, add_byteLength_bracket]
      refine .found hprevious hphrase hempty ?_ hlater
      simpa [List.append_assoc] using hread'

/-- The headers of a text that is cut behind a mark, other than an opening bracket,
are those up to the mark and those behind it. -/
theorem searchFrom_append_mark {front : Text} {mark : Char} (hmark : mark ∈ marks)
    (hne : mark ≠ '(') (rest : Text) :
    searchFrom previous offset 0 (front ++ mark :: rest) =
      searchFrom previous offset 0 (front ++ [mark]) ++
        searchFrom (some mark) (offset + byteLength front + mark.utf8Size) 0
          rest :=
  ((finds_searchFrom previous offset _).append_mark hmark hne rest
    rfl).eq_searchFrom

end walk

end Header

end DdlDiagram
