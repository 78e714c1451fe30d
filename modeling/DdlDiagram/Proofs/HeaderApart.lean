/-
Headers stand apart.  A header begins with the word `CREATE` in front of another
word.  Behind its first letter no header holds these again: a keyword of it is
another word, and the words of its name stand in front of a dot, a quote or the
bracket.  So the search, which goes on behind the bracket of a header it finds,
passes over no other header.
-/
import DdlDiagram.Proofs.HeaderPlace
import DdlDiagram.Proofs.Site

namespace DdlDiagram

open Text Phrase

/-- A text with a word in front. -/
def Text.BeginsWord (text : Text) : Prop :=
  text.head?.any isWordChar = true

namespace Phrase

section words

variable {keyword text word rest : Text}

theorem beginsWord_of_keyword (hkeyword : IsKeyword keyword)
    (h : afterSpacedKeyword? keyword text = some rest) : BeginsWord text := by
  obtain ⟨behind, hread, _⟩ := Option.bind_eq_some_iff.mp h
  obtain ⟨used, rfl, hused⟩ := afterKeyword?_eq_some_iff.mp hread
  cases used with
  | nil => exact absurd hused.symm hkeyword.1
  | cons c used =>
      have hc := hkeyword.isWordChar_of_map hused c List.mem_cons_self
      simpa [BeginsWord] using hc

/-- A quoted word is a word with at most quotes around it. -/
theorem quotedWord?_pieces (h : quotedWord? text = some (word, rest)) :
    ∃ opener closer, text = opener ++ (word ++ (closer ++ rest)) ∧
      (∀ c ∈ opener, opensName c = true) ∧ (∀ c ∈ word, isWordChar c = true) ∧
      (∀ c ∈ closer, closesName c = true) ∧ ¬ BeginsWord (closer ++ rest) := by
  obtain ⟨opener, hopener, hopens⟩ := dropOne_split opensName text
  obtain ⟨closer, hcloser, hcloses⟩ :=
    dropOne_split closesName ((dropOne opensName text).dropWhile isWordChar)
  have hparts := List.takeWhile_append_dropWhile (p := isWordChar)
    (l := dropOne opensName text)
  have hends : ¬ BeginsWord ((dropOne opensName text).dropWhile isWordChar) := by
    have hnot := List.head?_dropWhile_not isWordChar (dropOne opensName text)
    rw [BeginsWord]
    cases hhead : ((dropOne opensName text).dropWhile isWordChar).head? with
    | none => simp
    | some c =>
        rw [hhead] at hnot
        simpa using hnot
  rw [quotedWord?] at h
  split at h
  · contradiction
  · obtain ⟨rfl, rfl⟩ := Prod.mk.inj (Option.some.inj h)
    refine ⟨opener, closer, ?_, hopens, fun c hc => List.mem_takeWhile_imp hc,
      hcloses, ?_⟩
    · rw [← hcloser, hparts, ← hopener]
    · rwa [← hcloser]

end words

end Phrase

namespace Header

/-- A text in front of which a header may begin: the word `CREATE`, blanks and
another word. -/
def Starts (text : Text) : Prop :=
  ∃ rest, afterSpacedKeyword? "CREATE".toList text = some rest ∧
    BeginsWord rest

theorem Starts.beginsWord {text : Text} (h : Starts text) : BeginsWord text := by
  obtain ⟨rest, hread, _⟩ := h
  exact beginsWord_of_keyword (by decide) hread

theorem beginsWord_of_temporary {text : Text}
    (h : BeginsWord ((afterTemporary? text).getD text)) : BeginsWord text := by
  refine of_getD (motive := (BeginsWord · → BeginsWord text)) id (fun rest hrest _ => ?_) h
  refine of_getD (motive := (BeginsWord · → BeginsWord text)) id (fun scope hscope _ => ?_)
    (of_either (by decide) (by decide) beginsWord_of_keyword hrest)
  exact of_either (by decide) (by decide) beginsWord_of_keyword hscope

theorem starts_of_read? {text name body : Text}
    (h : read? text = some (name, body)) : Starts text := by
  obtain ⟨first, hcreate, hfirst⟩ := Option.bind_eq_some_iff.mp h
  obtain ⟨second, htable, _⟩ := Option.bind_eq_some_iff.mp hfirst
  exact ⟨first, hcreate,
    beginsWord_of_temporary (beginsWord_of_keyword (by decide) htable)⟩

/-- What is left of a text behind a piece in which no header begins. -/
def Clear (rest text : Text) : Prop :=
  ∃ front, text = front ++ rest ∧ ∀ left right, front = left ++ right →
    right ≠ [] → ¬ Starts (right ++ rest)

section clear

variable {rest text front word : Text}

theorem Clear.refl (text : Text) : Clear text text := by
  refine ⟨[], rfl, fun left right hsplit hright => ?_⟩
  exact absurd (List.append_eq_nil_iff.mp hsplit.symm).2 hright

theorem Clear.trans {first second : Text} (h : Clear first second)
    (h' : Clear second text) : Clear first text := by
  obtain ⟨back, rfl, hback⟩ := h
  obtain ⟨front, rfl, hfront⟩ := h'
  refine ⟨front ++ back, by simp, fun left right hsplit hright => ?_⟩
  rcases List.append_eq_append_iff.mp hsplit with
    ⟨middle, rfl, hmiddle⟩ | ⟨middle, hmiddle, rfl⟩
  · exact hback middle right hmiddle hright
  · cases middle with
    | nil => exact hback [] back rfl hright
    | cons c middle =>
        rw [List.append_assoc]
        exact hfront left (c :: middle) hmiddle (List.cons_ne_nil c middle)

/-- No header begins at a character that is not of a word. -/
theorem clear_of_not_word (hfront : ∀ c ∈ front, isWordChar c = false) :
    Clear rest (front ++ rest) := by
  refine ⟨front, rfl, fun left right hsplit hright hstarts => ?_⟩
  cases right with
  | nil => exact hright rfl
  | cons c right =>
      have hc := hfront c (by rw [hsplit]; simp)
      have hbegins := hstarts.beginsWord
      simp [BeginsWord, hc] at hbegins

theorem clear_of_blanks (hfront : ∀ c ∈ front, isBlank c = true) :
    Clear rest (front ++ rest) :=
  clear_of_not_word fun c hc => isWordChar_of_isBlank (hfront c hc)

theorem clear_trimStart (text : Text) : Clear (trimStart text) text := by
  obtain ⟨blanks, hblanks, hall⟩ := trimStart_split text
  have hclear : Clear (trimStart text) (blanks ++ trimStart text) :=
    clear_of_blanks hall
  rwa [← hblanks] at hclear

/-- A word behind which no other word stands begins no header. -/
theorem clear_of_word (hword : ∀ c ∈ word, isWordChar c = true)
    (hends : ¬ BeginsWord rest) (hafter : ¬ BeginsWord (trimStart rest)) :
    Clear rest (word ++ rest) := by
  refine ⟨word, rfl, fun left right hsplit _ => ?_⟩
  rintro ⟨behind, hread, hbegins⟩
  have hright : ∀ c ∈ right, isWordChar c = true := by
    intro c hc
    exact hword c (by rw [hsplit]; exact List.mem_append_right left hc)
  have hrest : ∀ c ∈ rest.head?, isWordChar c = false := by
    intro c hc
    rw [BeginsWord, Option.mem_def.mp hc] at hends
    simpa using hends
  obtain ⟨_, _, rfl⟩ := afterSpacedKeyword?_word (by decide) hright hrest hread
  exact hafter hbegins

/-- A keyword that does not end in `CREATE` begins no header. -/
theorem clear_of_keyword {keyword : Text} (hkeyword : IsKeyword keyword)
    (hcreate : ¬ "CREATE".toList <:+ keyword)
    (h : afterSpacedKeyword? keyword text = some rest) : Clear rest text := by
  obtain ⟨behind, hread, hblanks⟩ := Option.bind_eq_some_iff.mp h
  obtain ⟨used, rfl, hused⟩ := afterKeyword?_eq_some_iff.mp hread
  obtain ⟨blank, blanks, rfl, hblank, hall⟩ := afterBlanks?_eq_some hblanks
  have hgap : Clear rest ((blank :: blanks) ++ rest) := by
    apply clear_of_blanks
    intro c hc
    rcases List.mem_cons.mp hc with rfl | hc
    · exact hblank
    · exact hall c hc
  refine hgap.trans ⟨used, rfl, fun left right hsplit _ => ?_⟩
  rintro ⟨tail, hstarts, _⟩
  have hright : ∀ c ∈ right, isWordChar c = true := by
    intro c hc
    apply hkeyword.isWordChar_of_map hused
    rw [hsplit]
    exact List.mem_append_right left hc
  -- The word in front of the blank ends the keyword, so it is not `CREATE`.
  obtain ⟨hmap, _⟩ := afterSpacedKeyword?_word (by decide) hright
    (by simp [isWordChar_of_isBlank hblank]) hstarts
  apply hcreate
  rw [← hused, hsplit, List.map_append, hmap]
  exact List.suffix_append _ _

theorem clear_of_or {first second : Text} (hfirst : IsKeyword first)
    (hsecond : IsKeyword second) (hcreate : ¬ "CREATE".toList <:+ first)
    (hcreate' : ¬ "CREATE".toList <:+ second)
    (h : (afterSpacedKeyword? first text).or
      (afterSpacedKeyword? second text) = some rest) : Clear rest text := by
  rcases Option.or_eq_some_iff.mp h with h | ⟨_, h⟩
  · exact clear_of_keyword hfirst hcreate h
  · exact clear_of_keyword hsecond hcreate' h

theorem clear_of_getD {read : Option Text}
    (h : ∀ rest, read = some rest → Clear rest text) :
    Clear (read.getD text) text := by
  cases read with
  | none => exact Clear.refl text
  | some rest => exact h rest rfl

theorem clear_temporary (text : Text) :
    Clear ((afterTemporary? text).getD text) text := by
  apply clear_of_getD
  intro rest h
  apply (clear_of_or (by decide) (by decide) (by decide) (by decide) h).trans
  apply clear_of_getD
  intro scope hscope
  exact clear_of_or (by decide) (by decide) (by decide) (by decide) hscope

theorem clear_ifNotExists (text : Text) :
    Clear ((afterIfNotExists? text).getD text) text := by
  apply clear_of_getD
  intro rest h
  obtain ⟨first, hfirst, h⟩ := Option.bind_eq_some_iff.mp h
  obtain ⟨second, hsecond, h⟩ := Option.bind_eq_some_iff.mp h
  apply (clear_of_keyword (by decide) (by decide) h).trans
  apply (clear_of_keyword (by decide) (by decide) hsecond).trans
  exact clear_of_keyword (by decide) (by decide) hfirst

/-- A quoted word in front of a mark begins no header. -/
theorem clear_of_quotedWord? {mark : Char} {more : Text}
    (h : quotedWord? text = some (word, rest))
    (hrest : trimStart rest = mark :: more) (hmark : isWordChar mark = false) :
    Clear (mark :: more) text := by
  obtain ⟨opener, closer, rfl, hopens, hword, hcloses, hends⟩ :=
    quotedWord?_pieces h
  have hquotes : ∀ c, opensName c = true ∨ closesName c = true →
      isWordChar c = false ∧ isBlank c = false := by
    intro c hc
    simp only [opensName, closesName, Bool.or_eq_true, beq_iff_eq] at hc
    rcases hc with ((rfl | rfl) | rfl) | ((rfl | rfl) | rfl) <;> decide
  have hafter : ¬ BeginsWord (trimStart (closer ++ rest)) := by
    cases closer with
    | nil =>
        rw [List.nil_append, hrest]
        simp [BeginsWord, hmark]
    | cons c closer =>
        obtain ⟨hc, hblank⟩ := hquotes c (Or.inr (hcloses c List.mem_cons_self))
        simp [trimStart, hblank, BeginsWord, hc]
  rw [← hrest]
  refine (clear_trimStart rest).trans (Clear.trans ?_ (clear_of_not_word
    fun c hc => (hquotes c (Or.inl (hopens c hc))).1))
  refine Clear.trans ?_ (clear_of_word hword hends hafter)
  exact clear_of_not_word fun c hc => (hquotes c (Or.inr (hcloses c hc))).1

theorem clear_of_nameBeforeBracket? {name : Text}
    (h : nameBeforeBracket? text = some (name, rest)) :
    Clear ('(' :: rest) text := by
  fun_induction nameBeforeBracket? text with
  | case1 | case2 | case5 => contradiction
  | case3 text word behind hword more hmore =>
      obtain ⟨_, rfl⟩ : word = name ∧ more = rest := by simpa using h
      exact clear_of_quotedWord? hword hmore (by decide)
  | case4 text word behind hword more hmore _ ih =>
      have hdot : Clear more (['.'] ++ more) := clear_of_not_word (by decide)
      exact (ih h).trans ((clear_trimStart more).trans
        (hdot.trans (clear_of_quotedWord? hword hmore (by decide))))

/-- Behind the first letter of a header no header begins up to its bracket. -/
theorem clear_of_read? {c : Char} {name body : Text}
    (h : read? (c :: text) = some (name, body)) : Clear ('(' :: body) text := by
  obtain ⟨first, hcreate, hfirst⟩ := Option.bind_eq_some_iff.mp h
  obtain ⟨second, htable, hname⟩ := Option.bind_eq_some_iff.mp hfirst
  have hletters : afterSpacedKeyword? "REATE".toList text = some first := by
    change afterSpacedKeyword? ('C' :: "REATE".toList) (c :: text) = _ at hcreate
    rw [afterSpacedKeyword?, afterKeyword?] at hcreate
    split at hcreate
    · exact hcreate
    · contradiction
  have hsecond : Clear ('(' :: body) second :=
    (clear_of_nameBeforeBracket? hname).trans (clear_ifNotExists second)
  have htable := clear_of_keyword (by decide) (by decide) htable
  have hfirst : Clear second first := htable.trans (clear_temporary first)
  exact (hsecond.trans hfirst).trans
    (clear_of_keyword (by decide) (by decide) hletters)

end clear

/-- Behind the beginning of a header another one begins behind its bracket. -/
theorem exists_more_of_starts {phrase body middle rest name : Text}
    (h : read? (phrase ++ '(' :: body) = some (name, body)) (hne : middle ≠ [])
    (hsplit : phrase ++ '(' :: body = middle ++ rest) (hrest : Starts rest) :
    ∃ more, middle = phrase ++ '(' :: more ∧ body = more ++ rest := by
  obtain ⟨c, tail, rfl⟩ := List.exists_cons_of_ne_nil hne
  obtain ⟨front, hfront, hclear⟩ : Clear ('(' :: body) (tail ++ rest) := by
    rw [hsplit] at h
    exact clear_of_read? h
  obtain rfl : phrase = c :: front := by
    rw [List.cons_append, hfront, ← List.cons_append] at hsplit
    exact List.append_cancel_right hsplit
  rcases List.append_eq_append_iff.mp hfront with
    ⟨back, rfl, hback⟩ | ⟨more, rfl, hmore⟩
  · -- The other header would begin in front of the bracket.
    cases back with
    | nil =>
        rw [hback] at hrest
        exact absurd hrest.beginsWord (by simp [BeginsWord]; decide)
    | cons c' back =>
        rw [hback] at hrest
        exact absurd hrest (hclear tail (c' :: back) rfl (List.cons_ne_nil c' back))
  · cases more with
    | nil =>
        rw [← List.nil_append rest, ← hmore] at hrest
        exact absurd hrest.beginsWord (by simp [BeginsWord]; decide)
    | cons c' more =>
        obtain ⟨rfl, rfl⟩ := List.cons.inj hmore
        exact ⟨more, rfl, rfl⟩

/-- A walk finds every header of its text. -/
theorem Finds.mem_of_read? {previous : Option Char} {offset : Nat} {text : Text}
    {found : List Header} (h : Finds previous offset text found)
    {front phrase body name : Text} (htext : text = front ++ (phrase ++ '(' :: body))
    (hlast : (front.getLast?.or previous).any isWordChar = false)
    (hread : read? (phrase ++ '(' :: body) = some (name, body)) :
    ⟨name, offset + byteLength (front ++ phrase)⟩ ∈ found := by
  induction h generalizing front with
  | done => simp at htext
  | @pass previous offset c tail found hnone _ ih =>
      cases front with
      | nil =>
          rw [List.nil_append] at htext
          rw [← htext, hnone hlast] at hread
          contradiction
      | cons c' front =>
          obtain ⟨rfl, rfl⟩ := List.cons.inj htext
          rw [getLast?_cons_or] at hlast
          rw [List.cons_append, byteLength_cons, ← Nat.add_assoc]
          exact ih rfl hlast
  | @found previous offset phrase' name' body' found hprevious _ _ hread' _ ih =>
      cases front with
      | nil =>
          rw [List.nil_append] at htext
          rw [← htext, hread'] at hread
          obtain ⟨rfl, rfl⟩ := Prod.mk.inj (Option.some.inj hread)
          obtain rfl := List.append_cancel_right htext
          exact List.mem_cons_self
      | cons c front =>
          obtain ⟨more, hmore, rfl⟩ := exists_more_of_starts hread'
            (List.cons_ne_nil c front) htext (starts_of_read? hread)
          rw [hmore, getLast?_append_cons_or] at hlast
          rw [hmore, List.append_assoc, List.cons_append, add_byteLength_bracket]
          exact List.mem_cons_of_mem _ (ih rfl hlast)

/-- A header stands in a text from a byte offset on: no word runs into it there, and
it is read up to the bracket that opens its body. -/
def StandsAt (text : Text) (start : Nat) (header : Header) : Prop :=
  ∃ front phrase body, text = front ++ (phrase ++ '(' :: body) ∧
    front.getLast?.any isWordChar = false ∧
    read? (phrase ++ '(' :: body) = some (header.name, body) ∧
    start = byteLength front ∧ header.opening = byteLength (front ++ phrase)

section places

variable {text : Text} {start : Nat} {header : Header}

/-- The search finds the headers of a text, each of them. -/
theorem mem_all_iff : header ∈ all text ↔ ∃ start, StandsAt text start header := by
  constructor
  · intro h
    obtain ⟨front, phrase, body, htext, hlast, _, hread, hopening⟩ :=
      (finds_searchFrom none 0 text).exists_of_mem h
    rw [Option.or_none] at hlast
    rw [Nat.zero_add] at hopening
    exact ⟨_, front, phrase, body, htext, hlast, hread, rfl, hopening⟩
  · rintro ⟨_, front, phrase, body, htext, hlast, hread, rfl, hopening⟩
    have hmem := (finds_searchFrom none 0 text).mem_of_read? htext
      (by rwa [Option.or_none]) hread
    rwa [Nat.zero_add, ← hopening] at hmem

/-- Of two headers that stand in a text the later one begins behind the bracket of
the other. -/
theorem StandsAt.opening_lt {start' : Nat} {header' : Header}
    (h : StandsAt text start header) (h' : StandsAt text start' header')
    (hlt : start < start') : header.opening < start' := by
  obtain ⟨front, phrase, body, rfl, _, hread, rfl, hopening⟩ := h
  obtain ⟨front', phrase', body', htext, _, hread', rfl, _⟩ := h'
  obtain ⟨middle, rfl, hsplit⟩ := exists_of_byteLength_le htext
    (Nat.le_of_lt hlt)
  have hne : middle ≠ [] := by
    rintro rfl
    simp at hlt
  obtain ⟨more, rfl, _⟩ := exists_more_of_starts hread hne hsplit
    (starts_of_read? hread')
  rw [hopening, byteLength_append, byteLength_append, byteLength_append,
    byteLength_cons]
  have := '('.utf8Size_pos
  omega

/-- One header at most stands in a text from an offset on. -/
theorem StandsAt.eq {header' : Header} (h : StandsAt text start header)
    (h' : StandsAt text start header') : header = header' := by
  obtain ⟨front, phrase, body, rfl, _, hread, rfl, hopening⟩ := h
  obtain ⟨front', phrase', body', htext, _, hread', hstart, hopening'⟩ := h'
  obtain rfl := eq_of_byteLength htext hstart
  have hsplit := List.append_cancel_left htext
  rw [hsplit, hread'] at hread
  obtain ⟨hname, rfl⟩ := Prod.mk.inj (Option.some.inj hread)
  obtain rfl := List.append_cancel_right hsplit
  obtain ⟨name, opening⟩ := header
  obtain ⟨name', opening'⟩ := header'
  simp_all

end places

end Header

end DdlDiagram
