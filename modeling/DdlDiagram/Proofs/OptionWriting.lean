/-
How table options are written.  An option is a gap with at most one comma, a name of one
or two or three words in any letter case, a gap with at most one equals sign, and a word
or a literal.  However many of them stand in front of a semicolon, they are all read, and
nothing else is: no name begins another one, no word or literal runs into the gap behind
it, and a semicolon begins no option.
-/
import DdlDiagram.Proofs.Capitals
import DdlDiagram.Proofs.Cleaning
import DdlDiagram.Proofs.OptionReading

namespace DdlDiagram

open Text Phrase

/-- Blanks with at most one sign among them, not empty. -/
structure IsGap (sign : Char) (gap : Text) : Prop where
  ne_nil : gap ≠ []
  chars : ∀ c ∈ gap, isBlank c = true ∨ c = sign
  count : gap.count sign ≤ 1

/-- Words in any ASCII letter case, with blanks between neighbours. -/
inductive Spells : List Text → Text → Prop
  | last {word used : Text} (hused : asciiUpper used = word) : Spells [word] used
  | cons {word used blanks text : Text} {words : List Text} (hused : asciiUpper used = word)
      (hne : blanks ≠ []) (hblanks : ∀ c ∈ blanks, isBlank c = true)
      (hrest : Spells words text) : Spells (word :: words) (used ++ (blanks ++ text))

/-- The words of every option's name, in capitals. -/
def optionForms : List (List Text) :=
  [["ENGINE".toList], ["TYPE".toList],
    ["CHARSET".toList], ["DEFAULT".toList, "CHARSET".toList],
    ["CHARACTER".toList, "SET".toList], ["DEFAULT".toList, "CHARACTER".toList, "SET".toList],
    ["COLLATE".toList], ["DEFAULT".toList, "COLLATE".toList],
    ["AUTO_INCREMENT".toList], ["ROW_FORMAT".toList], ["KEY_BLOCK_SIZE".toList],
    ["STATS_PERSISTENT".toList], ["COMMENT".toList], ["TABLESPACE".toList]]

/-- The value of an option: a word of ASCII letters, digits and `_`, or a literal in which
quotes and backslashes are doubled. -/
inductive IsOptionValue : Text → Prop
  | word {text : Text} (hne : text ≠ []) (hchars : ∀ c ∈ text, isNameChar c = true) :
      IsOptionValue text
  | literal (content : Text) : IsOptionValue (literalOf true content)

/-- A table option, with what parts it from the text in front. -/
inductive IsTableOption : Text → Prop
  | intro {gap name sign value : Text} {form : List Text} (hgap : IsGap ',' gap)
      (hform : form ∈ optionForms) (hname : Spells form name) (hsign : IsGap '=' sign)
      (hvalue : IsOptionValue value) : IsTableOption (gap ++ (name ++ (sign ++ value)))

section gaps

variable {sign : Char} {gap rest : Text}

theorem dropOne_eq_self {belongs : Char → Bool} {text : Text}
    (h : ∀ c ∈ text.head?, belongs c = false) : dropOne belongs text = text := by
  cases text with
  | nil => rfl
  | cons c rest => simp [dropOne, h c rfl]

theorem trimStart_append_of_blanks {blanks : Text} (hblanks : ∀ c ∈ blanks, isBlank c = true)
    (hrest : ∀ c ∈ rest.head?, isBlank c = false) : trimStart (blanks ++ rest) = rest :=
  dropWhile_solid_append hblanks hrest

/-- A gap is blanks around its sign, or blanks. -/
theorem IsGap.cases (h : IsGap sign gap) :
    (∀ c ∈ gap, isBlank c = true) ∨ ∃ front back, gap = front ++ sign :: back ∧
      (∀ c ∈ front, isBlank c = true) ∧ ∀ c ∈ back, isBlank c = true := by
  by_cases hmem : sign ∈ gap
  · obtain ⟨front, back, rfl⟩ := List.append_of_mem hmem
    have hcount := h.count
    rw [List.count_append, List.count_cons_self] at hcount
    have hfront : sign ∉ front := List.count_eq_zero.mp (by omega)
    have hback : sign ∉ back := List.count_eq_zero.mp (by omega)
    refine .inr ⟨front, back, rfl, fun c hc => ?_, fun c hc => ?_⟩
    · exact (h.chars c (by simp [hc])).resolve_right fun heq => hfront (heq ▸ hc)
    · exact (h.chars c (by simp [hc])).resolve_right fun heq => hback (heq ▸ hc)
  · exact .inl fun c hc => (h.chars c hc).resolve_right fun heq => hmem (heq ▸ hc)

/-- A gap is passed up to what stands behind it. -/
theorem IsGap.pass (h : IsGap sign gap) (hsign : isBlank sign = false)
    (hrest : ∀ c ∈ rest.head?, isBlank c = false ∧ c ≠ sign) :
    trimStart (dropOne (· == sign) (trimStart (gap ++ rest))) = rest := by
  have hsolid : ∀ c ∈ rest.head?, isBlank c = false := fun c hc => (hrest c hc).1
  rcases h.cases with hblanks | ⟨front, back, rfl, hfront, hback⟩
  · have hother : ∀ c ∈ rest.head?, (c == sign) = false := by
      simpa using fun c hc => (hrest c hc).2
    rw [trimStart_append_of_blanks hblanks hsolid, dropOne_eq_self hother]
    exact dropWhile_eq_self hsolid
  · have hdrop : dropOne (· == sign) (sign :: (back ++ rest)) = back ++ rest := by
      simp [dropOne]
    rw [List.append_assoc, List.cons_append, trimStart_append_of_blanks hfront
      (by simpa using hsign), hdrop, trimStart_append_of_blanks hback hsolid]

end gaps

namespace TableOption

/-- Neither of two words begins the other. -/
def Apart (left right : Text) : Prop :=
  ¬ left <+: right ∧ ¬ right <+: left

instance (left right : Text) : Decidable (Apart left right) :=
  inferInstanceAs (Decidable (_ ∧ _))

section keywords

variable {keyword word used behind : Text} {keywords : List Text}

theorem afterKeyword?_of_fold (hused : used.map foldCapital = keyword) (behind : Text) :
    afterKeyword? keyword (used ++ behind) = some behind :=
  afterKeyword?_eq_some_iff.mpr ⟨used, rfl, hused⟩

/-- A word is no keyword that it is apart from. -/
theorem afterKeyword?_of_apart (hused : used.map foldCapital = word)
    (h : Apart keyword word) (behind : Text) : afterKeyword? keyword (used ++ behind) = none := by
  rw [Option.eq_none_iff_forall_ne_some]
  intro rest hread
  obtain ⟨read, hsplit, rfl⟩ := afterKeyword?_eq_some_iff.mp hread
  subst hused
  rcases List.append_eq_append_iff.mp hsplit with ⟨middle, rfl, -⟩ | ⟨middle, rfl, -⟩
  · exact h.2 (by simp)
  · exact h.1 (by simp)

theorem afterSpacedKeyword?_of_apart (hused : used.map foldCapital = word)
    (h : Apart keyword word) (behind : Text) :
    afterSpacedKeyword? keyword (used ++ behind) = none := by
  rw [afterSpacedKeyword?, afterKeyword?_of_apart hused h]
  rfl

theorem afterAny?_of_apart (hused : used.map foldCapital = word)
    (h : ∀ keyword ∈ keywords, Apart keyword word) (behind : Text) :
    afterAny? keywords (used ++ behind) = none :=
  List.findSome?_eq_none_iff.mpr fun keyword hmem =>
    afterKeyword?_of_apart hused (h keyword hmem) behind

/-- Of keywords that are apart a word is the one that it spells. -/
theorem afterAny?_of_mem (hused : used.map foldCapital = word) (hmem : word ∈ keywords)
    (h : ∀ keyword ∈ keywords, keyword = word ∨ Apart keyword word) (behind : Text) :
    afterAny? keywords (used ++ behind) = some behind := by
  induction keywords with
  | nil => contradiction
  | cons keyword others ih =>
      rw [afterAny?, List.findSome?_cons]
      rcases h keyword List.mem_cons_self with rfl | hapart
      · rw [afterKeyword?_of_fold hused]
      · have hne : word ≠ keyword := by
          rintro rfl
          exact hapart.1 List.prefix_rfl
        rw [afterKeyword?_of_apart hused hapart]
        exact ih ((List.mem_cons.mp hmem).resolve_left hne) fun other hother =>
          h other (List.mem_cons_of_mem keyword hother)

/-- A keyword and blanks are read up to what stands behind them. -/
theorem afterSpacedKeyword?_of_blanks {blanks : Text} (hused : used.map foldCapital = keyword)
    (hne : blanks ≠ []) (hblanks : ∀ c ∈ blanks, isBlank c = true)
    (hbehind : ∀ c ∈ behind.head?, isBlank c = false) :
    afterSpacedKeyword? keyword (used ++ (blanks ++ behind)) = some behind := by
  rw [afterSpacedKeyword?, afterKeyword?_of_fold hused, Option.bind_some]
  cases blanks with
  | nil => exact absurd rfl hne
  | cons c others =>
      rw [List.cons_append, afterBlanks?, if_pos (hblanks c List.mem_cons_self)]
      exact congrArg some (trimStart_append_of_blanks
        (fun other hother => hblanks other (List.mem_cons_of_mem c hother)) hbehind)

end keywords

/-- A word that an option's name may hold: capitals, with `_` between them. -/
def IsOptionWord (word : Text) : Prop :=
  word ≠ [] ∧ ∀ c ∈ word, isWordChar c = true ∧ foldCapital c = c

instance (word : Text) : Decidable (IsOptionWord word) :=
  inferInstanceAs (Decidable (_ ∧ _))

section names

variable {word used name : Text} {form : List Text}

theorem IsOptionWord.map_foldCapital (h : IsOptionWord word) (hused : asciiUpper used = word) :
    used.map foldCapital = word := by
  calc
    used.map foldCapital = word.map foldCapital := by
      simp [← hused, asciiUpper, Function.comp_def]
    _ = word.map id := List.map_congr_left fun c hc => (h.2 c hc).2
    _ = word := List.map_id word

theorem exists_first_of_spells (hname : Spells form name) :
    ∃ used more, name = used ++ more ∧ asciiUpper used ∈ form.head? := by
  cases hname with
  | last hused => exact ⟨name, [], by simp, by simp [hused]⟩
  | @cons _ used blanks text _ hused _ _ _ => exact ⟨used, blanks ++ text, rfl, by simp [hused]⟩

/-- A name begins with a letter of its first word. -/
theorem head_of_spells (hname : Spells form name) (hform : ∀ word ∈ form, IsOptionWord word)
    (behind : Text) : ∀ c ∈ (name ++ behind).head?, isWordChar c = true := by
  obtain ⟨used, more, rfl, hfirst⟩ := exists_first_of_spells hname
  obtain ⟨hne, hchars⟩ := hform _ (List.mem_of_mem_head? hfirst)
  cases used with
  | nil => exact absurd rfl hne
  | cons c rest =>
      intro other hother
      obtain rfl : c = other := Option.some.inj hother
      rw [← isWordChar_toUpper]
      exact (hchars _ List.mem_cons_self).1

theorem solid_of_spells (hname : Spells form name) (hform : ∀ word ∈ form, IsOptionWord word)
    (behind : Text) : ∀ c ∈ (name ++ behind).head?, isBlank c = false := fun c hc =>
  isBlank_of_isWordChar (head_of_spells hname hform behind c hc)

/-- The words of a name that `DEFAULT` may stand in front of. -/
def charsetForms : List (List Text) :=
  [["CHARSET".toList], ["COLLATE".toList], ["CHARACTER".toList, "SET".toList]]

theorem isOptionWord_of_charset :
    ∀ form ∈ charsetForms, ∀ word ∈ form, IsOptionWord word := by
  decide

theorem isOptionWord_of_form : ∀ form ∈ optionForms, ∀ word ∈ form, IsOptionWord word := by
  decide

/-- What a name's words are: one of the plain names, or those of a character set or a
collation, with `DEFAULT` in front or without. -/
theorem optionForms_cases : ∀ form ∈ optionForms,
    (∃ word ∈ plainNames, form = [word]) ∨ form ∈ charsetForms ∨
      ∃ words ∈ charsetForms, form = "DEFAULT".toList :: words := by
  decide

theorem afterCharset?_of_spells (hform : form ∈ charsetForms) (hname : Spells form name)
    (behind : Text) : afterCharset? (name ++ behind) = some behind := by
  have hwords := isOptionWord_of_charset form hform
  cases hname with
  | @last word _ hused =>
      have hfold := (hwords _ List.mem_cons_self).map_foldCapital hused
      have hmem : word ∈ ["CHARSET".toList, "COLLATE".toList] := by
        simpa [charsetForms] using hform
      have hapart : ∀ word ∈ ["CHARSET".toList, "COLLATE".toList],
          ∀ keyword ∈ ["CHARSET".toList, "COLLATE".toList],
            keyword = word ∨ Apart keyword word := by decide
      rw [afterCharset?, afterAny?_of_mem hfold hmem (hapart word hmem), Option.some_or]
  | @cons word used blanks text words hused hne hblanks hrest =>
      have hmore : words ≠ [] := by
        rintro rfl
        cases hrest
      obtain ⟨rfl, rfl⟩ : word = "CHARACTER".toList ∧ words = ["SET".toList] := by
        simpa [charsetForms, hmore] using hform
      have hsolid := solid_of_spells hrest
        (fun word hword => hwords word (List.mem_cons_of_mem _ hword)) behind
      cases hrest with
      | last hset =>
          have hfold := (hwords _ List.mem_cons_self).map_foldCapital hused
          have hfoldSet := (hwords "SET".toList (by decide)).map_foldCapital hset
          rw [List.append_assoc, List.append_assoc, afterCharset?,
            afterAny?_of_apart hfold (by decide), Option.none_or,
            afterSpacedKeyword?_of_blanks hfold hne hblanks hsolid, Option.bind_some]
          exact afterKeyword?_of_fold hfoldSet behind
      | cons _ _ _ hmore => cases hmore

/-- The name of an option is read in any letter case. -/
theorem afterName?_of_spells (hform : form ∈ optionForms) (hname : Spells form name)
    (behind : Text) : afterName? (name ++ behind) = some behind := by
  have hwords := isOptionWord_of_form form hform
  rcases optionForms_cases form hform with
    ⟨word, hmem, rfl⟩ | hcharset | ⟨words, hcharset, rfl⟩
  · have hapart : ∀ word ∈ plainNames, ∀ keyword ∈ plainNames,
        keyword = word ∨ Apart keyword word := by decide
    cases hname with
    | last hused =>
        have hfold := (hwords word List.mem_cons_self).map_foldCapital hused
        rw [afterName?, afterAny?_of_mem hfold hmem (hapart word hmem), Option.some_or]
    | cons _ _ _ hmore => cases hmore
  · have hapart : ∀ form ∈ charsetForms, ∀ word ∈ form.head?,
        ∀ keyword ∈ "DEFAULT".toList :: plainNames, Apart keyword word := by decide
    obtain ⟨used, more, rfl, hfirst⟩ := exists_first_of_spells hname
    have hhead := hapart form hcharset _ hfirst
    have hfold := (hwords _ (List.mem_of_mem_head? hfirst)).map_foldCapital rfl
    have hread := afterCharset?_of_spells hcharset hname behind
    rw [List.append_assoc] at hread ⊢
    rw [afterName?, afterAny?_of_apart hfold fun keyword hkeyword =>
        hhead keyword (List.mem_cons_of_mem _ hkeyword),
      afterSpacedKeyword?_of_apart hfold (hhead _ List.mem_cons_self), Option.getD_none,
      hread, Option.none_or]
  · cases hname with
    | last _ => exact absurd hcharset (by decide)
    | @cons word used blanks text words hused hne hblanks hrest =>
        have hfold := (hwords _ List.mem_cons_self).map_foldCapital hused
        have hsolid := solid_of_spells hrest (isOptionWord_of_charset words hcharset) behind
        rw [List.append_assoc, List.append_assoc, afterName?,
          afterAny?_of_apart hfold (by decide), Option.none_or,
          afterSpacedKeyword?_of_blanks hfold hne hblanks hsolid, Option.getD_some]
        exact afterCharset?_of_spells hcharset hrest behind

end names

section values

variable {value rest : Text}

/-- The contents of a literal are read up to the quote that closes it. -/
theorem afterLiteral?_escaped (content : Text) (fallback : Option Text)
    (hrest : rest.head? ≠ some '\'') :
    afterLiteral? fallback (escaped true content ++ '\'' :: rest) = some rest := by
  induction content generalizing fallback with
  | nil =>
      cases rest with
      | nil => rfl
      | cons next more =>
          have hnext : next ≠ '\'' := fun h => hrest (congrArg some h)
          simp [escaped, afterLiteral?, hnext]
  | cons c content ih =>
      have hescaped : escaped true (c :: content) ++ '\'' :: rest =
          escapedChar true c ++ (escaped true content ++ '\'' :: rest) :=
        List.append_assoc _ _ _
      rw [hescaped]
      rcases Lexis.escapedChar_cases true c with
        ⟨rfl, hpiece⟩ | ⟨-, rfl, hpiece⟩ | ⟨hquote, hbackslash, hpiece⟩
      · rw [hpiece]
        exact ih _
      · rw [hpiece]
        exact ih _
      · have hother : c ≠ '\\' := by simpa using hbackslash
        rw [hpiece, List.singleton_append]
        cases hbehind : escaped true content ++ '\'' :: rest with
        | nil => simp at hbehind
        | cons next more =>
            rw [afterLiteral?, if_neg hquote, if_neg hother, ← hbehind]
            exact ih _

/-- A value is read up to what stands behind it, where that goes on with neither a word nor
a literal. -/
theorem afterValue?_of_isOptionValue (hvalue : IsOptionValue value)
    (hrest : ∀ c ∈ rest.head?, isWordChar c = false ∧ c ≠ '\'') :
    afterValue? (value ++ rest) = some rest := by
  cases hvalue with
  | word hne hchars =>
      cases value with
      | nil => exact absurd rfl hne
      | cons c others =>
          have hword := isWordChar_of_isNameChar (hchars c List.mem_cons_self)
          have hquote : c ≠ '\'' := by
            rintro rfl
            contradiction
          have hothers : ∀ other ∈ others, isWordChar other = true := fun other hother =>
            isWordChar_of_isNameChar (hchars other (List.mem_cons_of_mem c hother))
          rw [List.cons_append, afterValue?, if_neg hquote, if_pos hword,
            dropWhile_solid_append hothers fun other hother => (hrest other hother).1]
  | literal content =>
      have hclosed : rest.head? ≠ some '\'' := fun h => (hrest _ h).2 rfl
      rw [literalOf, List.cons_append, List.append_assoc, afterValue?, if_pos rfl]
      exact afterLiteral?_escaped content none hclosed

theorem head_of_isOptionValue (hvalue : IsOptionValue value) (rest : Text) :
    ∀ c ∈ (value ++ rest).head?, isBlank c = false ∧ c ≠ '=' := by
  cases hvalue with
  | word hne hchars =>
      cases value with
      | nil => exact absurd rfl hne
      | cons c others =>
          intro other hother
          obtain rfl : c = other := Option.some.inj hother
          have hword := isWordChar_of_isNameChar (hchars c List.mem_cons_self)
          refine ⟨isBlank_of_isWordChar hword, ?_⟩
          rintro rfl
          contradiction
  | literal content =>
      intro other hother
      obtain rfl : '\'' = other := Option.some.inj hother
      decide

end values

section options

variable {option rest : Text} {options : List Text}

/-- Behind an option no word and no literal goes on. -/
def Ends (rest : Text) : Prop :=
  ∀ c ∈ rest.head?, isWordChar c = false ∧ c ≠ '\''

/-- An option is read up to what stands behind it. -/
theorem after?_of_isTableOption (hoption : IsTableOption option) (hrest : Ends rest) :
    after? (option ++ rest) = some rest := by
  obtain @⟨gap, name, sign, value, form, hgap, hform, hname, hsign, hvalue⟩ := hoption
  have hhead := head_of_spells hname (isOptionWord_of_form form hform)
    (sign ++ (value ++ rest))
  have hstart : ∀ c ∈ (name ++ (sign ++ (value ++ rest))).head?,
      isBlank c = false ∧ c ≠ ',' := by
    intro c hc
    refine ⟨isBlank_of_isWordChar (hhead c hc), ?_⟩
    rintro rfl
    exact absurd (hhead _ hc) (by decide)
  have hsplit : gap ++ (name ++ (sign ++ value)) ++ rest =
      gap ++ (name ++ (sign ++ (value ++ rest))) := by simp
  rw [hsplit, after?, hgap.pass (by decide) hstart, Option.bind_eq_bind,
    afterName?_of_spells hform hname, Option.bind_some,
    hsign.pass (by decide) (head_of_isOptionValue hvalue rest)]
  exact afterValue?_of_isOptionValue hvalue hrest

theorem ends_of_isTableOption (hoption : IsTableOption option) (rest : Text) :
    Ends (option ++ rest) := by
  obtain @⟨gap, name, sign, value, form, hgap, -, -, -, -⟩ := hoption
  cases gap with
  | nil => exact absurd rfl hgap.ne_nil
  | cons c others =>
      intro other hother
      obtain rfl : c = other := Option.some.inj hother
      rcases hgap.chars c List.mem_cons_self with hblank | rfl
      · refine ⟨isWordChar_of_isBlank hblank, ?_⟩
        rintro rfl
        contradiction
      · decide

theorem afterAll_of_after? {text : Text} (h : after? text = some rest) :
    afterAll text = afterAll rest := by
  rw [afterAll]
  split
  · next hnone =>
      rw [h] at hnone
      contradiction
  · next behind hsome => rw [Option.some.inj (h.symm.trans hsome)]

/-- All options in front of a semicolon are read, and nothing else. -/
theorem afterAll_of_isTableOption (hoptions : ∀ option ∈ options, IsTableOption option)
    (rest : Text) : afterAll (options.flatten ++ ';' :: rest) = ';' :: rest := by
  induction options with
  | nil => exact CleanText.afterAll_semicolon rest
  | cons option others ih =>
      have hothers := fun other hother => hoptions other (List.mem_cons_of_mem option hother)
      have hends : Ends (others.flatten ++ ';' :: rest) := by
        cases others with
        | nil =>
            intro c hc
            obtain rfl : ';' = c := Option.some.inj hc
            decide
        | cons next more =>
            rw [List.flatten_cons, List.append_assoc]
            exact ends_of_isTableOption (hothers next List.mem_cons_self) _
      rw [List.flatten_cons, List.append_assoc,
        afterAll_of_after? (after?_of_isTableOption (hoptions option List.mem_cons_self) hends)]
      exact ih hothers

/-- Where a backslash escapes, options hold no bracket of code. -/
theorem bare_of_isTableOption {lexis : Lexis} (hescapes : lexis.escapes = true)
    (hoptions : ∀ option ∈ options, IsTableOption option) : lexis.Bare options.flatten := by
  obtain ⟨read, hsplit, hdropped⟩ := afterAll_split lexis (options.flatten ++ [';'])
  rw [afterAll_of_isTableOption hoptions] at hsplit hdropped
  rw [List.append_cancel_right hsplit]
  exact hdropped.bare (.inl hescapes)

end options

end TableOption

end DdlDiagram
