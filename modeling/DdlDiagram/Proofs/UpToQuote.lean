/-
What is known from a text up to its first quote.  The kind of a clause, the name and
the type that it declares, are read from its first words.  A word in which a quote
stands answers each question about it in one way, whatever follows the quote; only the
word `VARYING` is looked for behind a word that may hold one.
-/
import DdlDiagram.Clause.Basic
import DdlDiagram.Proofs.HeaderPlace

namespace DdlDiagram

open Text Phrase

/-- A function of texts that looks at a text up to its first quote at most. -/
def StopsAtQuote {α : Type} (f : Text → α) : Prop :=
  ∀ text, '\'' ∈ text → ∀ behind, f (text ++ behind) = f text

namespace Text

section takeWhile

variable {p : Char → Bool} {mark : Char} {text behind : Text}

/-- Dropping stops at a character that does not belong. -/
theorem stops_dropWhile (p : Char → Bool) (text : Text) :
    ∀ c ∈ (text.dropWhile p).head?, p c = false := by
  intro c hc
  have hstop := List.head?_dropWhile_not p text
  rw [Option.mem_def.mp hc] at hstop
  exact hstop

/-- Where taking stops, it does not depend on what is behind. -/
theorem span_append_of_ne_nil (h : text.dropWhile p ≠ []) (behind : Text) :
    (text ++ behind).takeWhile p = text.takeWhile p ∧
      (text ++ behind).dropWhile p = text.dropWhile p ++ behind := by
  obtain ⟨stop, rest, hdrop⟩ := List.exists_cons_of_ne_nil h
  have hstop : p stop = false := stops_dropWhile p text stop (by rw [hdrop]; rfl)
  have hshape : text = text.takeWhile p ++ stop :: rest := by
    rw [← hdrop, List.takeWhile_append_dropWhile]
  have htaken : ∀ c ∈ text.takeWhile p, p c = true := fun c hc =>
    List.mem_takeWhile_imp hc
  have hends : ∀ c ∈ (stop :: (rest ++ behind)).head?, p c = false := by
    rintro c hc
    rw [← Option.some.inj hc]
    exact hstop
  rw [hdrop]
  generalize text.takeWhile p = taken at hshape htaken
  subst hshape
  rw [List.append_assoc, List.cons_append]
  exact ⟨takeWhile_solid_append htaken hends, dropWhile_solid_append htaken hends⟩

theorem takeWhile_prefix_append (p : Char → Bool) (text behind : Text) :
    text.takeWhile p <+: (text ++ behind).takeWhile p := by
  by_cases hdrop : text.dropWhile p = []
  · have htaken : ∀ c ∈ text, p c = true := by
      intro c hc
      rw [← List.takeWhile_append_dropWhile (p := p) (l := text), hdrop,
        List.append_nil] at hc
      exact List.mem_takeWhile_imp hc
    rw [List.takeWhile_append_of_pos htaken]
    exact (List.takeWhile_prefix p).trans (List.prefix_append text _)
  · have htake := (span_append_of_ne_nil hdrop behind).1
    exact ⟨[], (List.append_nil _).trans htake.symm⟩

/-- A mark is among the characters that are taken, or the others begin in front of
it. -/
theorem span_append_or (h : mark ∈ text) (behind : Text) :
    mark ∈ text.takeWhile p ∨
      (text ++ behind).takeWhile p = text.takeWhile p ∧
        (text ++ behind).dropWhile p = text.dropWhile p ++ behind ∧
          mark ∈ text.dropWhile p := by
  rw [← List.takeWhile_append_dropWhile (p := p) (l := text)] at h
  rcases List.mem_append.mp h with htaken | hdropped
  · exact Or.inl htaken
  · obtain ⟨htake, hdrop⟩ :=
      span_append_of_ne_nil (List.ne_nil_of_mem hdropped) behind
    exact Or.inr ⟨htake, hdrop, hdropped⟩

end takeWhile

/-- The text behind its first word. -/
def afterWord (text : Text) : Text :=
  (trimStart text).dropWhile fun c => !isBlank c

section words

variable {text : Text}

theorem trimStart_of_firstWord (h : firstWord text = []) : trimStart text = [] := by
  cases hstart : trimStart text with
  | nil => rfl
  | cons c rest =>
      have hc := stops_dropWhile isBlank text c (by
        rw [← trimStart, hstart]
        rfl)
      rw [firstWord, hstart, List.takeWhile_cons_of_pos (by rw [hc]; rfl)] at h
      contradiction

/-- The words of a text are its first one and those behind it. -/
theorem words_eq (text : Text) :
    words text =
      if firstWord text = [] then [] else firstWord text :: words (afterWord text) := by
  obtain ⟨blanks, hblanks, hall⟩ := trimStart_split text
  have hwords : words text = words (trimStart text) := by
    rw [hblanks, words_append_of_blanks hall, ← hblanks]
  have hsplit := List.takeWhile_append_dropWhile (p := fun c => !isBlank c)
    (l := trimStart text)
  have hsolid : ∀ c ∈ firstWord text, isBlank c = false := by
    intro c hc
    simpa using List.mem_takeWhile_imp hc
  change firstWord text ++ afterWord text = trimStart text at hsplit
  rw [hwords, ← hsplit]
  split
  · next hempty =>
      rw [hsplit, trimStart_of_firstWord hempty]
      rfl
  · next hne =>
      have hword : IsWord (firstWord text) := ⟨hne, hsolid⟩
      cases hrest : afterWord text with
      | nil =>
          rw [List.append_nil, words_of_isWord hword]
          rfl
      | cons blank rest =>
          have hblank := stops_dropWhile (fun c => !isBlank c) (trimStart text) blank (by
            rw [← afterWord, hrest]
            rfl)
          rw [Bool.not_eq_false'] at hblank
          rw [words_isWord_append hword hblank, words_cons_blank hblank]

/-- The second word is the first one behind the first. -/
theorem getD_words_one (text : Text) :
    (words text)[1]?.getD [] = firstWord (afterWord text) := by
  have hsecond := words_eq (afterWord text)
  rw [words_eq text, hsecond]
  by_cases hfirst : firstWord text = []
  · have hafter : afterWord text = [] := by
      rw [afterWord, trimStart_of_firstWord hfirst]
      rfl
    rw [if_pos hfirst, hafter]
    rfl
  · rw [if_neg hfirst]
    by_cases hnext : firstWord (afterWord text) = []
    · rw [if_pos hnext, hnext]
      rfl
    · rw [if_neg hnext]
      rfl

end words

end Text

section stopping

variable {α β : Type} {f : Text → α} {text : Text}

theorem quote_mem_marks : '\'' ∈ marks := by
  decide

/-- Behind a quote nothing counts. -/
theorem StopsAtQuote.cut (h : StopsAtQuote f) (front behind : Text) :
    f (front ++ '\'' :: behind) = f (front ++ ['\'']) := by
  rw [List.append_cons]
  exact h _ (by simp) behind

theorem StopsAtQuote.trimStart (h : StopsAtQuote f) :
    StopsAtQuote fun text => f (trimStart text) := by
  intro text hquote behind
  obtain ⟨htrim, hmem⟩ := trimStart_append_of_mark quote_mem_marks hquote behind
  change f (Text.trimStart (text ++ behind)) = f (Text.trimStart text)
  rw [htrim]
  exact h _ hmem behind

/-- A question that every word with a quote in it answers alike. -/
theorem stopsAtQuote_takeWhile (p : Char → Bool) {value : α}
    (hvalue : ∀ word, '\'' ∈ word → (∀ c ∈ word, p c = true) → f word = value) :
    StopsAtQuote fun text => f (text.takeWhile p) := by
  intro text hquote behind
  have htaken : ∀ text : Text, ∀ c ∈ text.takeWhile p, p c = true :=
    fun _ _ hc => List.mem_takeWhile_imp hc
  rcases span_append_or (p := p) hquote behind with hmem | ⟨htake, _⟩
  · have hmem' := (takeWhile_prefix_append p text behind).mem hmem
    exact (hvalue _ hmem' (htaken _)).trans (hvalue _ hmem (htaken _)).symm
  · exact congrArg f htake

theorem stopsAtQuote_firstWord {value : α}
    (hvalue : ∀ word, '\'' ∈ word → f word = value) :
    StopsAtQuote fun text => f (firstWord text) :=
  (stopsAtQuote_takeWhile _ fun word hmem _ => hvalue word hmem).trimStart

/-- The same of the first word up to a bracket. -/
theorem stopsAtQuote_before {value : α}
    (hvalue : ∀ word, '\'' ∈ word → '(' ∉ word → f word = value) :
    StopsAtQuote fun text => f (before '(' (firstWord text)) := by
  have hword : ∀ word, '\'' ∈ word →
      (∀ c ∈ word, decide ((c != '(') = true ∧ (!isBlank c) = true) = true) →
        f word = value := by
    intro word hmem htaken
    apply hvalue word hmem
    intro hbracket
    exact absurd (htaken '(' hbracket) (by decide)
  intro text hquote behind
  simp only [before, firstWord, List.takeWhile_takeWhile]
  exact (stopsAtQuote_takeWhile _ hword).trimStart text hquote behind

/-- A first word in front of a quote, and what is behind it. -/
theorem firstWord_append (hquote : '\'' ∈ text) (hword : '\'' ∉ firstWord text)
    (behind : Text) :
    firstWord (text ++ behind) = firstWord text ∧
      afterWord (text ++ behind) = afterWord text ++ behind ∧
        '\'' ∈ afterWord text := by
  obtain ⟨htrim, hmem⟩ := trimStart_append_of_mark quote_mem_marks hquote behind
  rw [firstWord, afterWord, htrim]
  exact (span_append_or hmem behind).resolve_left hword

/-- Whether the first word holds a quote. -/
theorem stopsAtQuote_mem_firstWord : StopsAtQuote fun text => '\'' ∈ firstWord text :=
  stopsAtQuote_firstWord fun _ hmem => eq_true hmem

/-- What is asked of the text behind the first word, when that holds no quote. -/
theorem StopsAtQuote.afterWord (h : StopsAtQuote f) (value : α) :
    StopsAtQuote fun text =>
      if '\'' ∈ firstWord text then value else f (Text.afterWord text) := by
  intro text hquote behind
  have hsame : '\'' ∈ firstWord (text ++ behind) ↔ '\'' ∈ firstWord text :=
    Iff.of_eq (stopsAtQuote_mem_firstWord text hquote behind)
  by_cases hword : '\'' ∈ firstWord text
  · simp only [hsame, hword, ↓reduceIte]
  · obtain ⟨_, hafter, hmem⟩ := firstWord_append hquote hword behind
    simp only [hsame, hword, ↓reduceIte, hafter]
    exact h _ hmem behind

end stopping

namespace Clause

variable {text word : Text}

/-- A quote stays when characters of a class without it are trimmed. -/
theorem quote_mem_trimMatching {isEdge : Char → Bool} (hedge : isEdge '\'' = false)
    (h : '\'' ∈ word) : '\'' ∈ trimMatching isEdge word := by
  have hdrop : ∀ {text : Text}, '\'' ∈ text → '\'' ∈ text.dropWhile isEdge :=
    fun h => (dropWhile_append_of_mark hedge h []).2
  rw [trimMatching, List.mem_reverse]
  exact hdrop (List.mem_reverse.mpr (hdrop h))

theorem quote_mem_unquoted (h : '\'' ∈ word) : '\'' ∈ unquoted word :=
  quote_mem_trimMatching (by decide) h

theorem quote_mem_trim (h : '\'' ∈ word) : '\'' ∈ trim word :=
  show '\'' ∈ trimMatching isBlank word from quote_mem_trimMatching (by decide) h

theorem quote_mem_upper (h : '\'' ∈ word) : '\'' ∈ upper word :=
  List.mem_flatMap.mpr ⟨'\'', h, by decide⟩

theorem quote_mem_lower (h : '\'' ∈ word) : '\'' ∈ lower word :=
  List.mem_map.mpr ⟨'\'', h, by decide⟩

/-- A word with a quote in it is none of the words without one. -/
theorem contains_of_quote {names : List Text} (hnames : ∀ name ∈ names, '\'' ∉ name)
    (h : '\'' ∈ word) : names.contains word = false := by
  rw [Bool.eq_false_iff]
  intro hcontains
  exact hnames word (List.contains_iff_mem.mp hcontains) h

/-- Which word leads a clause. -/
theorem stopsAtQuote_leadingWord {names : List Text}
    (hnames : ∀ name ∈ names, '\'' ∉ name) :
    StopsAtQuote fun text => names.contains (leadingWord text) :=
  stopsAtQuote_before (f := fun word => names.contains (upper (unquoted word)))
    fun _ hmem _ => contains_of_quote hnames (quote_mem_upper (quote_mem_unquoted hmem))

theorem toLower_ne_bracket {c : Char} (hc : c ≠ '(') : c.toLower ≠ '(' := by
  intro h
  by_cases hbounds : c.val ≥ 'A'.val ∧ c.val ≤ 'Z'.val
  · have hge : 65 ≤ c.val.toNat := hbounds.1
    have hle : c.val.toNat ≤ 90 := hbounds.2
    have hval : (c.val + ('a'.val - 'A'.val)).toNat = 40 :=
      congrArg (fun c => c.val.toNat) ((dif_pos hbounds).symm.trans h)
    rw [UInt32.toNat_add] at hval
    change (c.val.toNat + 32) % 4294967296 = 40 at hval
    omega
  · exact hc ((dif_neg hbounds).symm.trans h)

theorem bracket_not_mem_lower (h : '(' ∉ word) : '(' ∉ lower word := by
  intro hmem
  obtain ⟨c, hc, hlower⟩ := List.mem_map.mp hmem
  split at hlower
  · contradiction
  · refine toLower_ne_bracket ?_ hlower
    rintro rfl
    exact h hc

theorem before_of_not_mem {mark : Char} (h : mark ∉ word) : before mark word = word := by
  rw [before, List.takeWhile_eq_self_iff]
  intro c hc
  rw [bne_iff_ne]
  rintro rfl
  exact h hc

/-- No type has a name with a quote in it. -/
theorem ofSqlName?_of_quote (h : '\'' ∈ word) (hbracket : '(' ∉ word) :
    ColumnType.ofSqlName? word = none := by
  have hnames : ∀ entry ∈ ColumnType.sqlNames, '\'' ∉ entry.1 := by decide
  have htrim : '(' ∉ trim word := by
    intro hmem
    rw [trim, trimEnd, List.mem_reverse] at hmem
    have hstart := List.mem_reverse.mp ((List.dropWhile_suffix _).mem hmem)
    exact hbracket ((List.dropWhile_suffix _).mem hstart)
  have hquote : '\'' ∈ trim (before '(' (lower (trim word))) := by
    rw [before_of_not_mem (bracket_not_mem_lower htrim)]
    exact quote_mem_trim (quote_mem_lower (quote_mem_trim h))
  rw [ColumnType.ofSqlName?, List.lookup_eq_none_iff]
  intro entry hentry
  rw [bne_iff_ne]
  intro heq
  rw [heq] at hquote
  exact hnames entry hentry hquote

theorem isIndex_of_quote (h : '\'' ∈ firstWord text) :
    isIndex text = indexWords.contains (leadingWord text) := by
  have hnames : ∀ name ∈ indexWords, '\'' ∉ name := by decide
  by_cases hbracket : '(' ∈ firstWord text
  · rw [isIndex, List.contains_iff_mem.mpr hbracket, Bool.true_or, Bool.and_true]
  · have hleading : indexWords.contains (leadingWord text) = false := by
      apply contains_of_quote hnames
      rw [leadingWord, before_of_not_mem hbracket]
      exact quote_mem_upper (quote_mem_unquoted h)
    rw [isIndex, hleading, Bool.false_and]

theorem stopsAtQuote_isIndex : StopsAtQuote isIndex := by
  have hleading : StopsAtQuote fun text => indexWords.contains (leadingWord text) :=
    stopsAtQuote_leadingWord (by decide)
  have htype : StopsAtQuote fun text =>
      (ColumnType.ofSqlName? (before '(' (firstWord text))).isNone :=
    stopsAtQuote_before (f := fun word => (ColumnType.ofSqlName? word).isNone)
      fun _ hmem hbracket => by rw [ofSqlName?_of_quote hmem hbracket, Option.isNone_none]
  intro text hquote behind
  by_cases hword : '\'' ∈ firstWord text
  · have hword' : '\'' ∈ firstWord (text ++ behind) :=
      Iff.of_eq (stopsAtQuote_mem_firstWord text hquote behind) |>.mpr hword
    rw [isIndex_of_quote hword, isIndex_of_quote hword']
    exact hleading text hquote behind
  · obtain ⟨hfirst, hafter, hmem⟩ := firstWord_append hquote hword behind
    have hnext : (ColumnType.ofSqlName?
        (before '(' (firstWord (afterWord text ++ behind)))).isNone =
          (ColumnType.ofSqlName? (before '(' (firstWord (afterWord text)))).isNone :=
      htype _ hmem behind
    rw [isIndex, isIndex, getD_words_one, getD_words_one, leadingWord, leadingWord,
      hfirst, hafter, hnext]

/-- The name and the type name that the first two words of a clause give. -/
def plainlyDeclared? (clause : Text) : Option (Text × Text) :=
  let name := unquoted (firstWord clause)
  let typeName := (firstWord (afterWord clause)).takeWhile Char.isAlpha
  if !isColumnName name || typeName.isEmpty || reservedWords.contains (upper typeName)
  then none
  else some (name, typeName)

/-- Whether a type name is one that `VARYING` may follow. -/
def isCharacter (typeName : Text) : Bool :=
  ["character".toList, "char".toList].contains (lower typeName)

/-- Whether the first word of a text begins with `VARYING`. -/
def startsVarying (text : Text) : Bool :=
  "varying".toList.isPrefixOf (lower (firstWord text))

theorem isVarying_head? (typeName behind : Text) :
    isVarying typeName (words behind).head? =
      (isCharacter typeName && startsVarying behind) := by
  rw [isVarying, isCharacter, startsVarying, words_eq]
  split
  · next hempty =>
      rw [hempty]
      rfl
  · rfl

/-- What a clause declares is read from its first three words. -/
theorem declared?_eq (clause : Text) :
    declared? clause = (plainlyDeclared? clause).map fun (name, typeName) =>
      (name, if isCharacter typeName && startsVarying (afterWord (afterWord clause))
        then "VARCHAR".toList else typeName) := by
  rw [declared?, words_eq clause, words_eq (afterWord clause), plainlyDeclared?]
  by_cases hfirst : firstWord clause = []
  · have hname : isColumnName (unquoted []) = false := rfl
    simp only [hfirst, ↓reduceIte, hname, Bool.not_false, Bool.true_or, Option.map_none]
  · by_cases hsecond : firstWord (afterWord clause) = []
    · simp only [hfirst, hsecond, ↓reduceIte, List.takeWhile_nil, List.isEmpty_nil,
        Bool.or_true, Bool.true_or, Option.map_none]
    · simp only [hfirst, hsecond, ↓reduceIte, isVarying_head?]
      split
      · rfl
      · rw [Option.map_some, ← apply_ite some, ← apply_ite (Prod.mk _)]

/-- No column has a name with a quote in it. -/
theorem isColumnName_of_quote (h : '\'' ∈ word) : isColumnName word = false := by
  have hchar : (isAlphanumeric '\'' || '\'' == '_' || '\'' == '$') = false := by decide
  have hall : word.all (fun c => isAlphanumeric c || c == '_' || c == '$') = false := by
    rw [List.all_eq_false]
    exact ⟨'\'', h, by rw [hchar]; exact Bool.false_ne_true⟩
  rw [isColumnName, hall, Bool.and_false, Bool.false_and]

theorem stopsAtQuote_typeName :
    StopsAtQuote fun text => (firstWord text).takeWhile Char.isAlpha := by
  have hword : ∀ word, '\'' ∈ word →
      (∀ c ∈ word, decide (c.isAlpha = true ∧ (!isBlank c) = true) = true) →
        id word = [] := by
    intro word hmem htaken
    exact absurd (htaken '\'' hmem) (by decide)
  intro text hquote behind
  simp only [firstWord, List.takeWhile_takeWhile]
  exact (stopsAtQuote_takeWhile _ hword).trimStart text hquote behind

theorem plainlyDeclared?_of_quote (h : '\'' ∈ firstWord text) :
    plainlyDeclared? text = none := by
  rw [plainlyDeclared?, isColumnName_of_quote (quote_mem_unquoted h)]
  rfl

theorem stopsAtQuote_plainlyDeclared? : StopsAtQuote plainlyDeclared? := by
  intro text hquote behind
  by_cases hword : '\'' ∈ firstWord text
  · have hword' : '\'' ∈ firstWord (text ++ behind) :=
      Iff.of_eq (stopsAtQuote_mem_firstWord text hquote behind) |>.mpr hword
    rw [plainlyDeclared?_of_quote hword, plainlyDeclared?_of_quote hword']
  · obtain ⟨hfirst, hafter, hmem⟩ := firstWord_append hquote hword behind
    have htype : (firstWord (afterWord text ++ behind)).takeWhile Char.isAlpha =
        (firstWord (afterWord text)).takeWhile Char.isAlpha :=
      stopsAtQuote_typeName _ hmem behind
    rw [plainlyDeclared?, plainlyDeclared?, hfirst, hafter, htype]

/-- A text with a quote in it begins with a word without one when every longer text
does. -/
theorem isPrefixOf_iff_of_quote {keyword longer : Text} (hkeyword : '\'' ∉ keyword)
    (h : '\'' ∈ text) (hlong : text <+: longer) :
    keyword.isPrefixOf longer = keyword.isPrefixOf text := by
  rw [Bool.eq_iff_iff, List.isPrefixOf_iff_prefix, List.isPrefixOf_iff_prefix]
  constructor
  · intro hlonger
    rcases List.prefix_or_prefix_of_prefix hlonger hlong with hshort | hwhole
    · exact hshort
    · exact absurd (hwhole.mem h) hkeyword
  · intro hshort
    exact hshort.trans hlong

theorem stopsAtQuote_startsVarying : StopsAtQuote startsVarying := by
  intro text hquote behind
  obtain ⟨htrim, hmem⟩ := trimStart_append_of_mark quote_mem_marks hquote behind
  rw [startsVarying, startsVarying, firstWord, firstWord, htrim]
  rcases span_append_or (p := fun c => !isBlank c) hmem behind with
    htaken | ⟨htake, _⟩
  · exact isPrefixOf_iff_of_quote (by decide) (quote_mem_lower htaken)
      ((takeWhile_prefix_append _ _ _).map _)
  · rw [htake]

end Clause

end DdlDiagram
