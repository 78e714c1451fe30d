/-
How the keys of a clause are spelled.  A key is words in any letter case with blanks
between them, names that may stand in quotes, and lists in brackets that end at the first
bracket that closes.  What is found in a clause is spelled at the first place where
anything is.
-/
import DdlDiagram.Proofs.ClauseKind
import DdlDiagram.Proofs.InlineKey
import DdlDiagram.Proofs.ListedName

namespace DdlDiagram

open Text

namespace Phrase

/-- A word with at most one quote on either side. -/
def QuotedWord (text word : Text) : Prop :=
  ∃ opener closer : Option Char, text = opener.toList ++ (word ++ closer.toList) ∧
    (∀ c ∈ opener, opensName c = true) ∧ (∀ c ∈ closer, closesName c = true) ∧
    IsWordName word

/-- A dotted name, with blanks behind its words and dots; it names its last word. -/
inductive PathNames : Text → Text → Prop
  | last {quoted word blanks : Text} (hquoted : QuotedWord quoted word)
      (hblanks : ∀ c ∈ blanks, isBlank c = true) : PathNames (quoted ++ blanks) word
  | dot {quoted schema blanks gap rest word : Text} (hquoted : QuotedWord quoted schema)
      (hblanks : ∀ c ∈ blanks, isBlank c = true) (hgap : ∀ c ∈ gap, isBlank c = true)
      (hrest : PathNames rest word) :
      PathNames (quoted ++ (blanks ++ '.' :: (gap ++ rest))) word

section reading

variable {text quoted word blanks path name rest : Text}

/-- A quoted word begins with a character that is not blank. -/
theorem QuotedWord.isBlank_of_mem_head? (h : QuotedWord quoted word) (rest : Text) :
    ∀ c ∈ (quoted ++ rest).head?, isBlank c = false := by
  obtain ⟨opener, closer, rfl, hopener, _, hne, hword⟩ := h
  intro c hc
  cases opener with
  | none =>
      rw [Option.toList_none, List.nil_append, List.append_assoc,
        List.head?_append_of_ne_nil _ hne] at hc
      exact isBlank_of_isWordChar (hword c (List.mem_of_mem_head? hc))
  | some d =>
      obtain rfl : d = c := Option.some.inj hc
      have hopens := hopener d rfl
      simp only [opensName, Bool.or_eq_true, beq_iff_eq] at hopens
      rcases hopens with (rfl | rfl) | rfl <;> decide

/-- What is read as a quoted word is one. -/
theorem quotedWord_of_quotedWord? (h : quotedWord? text = some (word, rest)) :
    ∃ quoted, text = quoted ++ rest ∧ QuotedWord quoted word := by
  have hname := isWordName_of_quotedWord? h
  obtain ⟨opener, hopener, hopens⟩ := exists_dropOne opensName text
  obtain ⟨closer, hcloser, hcloses⟩ :=
    exists_dropOne closesName ((dropOne opensName text).dropWhile isWordChar)
  have hparts := List.takeWhile_append_dropWhile (p := isWordChar)
    (l := dropOne opensName text)
  rw [quotedWord?] at h
  split at h
  · contradiction
  · obtain ⟨rfl, rfl⟩ := Prod.mk.inj (Option.some.inj h)
    refine ⟨_, ?_, opener, closer, rfl, hopens, hcloses, hname⟩
    rw [List.append_assoc, List.append_assoc, ← hcloser, hparts, ← hopener]

/-- A quoted word is read where neither a word nor a quote follows. -/
theorem QuotedWord.read (h : QuotedWord quoted word)
    (hrest : ∀ c ∈ rest.head?, isWordChar c = false ∧ closesName c = false) :
    quotedWord? (quoted ++ rest) = some (word, rest) := by
  obtain ⟨opener, closer, rfl, hopener, hcloser, hne, hword⟩ := h
  have hopen : dropOne opensName (opener.toList ++ (word ++ closer.toList) ++ rest) =
      word ++ (closer.toList ++ rest) := by
    cases opener with
    | some c => simp [dropOne, hopener c rfl]
    | none =>
        obtain ⟨c, tail, rfl⟩ := List.exists_cons_of_ne_nil hne
        have hc : isWordChar c = true := hword c List.mem_cons_self
        have hnot : opensName c = false := by
          rw [Bool.eq_false_iff]
          intro hopens
          simp only [opensName, Bool.or_eq_true, beq_iff_eq] at hopens
          rcases hopens with (rfl | rfl) | rfl <;> simp [isWordChar] at hc
        simp [dropOne, hnot]
  have hclose : dropOne closesName (closer.toList ++ rest) = rest := by
    cases closer with
    | some c => simp [dropOne, hcloser c rfl]
    | none =>
        cases rest with
        | nil => rfl
        | cons c tail => simp [dropOne, (hrest c rfl).2]
  have hends : ∀ c ∈ (closer.toList ++ rest).head?, isWordChar c = false := by
    intro c hc
    cases closer with
    | none => exact (hrest c hc).1
    | some d =>
        obtain rfl : d = c := Option.some.inj hc
        have hcloses := hcloser d rfl
        simp only [closesName, Bool.or_eq_true, beq_iff_eq] at hcloses
        rcases hcloses with (rfl | rfl) | rfl <;> decide
  rw [quotedWord?, hopen, takeWhile_solid_append hword hends,
    dropWhile_solid_append hword hends, hclose]
  simp [hne]

/-- Behind a word stand blanks and a sign that belongs to none. -/
theorem ends_blanks_sign (sign : Char) (hsign : sign ∈ ['.', '(', ')'])
    (hblanks : ∀ c ∈ blanks, isBlank c = true) (rest : Text) :
    ∀ c ∈ (blanks ++ sign :: rest).head?, isWordChar c = false ∧ closesName c = false := by
  have hsigns : ∀ c ∈ ['.', '(', ')'], isWordChar c = false ∧ closesName c = false := by
    decide
  intro c hc
  cases blanks with
  | nil =>
      obtain rfl : sign = c := Option.some.inj hc
      exact hsigns sign hsign
  | cons d tail =>
      obtain rfl : d = c := Option.some.inj hc
      have hblank := hblanks d List.mem_cons_self
      refine ⟨isWordChar_of_isBlank hblank, ?_⟩
      rw [Bool.eq_false_iff]
      intro hcloses
      simp only [closesName, Bool.or_eq_true, beq_iff_eq] at hcloses
      rcases hcloses with (rfl | rfl) | rfl <;> simp [isBlank] at hblank

/-- Blanks in front of a sign are trimmed. -/
theorem trimStart_blanks_sign (sign : Char) (hsign : sign ∈ ['.', '(', ')'])
    (hblanks : ∀ c ∈ blanks, isBlank c = true) (rest : Text) :
    trimStart (blanks ++ sign :: rest) = sign :: rest := by
  have hsigns : ∀ c ∈ ['.', '(', ')'], isBlank c = false := by decide
  exact dropWhile_solid_append hblanks fun c hc => by
    rw [← Option.some.inj hc]
    exact hsigns sign hsign

/-- A dotted name goes on as the sign behind its first word says. -/
theorem nameBeforeBracket?_of_quotedWord? {behind : Text}
    (h : quotedWord? text = some (word, rest)) {sign : Char}
    (hsign : trimStart rest = sign :: behind) :
    nameBeforeBracket? text =
      if sign = '(' then some (word, behind)
      else if sign = '.' then nameBeforeBracket? (trimStart behind)
      else none := by
  rw [nameBeforeBracket?.eq_def]
  split
  · next hnone =>
      rw [h] at hnone
      contradiction
  · next other left hsome =>
      obtain ⟨rfl, rfl⟩ := Prod.mk.inj (Option.some.inj (h.symm.trans hsome))
      split
      · next hnil =>
          rw [hsign] at hnil
          contradiction
      · next c more hcons =>
          obtain ⟨rfl, rfl⟩ := List.cons.inj (hsign.symm.trans hcons)
          rfl

theorem PathNames.isBlank_of_mem_head? (h : PathNames path name) (rest : Text) :
    ∀ c ∈ (path ++ rest).head?, isBlank c = false := by
  cases h with
  | last hquoted | dot hquoted =>
      rw [List.append_assoc]
      exact hquoted.isBlank_of_mem_head? _

/-- A dotted name is read up to its bracket. -/
theorem nameBeforeBracket?_eq_some_iff :
    nameBeforeBracket? text = some (name, rest) ↔
      ∃ path, text = path ++ '(' :: rest ∧ PathNames path name := by
  constructor
  · intro h
    fun_induction nameBeforeBracket? text with
    | case1 | case2 | case5 => contradiction
    | case3 text word behind hword more hmore =>
        obtain ⟨rfl, rfl⟩ := Prod.mk.inj (Option.some.inj h)
        obtain ⟨quoted, rfl, hquoted⟩ := quotedWord_of_quotedWord? hword
        obtain ⟨blanks, hsplit, hblanks⟩ := trimStart_split behind
        refine ⟨quoted ++ blanks, ?_, .last hquoted hblanks⟩
        rw [hsplit, hmore, List.append_assoc]
    | case4 text word behind hword more hmore _ ih =>
        obtain ⟨path, hpath, hnames⟩ := ih h
        obtain ⟨quoted, rfl, hquoted⟩ := quotedWord_of_quotedWord? hword
        obtain ⟨blanks, hsplit, hblanks⟩ := trimStart_split behind
        obtain ⟨gap, hgap, hgaps⟩ := trimStart_split more
        refine ⟨_, ?_, .dot hquoted hblanks hgaps hnames⟩
        rw [hsplit, hmore, hgap, hpath]
        simp only [List.append_assoc, List.cons_append]
  · rintro ⟨path, rfl, hnames⟩
    induction hnames with
    | last hquoted hblanks =>
        have hword := hquoted.read (ends_blanks_sign '(' (by decide) hblanks rest)
        rw [List.append_assoc, nameBeforeBracket?_of_quotedWord? hword
          (trimStart_blanks_sign '(' (by decide) hblanks rest), if_pos rfl]
    | @dot quoted schema blanks gap more last hquoted hblanks hgap hmore ih =>
        have hshape : quoted ++ (blanks ++ '.' :: (gap ++ more)) ++ '(' :: rest =
            quoted ++ (blanks ++ '.' :: (gap ++ (more ++ '(' :: rest))) := by
          simp only [List.append_assoc, List.cons_append]
        have hword := hquoted.read
          (ends_blanks_sign '.' (by decide) hblanks (gap ++ (more ++ '(' :: rest)))
        have htrim : trimStart (gap ++ (more ++ '(' :: rest)) = more ++ '(' :: rest :=
          dropWhile_solid_append hgap (hmore.isBlank_of_mem_head? _)
        rw [hshape, nameBeforeBracket?_of_quotedWord? hword
          (trimStart_blanks_sign '.' (by decide) hblanks _), if_neg (by decide), if_pos rfl,
          htrim, ih]

end reading

end Phrase

namespace Clause

open Phrase

/-- A list in brackets, up to the first that closes. -/
def IsListed (list : Text) : Prop :=
  list ≠ [] ∧ ')' ∉ list

/-- The words of a key up to the bracket that opens its list: a first one, `KEY`, and what
may stand behind them. -/
def OpensKey (first : Text) (isLabel : Text → Prop) (text : Text) : Prop :=
  ∃ front key blanks label, text = front ++ (key ++ (blanks ++ (label ++ ['(']))) ∧
    IsSpacedKeyword first front ∧ key.map foldCapital = "KEY".toList ∧
    (∀ c ∈ blanks, isBlank c = true) ∧ isLabel label

/-- The word on the storage of a primary key, if there is one. -/
def IsStorage (label : Text) : Prop :=
  label = [] ∨ IsSpacedKeyword "CLUSTERED".toList label ∨
    IsSpacedKeyword "NONCLUSTERED".toList label

/-- The name of a foreign key's index, if there is one. -/
def IsIndexName (label : Text) : Prop :=
  label = [] ∨ ∃ quoted word gap, label = quoted ++ gap ∧ QuotedWord quoted word ∧
    ∀ c ∈ gap, isBlank c = true

/-- The words of a primary key up to the bracket that opens its list. -/
def OpensPrimaryKey : Text → Prop :=
  OpensKey "PRIMARY".toList IsStorage

/-- A primary key is spelled at the front of a text. -/
inductive SpellsPrimaryKey : Text → List Text → Prop
  | mk {opening list rest : Text} {columns : List Text} (hopening : OpensPrimaryKey opening)
      (hlist : IsListed list) (hcolumns : ListNames list columns) :
      SpellsPrimaryKey (opening ++ (list ++ ')' :: rest)) columns

/-- The words of a foreign key up to the bracket that opens its list. -/
def OpensForeignKey : Text → Prop :=
  OpensKey "FOREIGN".toList IsIndexName

/-- A foreign key is spelled at the front of a text: its columns are paired in order with
those they refer to. -/
inductive SpellsForeignKey : Text → List Link → Prop
  | mk {opening list blanks references path targets rest table : Text}
      {columns names : List Text} (hopening : OpensForeignKey opening) (hlist : IsListed list)
      (hcolumns : ListNames list columns) (hblanks : ∀ c ∈ blanks, isBlank c = true)
      (hreferences : IsSpacedKeyword "REFERENCES".toList references)
      (hpath : PathNames path table) (htargets : IsListed targets)
      (hnames : ListNames targets names) :
      SpellsForeignKey
        (opening ++ (list ++ ')' :: (blanks ++ (references ++ (path ++
          '(' :: (targets ++ ')' :: rest))))))
        (List.zipWith (fun column target => ⟨column, table, target⟩) columns names)

/-- A reference is spelled at the front of a text: a table and one of its columns. -/
inductive SpellsReference : Text → Text × Text → Prop
  | mk {references path blanks quoted gap rest table column : Text}
      (hreferences : IsSpacedKeyword "REFERENCES".toList references)
      (hpath : PathNames path table) (hblanks : ∀ c ∈ blanks, isBlank c = true)
      (hquoted : QuotedWord quoted column) (hgap : ∀ c ∈ gap, isBlank c = true) :
      SpellsReference
        (references ++ (path ++ '(' :: (blanks ++ (quoted ++ (gap ++ ')' :: rest)))))
        (table, column)

/-- A clause refers to a column of a table: this is the first reference that is spelled at a
word of it outside its literals. -/
def HasReference (lexis : Lexis) (clause : Text) (reference : Text × Text) : Prop :=
  FirstSpelled (lexis.OutsideWord .code none) SpellsReference clause reference

/-- The first word of a clause, without quotes and what a bracket opens, is one of those
that a key of a table begins with. -/
def LeadsKey (part : Text) : Prop :=
  ∃ word, EntryNames part word ∧ (upper word = "CONSTRAINT".toList ∨
    upper word = "PRIMARY".toList ∨ upper word = "FOREIGN".toList)

/-- A part is a foreign key of its table, the first that is spelled in it. -/
def IsForeignKey (part : Text) (links : List Link) : Prop :=
  LeadsKey part ∧ FirstSpelled (fun _ => True) SpellsForeignKey part links

/-- A part is a primary key of its table, the first that is spelled in it, and no foreign key
is. -/
def IsPrimaryKey (part : Text) (columns : List Text) : Prop :=
  LeadsKey part ∧ (∀ links, ¬ FirstSpelled (fun _ => True) SpellsForeignKey part links) ∧
    FirstSpelled (fun _ => True) SpellsPrimaryKey part columns

/-- A part is a key of its table. -/
def IsTableKey (part : Text) : Prop :=
  (∃ links, IsForeignKey part links) ∨ ∃ columns, IsPrimaryKey part columns

/-- A part lists the columns of a primary key up to the bracket that closes the list, not
just the first that closes. -/
def ListsKey (lexis : Lexis) (part : Text) (columns : List Text) : Prop :=
  LeadsKey part ∧ ∃ front opening list rest, part = front ++ (opening ++ (list ++ ')' :: rest)) ∧
    OpensPrimaryKey opening ∧ lexis.Settles 0 .code list ∧ ListNames list columns

section spelling

variable {text rest part : Text} {columns : List Text} {links : List Link}

theorem isBlank_of_bracket (rest : Text) :
    ∀ c ∈ ('(' :: rest).head?, isBlank c = false := by
  intro c hc
  rw [← Option.some.inj hc]
  decide

/-- The bracket of a key is found behind the words that are spelled, where what may stand
behind them is left out. -/
theorem opensKey_iff {first : Text} {isLabel : Text → Prop} (leave : Text → Text)
    (hsplit : ∀ text, ∃ label, text = label ++ leave text ∧ isLabel label)
    (hleave : ∀ label rest, isLabel label → leave (label ++ '(' :: rest) = '(' :: rest)
    (hsolid : ∀ label rest, isLabel label →
      ∀ c ∈ (label ++ '(' :: rest).head?, isBlank c = false) :
    (((afterSpacedKeyword? first text).bind (afterKeyword? "KEY".toList)).bind
        fun text => afterChar? '(' (leave (trimStart text))) = some rest ↔
      ∃ opening, text = opening ++ rest ∧ OpensKey first isLabel opening := by
  have hkeyword : IsKeyword "KEY".toList := by decide
  constructor
  · intro h
    obtain ⟨behind, hwords, hbracket⟩ := Option.bind_eq_some_iff.mp h
    obtain ⟨spaced, hspaced, hword⟩ := Option.bind_eq_some_iff.mp hwords
    obtain ⟨front, rfl, hfront, _⟩ := afterSpacedKeyword?_eq_some_iff.mp hspaced
    obtain ⟨key, rfl, hkey⟩ := afterKeyword?_eq_some_iff.mp hword
    obtain ⟨blanks, hbehind, hblanks⟩ := trimStart_split behind
    obtain ⟨label, hleft, hlabel⟩ := hsplit (trimStart behind)
    rw [afterChar?_eq_some_iff.mp hbracket] at hleft
    refine ⟨_, ?_, front, key, blanks, label, rfl, hfront, hkey, hblanks, hlabel⟩
    rw [hbehind, hleft]
    simp only [List.append_assoc, List.cons_append, List.nil_append]
  · rintro ⟨_, rfl, front, key, blanks, label, rfl, hfront, hkey, hblanks, hlabel⟩
    have hshape : front ++ (key ++ (blanks ++ (label ++ ['(']))) ++ rest =
        front ++ (key ++ (blanks ++ (label ++ '(' :: rest))) := by
      simp only [List.append_assoc, List.singleton_append]
    have htrim : trimStart (blanks ++ (label ++ '(' :: rest)) = label ++ '(' :: rest :=
      dropWhile_solid_append hblanks (hsolid label rest hlabel)
    rw [hshape, hfront.read (hkeyword.isBlank_of_mem_head? hkey _), Option.bind_some,
      afterKeyword?_append hkey, Option.bind_some, htrim, hleave label rest hlabel,
      afterChar?_cons]

/-- The bracket of a primary key is found behind the words that are spelled. -/
theorem afterPrimaryKey?_eq_some_iff :
    afterPrimaryKey? text = some rest ↔
      ∃ opening, text = opening ++ rest ∧ OpensPrimaryKey opening := by
  refine opensKey_iff (fun text => (afterStorage? text).getD text) ?_ ?_ ?_
  · intro text
    cases hafter : afterStorage? text with
    | none => exact ⟨[], rfl, Or.inl rfl⟩
    | some left =>
        rcases Option.or_eq_some_iff.mp hafter with hafter | ⟨_, hafter⟩ <;>
          obtain ⟨storage, hleft, hspaced, _⟩ := afterSpacedKeyword?_eq_some_iff.mp hafter
        · exact ⟨storage, hleft, Or.inr (Or.inl hspaced)⟩
        · exact ⟨storage, hleft, Or.inr (Or.inr hspaced)⟩
  · intro storage rest hstorage
    rcases hstorage with rfl | hstorage | hstorage
    · rfl
    · rw [afterStorage?, hstorage.read (isBlank_of_bracket rest), Option.some_or,
        Option.getD_some]
    · have hother : afterSpacedKeyword? "CLUSTERED".toList (storage ++ '(' :: rest) = none := by
        obtain ⟨used, gap, rfl, hused, _⟩ := id hstorage
        obtain ⟨c, tail, rfl, hc, _⟩ := List.map_eq_cons_iff.mp hused
        apply afterSpacedKeyword?_of_ne
        rw [hc]
        decide
      rw [afterStorage?, hother, Option.none_or, hstorage.read (isBlank_of_bracket rest),
        Option.getD_some]
  · rintro storage rest (rfl | hstorage | hstorage)
    · exact isBlank_of_bracket rest
    · exact hstorage.isBlank_of_mem_head? (by decide) _
    · exact hstorage.isBlank_of_mem_head? (by decide) _

theorem upToBracket?_eq_some_iff {inside : Text} :
    upToBracket? text = some (inside, rest) ↔
      text = inside ++ ')' :: rest ∧ IsListed inside := by
  constructor
  · intro h
    obtain ⟨hsplit, hne, hnot⟩ := upToBracket?_split h
    exact ⟨hsplit, hne, hnot⟩
  · rintro ⟨rfl, hne, hnot⟩
    exact upToBracket?_append hne hnot rest

/-- A primary key is read where one is spelled. -/
theorem primaryKeyHere?_eq_some_iff :
    primaryKeyHere? text = some columns ↔ SpellsPrimaryKey text columns := by
  rw [primaryKeyHere?_eq]
  constructor
  · intro h
    obtain ⟨opened, hopened, hread⟩ := Option.bind_eq_some_iff.mp h
    obtain ⟨⟨list, behind⟩, hlist, hnames⟩ := Option.bind_eq_some_iff.mp hread
    obtain ⟨opening, rfl, hopening⟩ := afterPrimaryKey?_eq_some_iff.mp hopened
    obtain ⟨rfl, hlisted⟩ := upToBracket?_eq_some_iff.mp hlist
    exact .mk hopening hlisted (listNames_iff.mpr (Option.some.inj hnames))
  · rintro ⟨hopening, hlist, hcolumns⟩
    rw [afterPrimaryKey?_eq_some_iff.mpr ⟨_, rfl, hopening⟩, Option.bind_some,
      upToBracket?_eq_some_iff.mpr ⟨rfl, hlist⟩, Option.bind_some]
    exact congrArg some (listNames_iff.mp hcolumns)

/-- The bracket of a foreign key is found behind the words that are spelled. -/
theorem afterForeignKey?_eq_some_iff :
    afterForeignKey? text = some rest ↔
      ∃ opening, text = opening ++ rest ∧ OpensForeignKey opening := by
  refine opensKey_iff
    (fun text => ((quotedWord? text).map fun read => trimStart read.2).getD text) ?_ ?_ ?_
  · intro text
    cases hquoted : quotedWord? text with
    | none => exact ⟨[], rfl, Or.inl rfl⟩
    | some read =>
        obtain ⟨quoted, hleft, hname⟩ := quotedWord_of_quotedWord? hquoted
        obtain ⟨gap, hgap, hgaps⟩ := trimStart_split read.2
        refine ⟨quoted ++ gap, ?_, Or.inr ⟨quoted, read.1, gap, rfl, hname, hgaps⟩⟩
        rw [Option.map_some, Option.getD_some, List.append_assoc, ← hgap]
        exact hleft
  · rintro label rest (rfl | ⟨quoted, word, gap, rfl, hquoted, hgap⟩)
    · rfl
    · have hread := hquoted.read (ends_blanks_sign '(' (by decide) hgap rest)
      rw [List.append_assoc, hread, Option.map_some, Option.getD_some,
        trimStart_blanks_sign '(' (by decide) hgap]
  · rintro label rest (rfl | ⟨quoted, word, gap, rfl, hquoted, hgap⟩)
    · exact isBlank_of_bracket rest
    · rw [List.append_assoc]
      exact hquoted.isBlank_of_mem_head? _

/-- A foreign key is read where one is spelled. -/
theorem foreignKeyHere?_eq_some_iff :
    foreignKeyHere? text = some links ↔ SpellsForeignKey text links := by
  rw [foreignKeyHere?_eq]
  constructor
  · intro h
    obtain ⟨opened, hopened, hread⟩ := Option.bind_eq_some_iff.mp h
    obtain ⟨⟨list, listed⟩, hlist, hread⟩ := Option.bind_eq_some_iff.mp hread
    obtain ⟨referring, hreferring, hread⟩ := Option.bind_eq_some_iff.mp hread
    obtain ⟨⟨table, named⟩, hnamed, hread⟩ := Option.bind_eq_some_iff.mp hread
    obtain ⟨⟨targets, behind⟩, htargets, hlinks⟩ := Option.bind_eq_some_iff.mp hread
    obtain ⟨opening, rfl, hopening⟩ := afterForeignKey?_eq_some_iff.mp hopened
    obtain ⟨rfl, hlisted⟩ := upToBracket?_eq_some_iff.mp hlist
    obtain ⟨blanks, hsplit, hblanks⟩ := trimStart_split listed
    obtain ⟨references, hspaced, hreferences, _⟩ := afterSpacedKeyword?_eq_some_iff.mp hreferring
    obtain ⟨path, rfl, hpath⟩ := nameBeforeBracket?_eq_some_iff.mp hnamed
    obtain ⟨rfl, htargeted⟩ := upToBracket?_eq_some_iff.mp htargets
    obtain rfl := Option.some.inj hlinks
    rw [hsplit, hspaced]
    exact .mk hopening hlisted (listNames_iff.mpr rfl) hblanks hreferences hpath htargeted
      (listNames_iff.mpr rfl)
  · intro h
    cases h with
    | @mk opening list blanks references path targets rest table columns names hopening hlist
        hcolumns hblanks hreferences hpath htargets hnames =>
        have htrim : ∀ rest, trimStart (blanks ++ (references ++ rest)) = references ++ rest :=
          fun rest => dropWhile_solid_append hblanks
            (hreferences.isBlank_of_mem_head? (by decide) rest)
        have htable := nameBeforeBracket?_eq_some_iff.mpr
          ⟨path, (rfl : _ = path ++ '(' :: (targets ++ ')' :: rest)), hpath⟩
        rw [afterForeignKey?_eq_some_iff.mpr ⟨opening, rfl, hopening⟩, Option.bind_some,
          upToBracket?_eq_some_iff.mpr ⟨rfl, hlist⟩, Option.bind_some]
        dsimp only
        rw [htrim, hreferences.read (hpath.isBlank_of_mem_head? _), Option.bind_some, htable,
          Option.bind_some]
        dsimp only
        rw [upToBracket?_eq_some_iff.mpr ⟨rfl, htargets⟩, Option.bind_some]
        dsimp only
        rw [listNames_iff.mp hcolumns, listNames_iff.mp hnames]

/-- The first word of a clause is one of those that a key of a table begins with. -/
theorem contains_leadingWord_iff :
    keyWords.contains (leadingWord part) = true ↔ LeadsKey part := by
  have hwords : ∀ word, keyWords.contains word = true ↔ (word = "CONSTRAINT".toList ∨
      word = "PRIMARY".toList ∨ word = "FOREIGN".toList) := by
    intro word
    simp [keyWords]
  rw [hwords]
  constructor
  · exact fun h => ⟨_, entryNames part, h⟩
  · rintro ⟨word, hword, h⟩
    rwa [leadingWord, hword.unquoted_eq]

theorem foreignKey?_eq_some_iff : foreignKey? part = some links ↔
    FirstSpelled (fun _ => True) SpellsForeignKey part links :=
  search_eq_some_iff rfl fun _ _ => foreignKeyHere?_eq_some_iff

theorem primaryKey?_eq_some_iff : primaryKey? part = some columns ↔
    FirstSpelled (fun _ => True) SpellsPrimaryKey part columns :=
  search_eq_some_iff rfl fun _ _ => primaryKeyHere?_eq_some_iff

/-- What is read as a foreign key of a table is one. -/
theorem isForeignKey_iff :
    IsForeignKey part links ↔ tableKey? part = some (.foreignKey links) := by
  rw [IsForeignKey, ← contains_leadingWord_iff, ← foreignKey?_eq_some_iff,
    tableKey?_eq_some_iff]
  simp

/-- What is read as a primary key of a table is one. -/
theorem isPrimaryKey_iff :
    IsPrimaryKey part columns ↔ tableKey? part = some (.primaryKey columns) := by
  have hnone : foreignKey? part = none ↔
      ∀ links, ¬ FirstSpelled (fun _ => True) SpellsForeignKey part links := by
    simp only [Option.eq_none_iff_forall_ne_some, ne_eq, foreignKey?_eq_some_iff]
  rw [IsPrimaryKey, ← contains_leadingWord_iff, ← hnone, ← primaryKey?_eq_some_iff,
    tableKey?_eq_some_iff]
  simp

/-- A part is read as a key of a table where it is one. -/
theorem not_isTableKey_iff : ¬ IsTableKey part ↔ tableKey? part = none := by
  rw [IsTableKey, Option.eq_none_iff_forall_ne_some]
  constructor
  · intro h clause hclause
    rcases tableKey?_cases hclause with ⟨links, _, rfl⟩ | ⟨columns, _, rfl⟩
    · exact h (Or.inl ⟨links, isForeignKey_iff.mpr hclause⟩)
    · exact h (Or.inr ⟨columns, isPrimaryKey_iff.mpr hclause⟩)
  · rintro h (⟨links, hlinks⟩ | ⟨columns, hcolumns⟩)
    · exact h _ (isForeignKey_iff.mp hlinks)
    · exact h _ (isPrimaryKey_iff.mp hcolumns)

/-- A reference is read where one is spelled. -/
theorem referenceHere?_eq_some_iff {reference : Text × Text} :
    referenceHere? text = some reference ↔ SpellsReference text reference := by
  constructor
  · intro h
    obtain ⟨referring, hreferring, hread⟩ := Option.bind_eq_some_iff.mp h
    obtain ⟨⟨table, named⟩, hnamed, hread⟩ := Option.bind_eq_some_iff.mp hread
    obtain ⟨⟨column, left⟩, hquoted, hread⟩ := Option.bind_eq_some_iff.mp hread
    obtain ⟨rest, hrest, hreference⟩ := Option.bind_eq_some_iff.mp hread
    obtain rfl := Option.some.inj hreference
    obtain ⟨references, rfl, hreferences, _⟩ := afterSpacedKeyword?_eq_some_iff.mp hreferring
    obtain ⟨path, rfl, hpath⟩ := nameBeforeBracket?_eq_some_iff.mp hnamed
    obtain ⟨blanks, hsplit, hblanks⟩ := trimStart_split named
    obtain ⟨quoted, hword, hname⟩ := quotedWord_of_quotedWord? hquoted
    obtain ⟨gap, hleft, hgap⟩ := trimStart_split left
    rw [hsplit, hword, hleft, afterChar?_eq_some_iff.mp hrest]
    exact .mk hreferences hpath hblanks hname hgap
  · intro h
    cases h with
    | @mk references path blanks quoted gap rest table column hreferences hpath hblanks
        hquoted hgap =>
        have htable := nameBeforeBracket?_eq_some_iff.mpr
          ⟨path, (rfl : _ = path ++ '(' :: (blanks ++ (quoted ++ (gap ++ ')' :: rest)))), hpath⟩
        have htrim : trimStart (blanks ++ (quoted ++ (gap ++ ')' :: rest))) =
            quoted ++ (gap ++ ')' :: rest) :=
          dropWhile_solid_append hblanks (hquoted.isBlank_of_mem_head? _)
        have hcolumn := hquoted.read (ends_blanks_sign ')' (by decide) hgap rest)
        rw [referenceHere?, hreferences.read (hpath.isBlank_of_mem_head? _)]
        simp only [Option.bind_eq_bind, Option.bind_some, htable, htrim, hcolumn,
          trimStart_blanks_sign ')' (by decide) hgap, afterChar?_cons, Option.pure_def]

/-- The reference that is read of a column's clause is the first outside its literals. -/
theorem reference?_blankLiterals_iff (lexis : Lexis) (clause : Text) (reference : Text × Text) :
    reference? (lexis.blankLiterals clause) = some reference ↔
      HasReference lexis clause reference :=
  lexis.searchAtWord_blankLiterals (by decide) opensWith_referenceHere?
    stopsAtQuote_referenceHere? (fun _ _ => referenceHere?_eq_some_iff) clause reference

end spelling

end Clause

end DdlDiagram
