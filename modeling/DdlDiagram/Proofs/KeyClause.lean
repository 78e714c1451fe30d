/-
Primary keys of a table.  A clause for a primary key, with or without a name and a word
on its storage, makes the columns that are read of its list part of the key and changes
nothing else, wherever it stands in the body.  The bracket that ends the list is taken to
be the first one that closes, so the columns behind the first length are lost.
-/
import DdlDiagram.Proofs.ClausePlace
import DdlDiagram.Proofs.ColumnList
import DdlDiagram.Proofs.WordSearch
import Mathlib.Data.List.Infix

namespace DdlDiagram

open Text Phrase

/-- What a key says of how the rows of its table are kept. -/
inductive Storage where
  | unsaid
  | clustered
  | nonclustered
deriving DecidableEq, Repr

/-- The word for it, with a blank behind. -/
def Storage.text : Storage → Text
  | unsaid => []
  | clustered => "CLUSTERED ".toList
  | nonclustered => "NONCLUSTERED ".toList

/-- A primary key over columns, with its own name or without one. -/
structure KeyDraft where
  label : Option (Quoting × Identifier)
  storage : Storage
  entries : List KeyEntry
  inhabited : entries ≠ []

namespace KeyDraft

/-- The words behind the key's name, if it has one. -/
def phrase (draft : KeyDraft) : Text :=
  "PRIMARY KEY ".toList ++ (draft.storage.text ++
    '(' :: (KeyEntry.listed draft.entries ++ [')']))

def text (draft : KeyDraft) : Text :=
  draft.label.elim draft.phrase fun label =>
    "CONSTRAINT ".toList ++ (label.1.around label.2 ++ ' ' :: draft.phrase)

/-- The columns that are read of the list. -/
def marked (draft : KeyDraft) : List Text :=
  (KeyEntry.upToLength draft.entries).map fun entry => entry.name.text

example : text
    { label := some (.brackets, ⟨"pk".toList, by decide⟩)
      storage := .clustered
      entries := [⟨⟨"a".toList, by decide⟩, .brackets, none, some .ascending⟩,
        ⟨⟨"b".toList, by decide⟩, .plain, some 10, none⟩]
      inhabited := by decide } =
    "CONSTRAINT [pk] PRIMARY KEY CLUSTERED ([a] ASC, b(10))".toList := by
  decide

end KeyDraft

namespace Clause

/-- No bracket that closes stands in front of the word `REFERENCES`. -/
def Unreferred (text : Text) : Prop :=
  ∀ behind, ')' :: behind <:+ text →
    afterSpacedKeyword? "REFERENCES".toList (trimStart behind) = none

theorem unreferred_append {left right : Text} (hleft : ')' ∉ left)
    (h : Unreferred right) : Unreferred (left ++ right) := by
  induction left with
  | nil => exact h
  | cons c rest ih =>
      obtain ⟨hc, hrest⟩ := not_or.mp fun hor => hleft (List.mem_cons.mpr hor)
      intro behind hbehind
      rcases List.suffix_cons_iff.mp hbehind with heq | hbehind
      · exact absurd (List.cons.inj heq).1 hc
      · exact ih hrest behind hbehind

theorem unreferred_closing {behind : Text}
    (hnext : afterSpacedKeyword? "REFERENCES".toList (trimStart behind) = none)
    (h : Unreferred behind) : Unreferred (')' :: behind) := by
  intro rest hrest
  rcases List.suffix_cons_iff.mp hrest with heq | hrest
  · rw [(List.cons.inj heq).2]
    exact hnext
  · exact h rest hrest

/-- Where no such bracket is, no foreign key is found. -/
theorem foreignKey?_of_unreferred {text : Text} (h : Unreferred text) :
    foreignKey? text = none := by
  rw [Option.eq_none_iff_forall_ne_some]
  intro links hlinks
  obtain ⟨place, hplace, hread⟩ := exists_of_search hlinks
  simp only [foreignKeyHere?_eq, Option.bind_eq_some_iff] at hread
  obtain ⟨opened, hopened, ⟨columns, listed⟩, hlisted, referring, hreferring, _⟩ := hread
  have hsuffix : ')' :: listed <:+ text := by
    refine List.IsSuffix.trans ?_ ((suffix_afterForeignKey? hopened).trans hplace)
    rw [(upToBracket?_split hlisted).1]
    exact List.suffix_append columns _
  rw [h listed hsuffix] at hreferring
  contradiction

end Clause

namespace KeyDraft

variable (draft : KeyDraft)

theorem phrase_eq : draft.phrase = "PRIMARY".toList ++ ' ' :: ("KEY".toList ++ ' ' ::
    (draft.storage.text ++ '(' :: (KeyEntry.listed draft.entries ++ [')']))) := rfl

theorem text_of_label {label : Quoting × Identifier} (h : draft.label = some label) :
    draft.text = "CONSTRAINT".toList ++ ' ' :: (label.1.around label.2 ++ ' ' :: draft.phrase) := by
  rw [text, h]
  rfl

theorem text_of_unlabelled (h : draft.label = none) : draft.text = draft.phrase := by
  rw [text, h, Option.elim_none]

/-- Behind an entry stands its order, a comma or a bracket, and not `REFERENCES`. -/
theorem not_referred (entry : KeyEntry) {c : Char} (hc : c = ',' ∨ c = ')') (rest : Text) :
    afterSpacedKeyword? "REFERENCES".toList (trimStart (entry.behind ++ c :: rest)) = none := by
  rw [KeyEntry.behind]
  cases entry.order with
  | none => rcases hc with rfl | rfl <;> rfl
  | some order => cases order <;> rfl

theorem unreferred_text (entry : KeyEntry) {c : Char} (hc : c = ',' ∨ c = ')') {rest : Text}
    (h : Clause.Unreferred (c :: rest)) : Clause.Unreferred (entry.text ++ c :: rest) := by
  have hclosing : ')' ∈ marks := by decide
  have haround : ')' ∉ entry.quoting.around entry.name := fun hmem =>
    entry.quoting.unmarked_around entry.name _ hmem hclosing
  have hbehind : ')' ∉ entry.behind := fun hmem => entry.unmarked_behind _ hmem hclosing
  rcases entry.text_cases with ⟨_, htext⟩ | ⟨count, _, htext⟩
  · rw [htext, List.append_assoc]
    exact Clause.unreferred_append haround (Clause.unreferred_append hbehind h)
  · have hlength : ')' ∉ '(' :: decimal count := by
      rw [List.mem_cons, not_or]
      exact ⟨by decide, fun hmem => absurd (isDigit_of_mem_decimal hmem) (by decide)⟩
    rw [htext, List.append_assoc, List.append_assoc]
    apply Clause.unreferred_append haround
    apply Clause.unreferred_append hlength
    exact Clause.unreferred_closing (not_referred entry hc rest)
      (Clause.unreferred_append hbehind h)

theorem unreferred_listed {entries : List KeyEntry} (hne : entries ≠ []) :
    Clause.Unreferred (KeyEntry.listed entries ++ [')']) := by
  induction entries with
  | nil => exact absurd rfl hne
  | cons entry rest ih =>
      cases rest with
      | nil =>
          apply unreferred_text entry (Or.inr rfl)
          exact Clause.unreferred_closing rfl fun behind hbehind => by simp at hbehind
      | cons next rest =>
          have hshape : KeyEntry.listed (entry :: next :: rest) ++ [')'] =
              entry.text ++ ',' :: ([' '] ++ (KeyEntry.listed (next :: rest) ++ [')'])) := by
            simp [KeyEntry.listed, joined]
          have hseparator : ')' ∉ [',', ' '] := by decide
          rw [hshape]
          exact unreferred_text entry (Or.inl rfl)
            (Clause.unreferred_append hseparator (ih (by simp)))

/-- In front of the list stand words without marks. -/
theorem exists_front : ∃ front, Unmarked front ∧
    draft.text = front ++ '(' :: (KeyEntry.listed draft.entries ++ [')']) := by
  have hwords : Unmarked ("PRIMARY".toList ++ ' ' :: ("KEY".toList ++ [' '])) := by decide
  have hconstraint : Unmarked ("CONSTRAINT".toList ++ [' ']) := by decide
  have hstorage : Unmarked draft.storage.text := by
    cases draft.storage <;> decide
  have hphrase : draft.phrase = (("PRIMARY".toList ++ ' ' :: ("KEY".toList ++ [' '])) ++
      draft.storage.text) ++ '(' :: (KeyEntry.listed draft.entries ++ [')']) := by
    rw [phrase_eq]
    simp only [List.append_assoc, List.cons_append, List.nil_append]
  cases hlabel : draft.label with
  | none =>
      rw [draft.text_of_unlabelled hlabel]
      exact ⟨_, hwords.append hstorage, hphrase⟩
  | some label =>
      refine ⟨_, hconstraint.append ((label.1.unmarked_around label.2).append
        (unmarked_space.append (hwords.append hstorage))), ?_⟩
      rw [draft.text_of_label hlabel, hphrase]
      simp only [List.append_assoc, List.cons_append, List.nil_append]

theorem foreignKey?_text : Clause.foreignKey? draft.text = none := by
  obtain ⟨front, hfront, hsplit⟩ := draft.exists_front
  have hnone : ')' ∉ front ++ ['('] := by
    intro hmem
    rcases List.mem_append.mp hmem with hmem | hmem
    · exact hfront _ hmem (by decide)
    · exact absurd hmem (by decide)
  apply Clause.foreignKey?_of_unreferred
  rw [hsplit, List.append_cons]
  exact Clause.unreferred_append hnone (unreferred_listed draft.inhabited)

/-- Of the list the columns up to the first length are read. -/
theorem upToBracket?_listed : ∃ inside rest,
    upToBracket? (KeyEntry.listed draft.entries ++ [')']) = some (inside, rest) ∧
      Clause.columnNames inside = draft.marked := by
  have hblank : ∀ c ∈ ([] : Text), isBlank c = true := by simp
  have hmem : ')' ∈ KeyEntry.listed draft.entries ++ [')'] := by simp
  have hnames := KeyEntry.columnNames_before draft.inhabited hblank []
  obtain ⟨inside, rest, hsplit, hinside⟩ := List.eq_append_cons_of_mem hmem
  have hbefore : before ')' (')' :: rest) = [] := rfl
  rw [List.nil_append, hsplit, before_append hinside, hbefore, List.append_nil] at hnames
  refine ⟨inside, rest, ?_, hnames⟩
  rw [hsplit]
  apply upToBracket?_append _ hinside
  rintro rfl
  cases hentries : draft.entries with
  | nil => exact draft.inhabited hentries
  | cons entry others =>
      rw [hentries, KeyEntry.upToLength] at hnames
      split at hnames <;> contradiction

theorem primaryKeyHere?_phrase :
    Clause.primaryKeyHere? draft.phrase = some draft.marked := by
  have hprimary : IsKeyword "PRIMARY".toList := by decide
  have hstorage : ∀ behind, (Clause.afterStorage? (draft.storage.text ++ '(' :: behind)).getD
      (draft.storage.text ++ '(' :: behind) = '(' :: behind := by
    intro behind
    cases draft.storage <;> rfl
  have htrim : ∀ behind, trimStart (' ' :: (draft.storage.text ++ '(' :: behind)) =
      draft.storage.text ++ '(' :: behind := by
    intro behind
    cases draft.storage <;> rfl
  obtain ⟨inside, rest, hlisted, hnames⟩ := draft.upToBracket?_listed
  simp only [Clause.primaryKeyHere?, phrase_eq, afterSpacedKeyword?_append hprimary,
    Clause.afterKeyWord?, htrim, hstorage, Clause.afterChar?_cons, hlisted, hnames,
    Option.bind_eq_bind, Option.bind_some, Option.pure_def]

theorem primaryKey?_text : Clause.primaryKey? draft.text = some draft.marked := by
  have hphrase : search Clause.primaryKeyHere? draft.phrase = some draft.marked :=
    search_of_recognise (by simp [phrase_eq]) draft.primaryKeyHere?_phrase
  cases hlabel : draft.label with
  | none => rw [Clause.primaryKey?, draft.text_of_unlabelled hlabel, hphrase]
  | some label =>
      rw [Clause.primaryKey?, draft.text_of_label hlabel,
        search_other (by decide) readsAfter_primaryKeyHere? (by decide) (by decide),
        search_solid (by decide) readsAfter_primaryKeyHere? (label.1.isWord_around label.2).2,
        hphrase]
      -- Behind the key's name stands `PRIMARY`, not `KEY`.
      intro place _ _
      rfl

theorem leadingWord_text :
    Clause.leadingWord draft.text ∈ ["CONSTRAINT".toList, "PRIMARY".toList] := by
  cases hlabel : draft.label with
  | none =>
      rw [draft.text_of_unlabelled hlabel, phrase_eq,
        Clause.leadingWord_append (by decide) (by decide)]
      decide
  | some label =>
      rw [draft.text_of_label hlabel, Clause.leadingWord_append (by decide) (by decide)]
      decide

theorem isClause_text : TableBody.IsClause draft.text where
  reads := by
    intro lexis
    obtain ⟨front, hfront, hsplit⟩ := draft.exists_front
    rw [hsplit]
    exact (lexis.quiet_unmarked hfront).reads.append ((lexis.reads_opening false 0).append
      ((KeyEntry.reads_listed lexis draft.entries).append (lexis.reads_closing false 0)))
  first := by
    intro c hc
    cases hlabel : draft.label with
    | none =>
        rw [draft.text_of_unlabelled hlabel] at hc
        rw [← Option.some.inj hc]
        decide
    | some label =>
        rw [draft.text_of_label hlabel] at hc
        rw [← Option.some.inj hc]
        decide
  last := by
    obtain ⟨front, _, hsplit⟩ := draft.exists_front
    intro c hc
    rw [hsplit, ← List.cons_append, ← List.append_assoc, List.getLast?_concat] at hc
    rw [← Option.some.inj hc]
    decide
  ne_nil := by
    obtain ⟨front, _, hsplit⟩ := draft.exists_front
    simp [hsplit]

theorem read_text (lexis : Lexis) :
    Clause.read lexis draft.text = .primaryKey draft.marked := by
  have hall : ∀ word ∈ ["CONSTRAINT".toList, "PRIMARY".toList],
      Clause.keyWords.contains word = true := by
    decide
  exact Clause.read_of_tableKey? (Clause.tableKey?_of_primaryKey?
    (hall _ draft.leadingWord_text) draft.foreignKey?_text draft.primaryKey?_text)

/-- Where no length stands in front of the last entry, all columns are read. -/
theorem marked_eq (h : ∀ entry ∈ draft.entries.dropLast, entry.length = none) :
    draft.marked = draft.entries.map fun entry => entry.name.text := by
  rw [marked, KeyEntry.upToLength_eq_self h]

end KeyDraft

/-- Adding a primary key to a body marks the columns of its list up to the first one with a
length, and changes nothing else; these are all columns, unless a length stands in front
of the last one. -/
theorem TableBody.read_keyDraft (dialect : Dialect) (name : Text) (draft : KeyDraft)
    {body added : Text} (hadds : AddsClause dialect draft.text body added) :
    read dialect name added =
        { read dialect name body with
          table := (read dialect name body).table.withKeys draft.marked } ∧
      ((∀ column ∈ (read dialect name body).table.columns, column.isPrimaryKey = false) →
        ∀ column ∈ (read dialect name added).table.columns,
          (column.isPrimaryKey = true ↔ ∃ key ∈ draft.marked, sameName column.name key = true)) ∧
      ((∀ entry ∈ draft.entries.dropLast, entry.length = none) →
        draft.marked = draft.entries.map fun entry => entry.name.text) := by
  have hread := hadds.read_primaryKey draft.isClause_text (draft.read_text _) name
  refine ⟨hread, ?_, draft.marked_eq⟩
  intro hnone column hcolumn
  rw [hread] at hcolumn
  obtain ⟨before, hbefore, rfl⟩ := List.mem_map.mp hcolumn
  rw [hnone before hbefore, Bool.false_or, List.any_eq_true]

/-- Both columns are marked where the length is that of the last one. -/
theorem TableBody.read_keyDraft_behind :
    (read .mysql "t".toList
      "a VARCHAR(20), b INT, CONSTRAINT pk PRIMARY KEY (b DESC, `a`(10))".toList).table.columns.map
        Column.isPrimaryKey = [true, true] := by
  have hpiece : Padded "CONSTRAINT pk PRIMARY KEY (b DESC, `a`(10))".toList
      " CONSTRAINT pk PRIMARY KEY (b DESC, `a`(10))".toList :=
    ⟨[' '], [], by decide, by decide, by decide⟩
  have hfront : Dialect.mysql.EndsClause "a VARCHAR(20), b INT".toList := by decide
  have hread := (read_keyDraft .mysql "t".toList
    { label := some (.plain, ⟨"pk".toList, by decide⟩)
      storage := .unsaid
      entries := [⟨⟨"b".toList, by decide⟩, .plain, none, some .descending⟩,
        ⟨⟨"a".toList, by decide⟩, .backquotes, some 10, none⟩]
      inhabited := by decide } (.behind hpiece hfront)).1
  refine (congrArg (fun body => body.table.columns.map Column.isPrimaryKey) hread).trans ?_
  decide +kernel

/-- A length in front of the last column hides those behind it. -/
theorem TableBody.read_keyDraft_ne :
    ¬ ∀ (draft : KeyDraft) (body added : Text), AddsClause .mysql draft.text body added →
      ∀ entry ∈ draft.entries, ∀ column ∈ (read .mysql "t".toList added).table.columns,
        column.name = entry.name.text → column.isPrimaryKey = true := by
  intro h
  have hpiece : Padded "PRIMARY KEY (a(10), b)".toList " PRIMARY KEY (a(10), b)".toList :=
    ⟨[' '], [], by decide, by decide, by decide⟩
  have hfront : Dialect.mysql.EndsClause "a VARCHAR(20), b INT".toList := by decide
  have hcolumn : (⟨"b".toList, .int, false, false⟩ : Column) ∈ (read .mysql "t".toList
      "a VARCHAR(20), b INT, PRIMARY KEY (a(10), b)".toList).table.columns := by
    decide +kernel
  have hkey := h
    { label := none
      storage := .unsaid
      entries := [⟨⟨"a".toList, by decide⟩, .plain, some 10, none⟩,
        ⟨⟨"b".toList, by decide⟩, .plain, none, none⟩]
      inhabited := by decide } _ _ (.behind hpiece hfront) _
    (List.mem_cons_of_mem _ List.mem_cons_self) _ hcolumn rfl
  contradiction

end DdlDiagram
