/-
The lines of a diagram.  A line is its words behind an indent, with one blank
between neighbours, so a line of words without blanks is known from its text: how
many words it has tells a bracket from a column and a column from a relationship.
-/
import DdlDiagram.Diagram.Mermaid
import DdlDiagram.Proofs.Wording

namespace DdlDiagram

open Text

/-- The mark of that name. -/
def KeyMark.ofName? (text : Text) : Option KeyMark :=
  [KeyMark.primary, KeyMark.foreign].find? fun mark => mark.name == text

theorem KeyMark.ofName?_name (mark : KeyMark) : ofName? mark.name = some mark := by
  cases mark <;> decide

/-- A column as a diagram shows it. -/
structure Row where
  name : Text
  type : ColumnType
  mark : Option KeyMark
deriving DecidableEq, Repr

/-- A relationship as a diagram shows it: the column it starts at is not shown. -/
structure Edge where
  fromTable : Text
  toTable : Text
  toColumn : Text
deriving DecidableEq, Repr

def Row.ofColumn (column : Column) : Row :=
  ⟨column.name, column.type, column.keyMark⟩

def Edge.ofRelationship (link : Relationship) : Edge :=
  ⟨link.fromTable, link.toTable, link.toColumn⟩

namespace Text

section joined

variable {parts : List Text}

theorem mem_joined {separator : Text} {c : Char} (h : c ∈ joined separator parts) :
    c ∈ separator ∨ ∃ part ∈ parts, c ∈ part := by
  cases parts with
  | nil => contradiction
  | cons part rest =>
      rw [joined_cons, List.mem_append, List.mem_flatMap] at h
      rcases h with h | ⟨later, hlater, h⟩
      · exact Or.inr ⟨part, List.mem_cons_self, h⟩
      · rcases List.mem_append.mp h with h | h
        · exact Or.inl h
        · exact Or.inr ⟨later, List.mem_cons_of_mem part hlater, h⟩

/-- Words with a space between neighbours are the words of the text they make. -/
theorem words_joined (hparts : ∀ part ∈ parts, IsWord part) :
    words (joined [' '] parts) = parts := by
  induction parts with
  | nil => rfl
  | cons part rest ih =>
      obtain ⟨hpart, hrest⟩ := List.forall_mem_cons.mp hparts
      cases rest with
      | nil => exact words_of_isWord hpart
      | cons next rest =>
          rw [joined, List.append_assoc, List.singleton_append,
            words_isWord_append hpart isBlank_space, ih hrest]

end joined

/-- A text that stays on its line: its only blanks are spaces. -/
def IsLine (text : Text) : Prop :=
  ∀ c ∈ text, isBlank c = true → c = ' '

instance (text : Text) : Decidable (IsLine text) :=
  inferInstanceAs (Decidable (∀ c ∈ text, _))

section lines

variable {text left right : Text}

theorem IsLine.newline_not_mem (h : IsLine text) : '\n' ∉ text :=
  fun hmem => absurd (h '\n' hmem (by decide)) (by decide)

theorem IsLine.return_not_mem (h : IsLine text) : '\r' ∉ text :=
  fun hmem => absurd (h '\r' hmem (by decide)) (by decide)

theorem IsLine.append (hleft : IsLine left) (hright : IsLine right) :
    IsLine (left ++ right) :=
  List.forall_mem_append.mpr ⟨hleft, hright⟩

theorem IsLine.take (h : IsLine text) (count : Nat) : IsLine (text.take count) :=
  fun c hc => h c (List.mem_of_mem_take hc)

theorem IsWord.isLine (h : IsWord text) : IsLine text := by
  intro c hc hblank
  rw [h.2 c hc] at hblank
  contradiction

/-- Words with spaces between them make a line. -/
theorem isLine_joined {parts : List Text} (h : ∀ part ∈ parts, IsWord part) :
    IsLine (joined [' '] parts) := by
  intro c hc hblank
  rcases mem_joined hc with hc | ⟨part, hpart, hc⟩
  · exact List.mem_singleton.mp hc
  · exact (h part hpart).isLine c hc hblank

end lines

/-- Texts that end with a mark each, and hold it nowhere else, come apart at it; the
last part is empty. -/
theorem splitAt_flatMap {α : Type} {mark : Char} {text : α → Text} {items : List α}
    (h : ∀ item ∈ items, mark ∉ text item) :
    splitAt mark (items.flatMap fun item => text item ++ [mark]) =
      items.map text ++ [[]] := by
  induction items with
  | nil => rfl
  | cons item rest ih =>
      obtain ⟨hitem, hrest⟩ := List.forall_mem_cons.mp h
      rw [List.flatMap_cons, List.append_assoc, List.singleton_append,
        splitAt_append hitem, ih hrest]
      rfl

end Text

namespace Mermaid

/-- The kinds of lines. -/
inductive Line where
  | title
  | opening (table : Text)
  | row (row : Row)
  | closing
  | edge (edge : Edge)
deriving DecidableEq, Repr

namespace Line

/-- How many blanks stand in front of a line. -/
def indent : Line → Nat
  | title => 0
  | row _ => 8
  | opening _ | closing | edge _ => 4

/-- The words of a line. -/
def tokens : Line → List Text
  | title => ["erDiagram".toList]
  | opening table => [table, ['\x7b']]
  | row a => a.name :: a.type.name :: (a.mark.map KeyMark.name).toList
  | closing => [['\x7d']]
  | edge e => [e.fromTable, cardinality, e.toTable, [':'], "\"FK".toList, "to".toList,
      e.toColumn ++ ['\"']]

/-- A line without the newline that ends it. -/
def text (line : Line) : Text :=
  List.replicate line.indent ' ' ++ joined [' '] line.tokens

/-- The line that words make. -/
def ofTokens? : List Text → Option Line
  | [word] =>
      if word = ['\x7d'] then some closing
      else if word = "erDiagram".toList then some title else none
  | [word, next] =>
      if next = ['\x7b'] then some (opening word)
      else (ColumnType.ofSqlName? next).map fun type => row ⟨word, type, none⟩
  | [word, next, last] => do
      let type ← ColumnType.ofSqlName? next
      let mark ← KeyMark.ofName? last
      return row ⟨word, type, some mark⟩
  | [fromTable, _, toTable, _, _, _, quoted] =>
      some (edge ⟨fromTable, toTable, quoted.dropLast⟩)
  | _ => none

/-- The line that a text is. -/
def read? (text : Text) : Option Line :=
  ofTokens? (words text)

/-- A line is known from its words. -/
theorem ofTokens?_tokens (line : Line) : ofTokens? line.tokens = some line := by
  cases line with
  | title => decide
  | opening table => rfl
  | closing => rfl
  | edge e => simp [tokens, ofTokens?]
  | row a =>
      obtain ⟨name, type, mark⟩ := a
      cases mark with
      | none =>
          have hname : type.name ≠ ['\x7b'] := by cases type <;> decide
          simp [tokens, ofTokens?, hname, ColumnType.ofSqlName?_name]
      | some mark =>
          simp [tokens, ofTokens?, ColumnType.ofSqlName?_name, KeyMark.ofName?_name]

/-- A line whose words have no blanks. -/
def Worded (line : Line) : Prop :=
  ∀ token ∈ line.tokens, IsWord token

instance (line : Line) : Decidable line.Worded :=
  inferInstanceAs (Decidable (∀ token ∈ line.tokens, IsWord token))

variable {line : Line}

theorem Worded.words_text (h : line.Worded) : words line.text = line.tokens := by
  rw [text, words_append_of_blanks, words_joined h]
  intro c hc
  rw [List.eq_of_mem_replicate hc]
  exact isBlank_space

/-- A line of words is known from its text. -/
theorem Worded.read?_text (h : line.Worded) : read? line.text = some line := by
  rw [read?, h.words_text, ofTokens?_tokens]

example : read? "    orders ||--o\x7b items : \"FK to id\"".toList =
    some (edge ⟨"orders".toList, "items".toList, "id".toList⟩) := by
  decide +kernel

/-- A line of words stays on its line. -/
theorem Worded.isLine (h : line.Worded) : IsLine line.text := by
  have hindent : IsLine (List.replicate line.indent ' ') :=
    fun c hc _ => List.eq_of_mem_replicate hc
  exact hindent.append (isLine_joined h)

theorem worded_title : title.Worded := by
  decide +kernel

theorem worded_closing : closing.Worded := by
  decide +kernel

theorem worded_opening {table : Text} (h : IsWord table) : (opening table).Worded :=
  List.forall_mem_cons.mpr ⟨h, by decide +kernel⟩

theorem worded_row {row : Row} (h : IsWord row.name) : (Line.row row).Worded := by
  have htype : ∀ type : ColumnType, IsWord type.name := by
    intro type
    cases type <;> decide +kernel
  have hmark : ∀ mark : KeyMark, IsWord mark.name := by
    intro mark
    cases mark <;> decide +kernel
  refine List.forall_mem_cons.mpr ⟨h, List.forall_mem_cons.mpr ⟨htype row.type, ?_⟩⟩
  intro token htoken
  obtain ⟨mark, _, rfl⟩ := Option.map_eq_some_iff.mp (Option.mem_toList.mp htoken)
  exact hmark mark

theorem worded_edge {edge : Edge} (hfrom : IsWord edge.fromTable)
    (hto : IsWord edge.toTable) (hcolumn : IsWord edge.toColumn) :
    (Line.edge edge).Worded := by
  have hquoted : IsWord (edge.toColumn ++ ['\"']) := by
    refine ⟨by simp, List.forall_mem_append.mpr ⟨hcolumn.2, by decide⟩⟩
  intro token htoken
  simp only [tokens, List.mem_cons, List.not_mem_nil, or_false] at htoken
  rcases htoken with rfl | rfl | rfl | rfl | rfl | rfl | rfl
  · exact hfrom
  · decide +kernel
  · exact hto
  · decide
  · decide
  · decide
  · exact hquoted

end Line

theorem columnLine_eq (column : Column) :
    columnLine column = (Line.row (.ofColumn column)).text ++ ['\n'] := by
  unfold columnLine
  cases hmark : column.keyMark <;>
    simp [Line.text, Line.tokens, Line.indent, Row.ofColumn, joined, List.replicate,
      hmark]

theorem relationshipLine_eq (link : Relationship) :
    relationshipLine link = (Line.edge (.ofRelationship link)).text ++ ['\n'] := by
  unfold relationshipLine
  simp [Line.text, Line.tokens, Line.indent, joined, List.replicate,
    Edge.ofRelationship]

/-- A diagram of lines of words is read back line by line. -/
theorem read?_lines {lines : List Line} (h : ∀ line ∈ lines, line.Worded) :
    (splitAt '\n' (lines.flatMap fun line => line.text ++ ['\n'])).filterMap Line.read? =
      lines := by
  rw [splitAt_flatMap fun line hline => (h line hline).isLine.newline_not_mem,
    List.filterMap_append, List.filterMap_map]
  have hread : ∀ line ∈ lines, (Line.read? ∘ Line.text) line = some line := by
    intro line hline
    exact (h line hline).read?_text
  rw [List.filterMap_congr hread, List.filterMap_some]
  exact List.append_nil lines

end Mermaid

end DdlDiagram
