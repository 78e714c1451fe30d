/-
The shape of diagrams.  Whatever a text is, its diagram is a title, a block for each
table that has columns, none of them empty, and a line for each relationship.  Every
name in it is a word without double quotes, up to the columns that relationships go to:
an entry of a key's list may hold a double quote inside, and then so does its line.
-/
import DdlDiagram.Proofs.Drawing
import DdlDiagram.Proofs.LinkTarget

namespace DdlDiagram.Mermaid

open Text

/-- A name that fits between the words and the quotes of a line. -/
def IsName (name : Text) : Prop :=
  IsWord name ∧ '"' ∉ name

/-- The line of a column: its name, its type and at most a mark. -/
inductive IsRow : Text → Prop
  | unmarked {name : Text} (hname : IsName name) (type : ColumnType) :
      IsRow ("        ".toList ++ name ++ ' ' :: type.name)
  | marked {name : Text} (hname : IsName name) (type : ColumnType) (mark : KeyMark) :
      IsRow ("        ".toList ++ name ++ ' ' :: type.name ++ ' ' :: mark.name)

/-- The line of a relationship to a column of some class. -/
inductive IsEdge (IsColumn : Text → Prop) : Text → Prop
  | intro {fromTable toTable toColumn : Text} (hfrom : IsName fromTable)
      (hto : IsName toTable) (hcolumn : IsColumn toColumn) :
      IsEdge IsColumn ("    ".toList ++ fromTable ++ " ||--o\x7b ".toList ++ toTable ++
        " : \"FK to ".toList ++ toColumn ++ ['"'])

/-- The lines of that many blocks: each opens with the name of a table, closes, and has
at least one column between. -/
inductive AreBlocks : Nat → List Text → Prop
  | nil : AreBlocks 0 []
  | cons {count : Nat} {table : Text} {rows rest : List Text} (htable : IsName table)
      (hne : rows ≠ []) (hrows : ∀ line ∈ rows, IsRow line) (hrest : AreBlocks count rest) :
      AreBlocks (count + 1) (("    ".toList ++ table ++ " \x7b".toList) ::
        rows ++ "    \x7d".toList :: rest)

/-- A diagram of that many blocks: the title, the blocks and the relationships, each
line ended by a newline. -/
def IsDiagram (IsColumn : Text → Prop) (count : Nat) (text : Text) : Prop :=
  ∃ blocks edges, AreBlocks count blocks ∧ (∀ line ∈ edges, IsEdge IsColumn line) ∧
    splitAt '\n' text = "erDiagram".toList :: (blocks ++ edges) ++ [[]]

section names

variable {name : Text}

theorem isName_of_isWordName (h : IsWordName name) : IsName name :=
  ⟨h.isWord, fun hmem => absurd (h.2 '"' hmem) (by decide)⟩

theorem isName_of_isPlainName (h : IsPlainName name) : IsName name := by
  refine ⟨h.isWord, fun hmem => ?_⟩
  rcases h.2 '"' hmem with hc | hc | hc <;> exact absurd hc (by decide)

end names

namespace Line

theorem text_opening (table : Text) :
    (opening table).text = "    ".toList ++ table ++ " \x7b".toList := by
  simp [text, tokens, indent, joined, List.replicate]

theorem text_row (a : Row) :
    (row a).text = match a.mark with
      | none => "        ".toList ++ a.name ++ ' ' :: a.type.name
      | some mark =>
          "        ".toList ++ a.name ++ ' ' :: a.type.name ++ ' ' :: mark.name := by
  cases hmark : a.mark <;>
    simp [text, tokens, indent, joined, List.replicate, hmark]

theorem text_edge (e : Edge) :
    (edge e).text = "    ".toList ++ e.fromTable ++ " ||--o\x7b ".toList ++
      e.toTable ++ " : \"FK to ".toList ++ e.toColumn ++ ['"'] := by
  simp only [text, tokens, joined, List.append_assoc]
  rfl

/-- Lines of words are the same where their texts are. -/
theorem Worded.text_inj {line other : Line} (h : line.Worded) (hother : other.Worded)
    (htext : line.text = other.text) : line = other := by
  have hread := h.read?_text
  rw [htext, hother.read?_text] at hread
  exact (Option.some.inj hread).symm

/-- A line that is no relationship, or goes to a column of a class. -/
def GoesTo (IsColumn : Text → Prop) (line : Line) : Prop :=
  ∀ e, line = edge e → IsColumn e.toColumn

end Line

section shapes

variable {IsColumn : Text → Prop}

theorem isRow_text {row : Row} (h : IsName row.name) : IsRow (Line.row row).text := by
  obtain ⟨name, type, mark⟩ := row
  rw [Line.text_row]
  cases mark with
  | none => exact .unmarked h type
  | some mark => exact .marked h type mark

theorem exists_row_of_isRow {text : Text} (h : IsRow text) :
    ∃ row, text = (Line.row row).text ∧ IsName row.name := by
  cases h with
  | @unmarked name hname type =>
      exact ⟨⟨name, type, none⟩, (Line.text_row ⟨name, type, none⟩).symm, hname⟩
  | @marked name hname type mark =>
      exact ⟨⟨name, type, some mark⟩, (Line.text_row ⟨name, type, some mark⟩).symm, hname⟩

theorem isEdge_text {edge : Edge} (hfrom : IsName edge.fromTable)
    (hto : IsName edge.toTable) (hcolumn : IsColumn edge.toColumn) :
    IsEdge IsColumn (Line.edge edge).text := by
  rw [Line.text_edge]
  exact .intro hfrom hto hcolumn

/-- The lines of drawn tables are blocks, if their names fit and each has a row. -/
theorem areBlocks_lines {blocks : List Block}
    (h : ∀ block ∈ blocks, IsName block.table ∧ block.rows ≠ [] ∧
      ∀ row ∈ block.rows, IsName row.name) :
    AreBlocks blocks.length ((blocks.flatMap Block.lines).map Line.text) := by
  induction blocks with
  | nil => exact .nil
  | cons block rest ih =>
      obtain ⟨⟨htable, hne, hrows⟩, hrest⟩ := List.forall_mem_cons.mp h
      have hlines : ((block :: rest).flatMap Block.lines).map Line.text =
          ("    ".toList ++ block.table ++ " \x7b".toList) ::
            block.rows.map (fun row => (Line.row row).text) ++
              "    \x7d".toList :: (rest.flatMap Block.lines).map Line.text := by
        rw [List.flatMap_cons, Block.lines, List.map_append, List.map_append, List.map_cons,
          List.map_map, Line.text_opening, List.append_assoc]
        rfl
      rw [hlines]
      refine .cons htable (by simpa using hne) ?_ (ih hrest)
      intro line hline
      obtain ⟨row, hrow, rfl⟩ := List.mem_map.mp hline
      exact isRow_text (hrows row hrow)

/-- The lines of blocks are no relationships. -/
theorem AreBlocks.exists_line {count : Nat} {lines : List Text} (h : AreBlocks count lines) :
    ∀ text ∈ lines, ∃ line : Line, text = line.text ∧ line.Worded ∧ line.GoesTo IsColumn := by
  induction h with
  | nil => exact fun text htext => by contradiction
  | @cons count table rows rest htable hne hrows hrest ih =>
      intro text htext
      rcases List.mem_append.mp htext with htext | htext
      · rcases List.mem_cons.mp htext with rfl | htext
        · exact ⟨.opening table, (Line.text_opening table).symm,
            Line.worded_opening htable.1, fun e he => by contradiction⟩
        · obtain ⟨row, rfl, hname⟩ := exists_row_of_isRow (hrows text htext)
          exact ⟨.row row, rfl, Line.worded_row hname.1, fun e he => by contradiction⟩
      · rcases List.mem_cons.mp htext with rfl | htext
        · exact ⟨.closing, rfl, Line.worded_closing, fun e he => by contradiction⟩
        · exact ih text htext

/-- Every line of a diagram is a line of words. -/
theorem IsDiagram.exists_line {count : Nat} {text : Text}
    (h : IsDiagram IsColumn count text) (hword : ∀ name, IsColumn name → IsWord name) :
    ∀ part ∈ splitAt '\n' text, part = [] ∨
      ∃ line : Line, part = line.text ∧ line.Worded ∧ line.GoesTo IsColumn := by
  obtain ⟨blocks, edges, hblocks, hedges, htext⟩ := h
  intro part hpart
  rw [htext] at hpart
  rcases List.mem_append.mp hpart with hpart | hpart
  · right
    rcases List.mem_cons.mp hpart with rfl | hpart
    · exact ⟨.title, rfl, Line.worded_title, fun e he => by contradiction⟩
    · rcases List.mem_append.mp hpart with hpart | hpart
      · exact hblocks.exists_line part hpart
      · cases hedges part hpart with
        | @intro fromTable toTable toColumn hfrom hto hcolumn =>
            let e : Edge := ⟨fromTable, toTable, toColumn⟩
            refine ⟨.edge e, (Line.text_edge e).symm,
              Line.worded_edge hfrom.1 hto.1 (hword toColumn hcolumn), ?_⟩
            rintro _ ⟨⟩
            exact hcolumn
  · exact Or.inl (List.mem_singleton.mp hpart)

section schemas

variable {schema : Schema} (hschema : schema.Named)

include hschema

theorem splitAt_ofSchema :
    splitAt '\n' (ofSchema schema) =
      (Drawing.ofSchema schema).lines.map Line.text ++ [[]] := by
  rw [ofSchema_eq, Drawing.text, splitAt_flatMap]
  exact fun line hline => (hschema.worded line hline).isLine.newline_not_mem

/-- The relationships of a diagram are those of the schema. -/
theorem IsDiagram.toColumn {count : Nat} (h : IsDiagram IsColumn count (ofSchema schema))
    (hword : ∀ name, IsColumn name → IsWord name) :
    ∀ link ∈ schema.relationships, IsColumn link.toColumn := by
  intro link hlink
  have hdrawn : Line.edge (.ofRelationship link) ∈ (Drawing.ofSchema schema).lines :=
    List.mem_append_right _ (List.mem_map_of_mem (List.mem_map_of_mem hlink))
  have hworded := hschema.worded _ hdrawn
  have hpart : (Line.edge (.ofRelationship link)).text ∈ splitAt '\n' (ofSchema schema) := by
    rw [splitAt_ofSchema hschema]
    exact List.mem_append_left _ (List.mem_map_of_mem hdrawn)
  -- The line of the relationship is one of the diagram's lines, and a line of words is
  -- known from its text.
  rcases h.exists_line hword _ hpart with hempty | ⟨line, htext, hline, hgoes⟩
  · have hread := hworded.read?_text
    rw [hempty] at hread
    contradiction
  · exact hgoes _ (hline.text_inj hworded htext.symm)

/-- The diagram of a schema of words has the shape of diagrams. -/
theorem isDiagram_ofSchema (h : ∀ link ∈ schema.relationships, IsColumn link.toColumn) :
    IsDiagram IsColumn schema.drawable.length (ofSchema schema) := by
  refine ⟨((schema.drawable.map Block.ofTable).flatMap Block.lines).map Line.text,
    (schema.relationships.map Edge.ofRelationship).map fun edge => (Line.edge edge).text,
    ?_, ?_, ?_⟩
  · rw [← List.length_map (f := Block.ofTable)]
    apply areBlocks_lines
    intro block hblock
    obtain ⟨table, hdrawn, rfl⟩ := List.mem_map.mp hblock
    obtain ⟨htable, hcolumns⟩ := List.mem_filter.mp hdrawn
    refine ⟨isName_of_isWordName (hschema.tables table htable), ?_, ?_⟩
    · simpa [Block.ofTable] using hcolumns
    · intro row hrow
      obtain ⟨column, hcolumn, rfl⟩ := List.mem_map.mp hrow
      exact isName_of_isPlainName (hschema.columns table htable column hcolumn)
  · intro line hline
    rw [List.map_map] at hline
    obtain ⟨link, hlink, rfl⟩ := List.mem_map.mp hline
    have hnamed := hschema.relationships link hlink
    exact isEdge_text (isName_of_isWordName hnamed.fromTable)
      (isName_of_isWordName hnamed.toTable) (h link hlink)
  · rw [splitAt_ofSchema hschema, Drawing.lines, List.map_append, List.map_cons,
      List.map_map, List.cons_append]
    rfl

end schemas

end shapes

/-- Every diagram has the shape of diagrams, with a block for each table that has
columns; the column that a relationship goes to is a word that no quote begins or ends,
and holds a double quote only where the clean text has one.  So all its names are free
of double quotes exactly when those columns are. -/
theorem ofSql_isDiagram (dialect : Dialect) (sql : Text) :
    let schema := (Extraction.ofSql dialect sql).schema
    let count := (schema.tables.filter fun table => table.columns ≠ []).length
    IsDiagram (Clause.Target (CleanText.ofText dialect sql)) count (ofSql dialect sql) ∧
      (IsDiagram IsName count (ofSql dialect sql) ↔
        ∀ link ∈ schema.relationships, '"' ∉ link.toColumn) ∧
      ('"' ∉ CleanText.ofText dialect sql → IsDiagram IsName count (ofSql dialect sql)) := by
  intro schema count
  have hschema : schema.Named := Extraction.named_ofSql dialect sql
  have htargets : schema.Refers (CleanText.ofText dialect sql) :=
    Extraction.refers_ofText dialect _
  have hcount : count = schema.drawable.length := by
    refine congrArg List.length (List.filter_congr fun table _ => ?_)
    cases table.columns <;> rfl
  have hnames (h : ∀ link ∈ schema.relationships, '"' ∉ link.toColumn) :
      IsDiagram IsName count (ofSql dialect sql) := by
    rw [hcount]
    exact isDiagram_ofSchema hschema fun link hlink =>
      ⟨(hschema.relationships link hlink).toColumn, h link hlink⟩
  refine ⟨?_, ⟨fun h link hlink => ?_, hnames⟩, fun hclean => hnames fun link hlink => ?_⟩
  · rw [hcount]
    exact isDiagram_ofSchema hschema htargets
  · exact (h.toColumn hschema (fun name hname => hname.1) link hlink).2
  · exact fun hquote => hclean ((htargets link hlink).quote hquote)

/-- A text in which no double quote is left: both tables get a block. -/
theorem ofSql_isDiagram_unquoted :
    let sql : Text := "CREATE TABLE \"a\" (\"i\" INT PRIMARY KEY);
      CREATE TABLE b (j INT, FOREIGN KEY (j) REFERENCES \"a\" (\"i\"));".toList
    '"' ∉ CleanText.ofText .postgres sql ∧ IsDiagram IsName 2 (ofSql .postgres sql) := by
  intro sql
  have hclean : '"' ∉ CleanText.ofText .postgres sql := by decide +kernel
  have hcount : ((Extraction.ofSql .postgres sql).schema.tables.filter
      fun table => table.columns ≠ []).length = 2 := by decide +kernel
  have h := (ofSql_isDiagram .postgres sql).2.2 hclean
  rw [hcount] at h
  exact ⟨hclean, h⟩

/-- A list of columns keeps the double quotes inside an entry, and the label of the
relationship then ends before its line does. -/
theorem not_isDiagram_isName :
    let sql : Text :=
      "CREATE TABLE a (i INT, FOREIGN KEY (i) REFERENCES b (\"x\"\"y\"));".toList
    ¬ ∃ count, IsDiagram IsName count (ofSql .sqlite sql) := by
  rintro sql ⟨count, h⟩
  have hlink : ⟨"a".toList, "i".toList, "b".toList, "x\"\"y".toList⟩ ∈
      (Extraction.ofSql .sqlite sql).schema.relationships := by
    decide +kernel
  have hname := h.toColumn (Extraction.named_ofSql .sqlite sql) (fun _ hname => hname.1) _ hlink
  exact absurd hname.2 (by decide)

end DdlDiagram.Mermaid
