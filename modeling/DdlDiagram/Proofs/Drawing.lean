/-
What a diagram says.  A drawing is what of a schema its diagram shows: the tables
that have columns, with their names, types and marks, and between which tables, and
to which column, a relationship goes.  The names of an extracted schema are words,
so the drawing is read back from the text of the diagram, and two diagrams are the
same text exactly when they show the same drawing.
-/
import DdlDiagram.Proofs.DiagramLine
import DdlDiagram.Proofs.NameClass

namespace DdlDiagram

open Text Mermaid

/-- A table as a diagram shows it. -/
structure Block where
  table : Text
  rows : List Row
deriving DecidableEq, Repr

/-- What a diagram shows, in order. -/
structure Drawing where
  blocks : List Block
  edges : List Edge
deriving DecidableEq, Repr

namespace Block

def ofTable (table : Table) : Block :=
  ⟨table.name, table.columns.map Row.ofColumn⟩

/-- The lines of a table. -/
def lines (block : Block) : List Line :=
  .opening block.table :: block.rows.map Line.row ++ [.closing]

end Block

namespace Drawing

/-- What the diagram of a schema shows. -/
def ofSchema (schema : Schema) : Drawing :=
  ⟨schema.drawable.map Block.ofTable, schema.relationships.map Edge.ofRelationship⟩

/-- The lines of a drawing. -/
def lines (drawing : Drawing) : List Line :=
  .title :: drawing.blocks.flatMap Block.lines ++ drawing.edges.map Line.edge

/-- The diagram of a drawing. -/
def text (drawing : Drawing) : Text :=
  drawing.lines.flatMap fun line => line.text ++ ['\n']

/-- A line in front of others, of which some rows still wait for the line that opens
their table. -/
def gather : Line → List Row × Drawing → List Row × Drawing
  | .title, state => state
  | .opening table, (rows, drawing) =>
      ([], ⟨⟨table, rows⟩ :: drawing.blocks, drawing.edges⟩)
  | .row row, (rows, drawing) => (row :: rows, drawing)
  | .closing, (_, drawing) => ([], drawing)
  | .edge edge, (rows, drawing) => (rows, ⟨drawing.blocks, edge :: drawing.edges⟩)

/-- The drawing that lines make. -/
def ofLines (lines : List Line) : Drawing :=
  (lines.foldr gather ([], ⟨[], []⟩)).2

/-- The drawing that a text shows. -/
def ofText (text : Text) : Drawing :=
  ofLines ((splitAt '\n' text).filterMap Line.read?)

section gathering

variable (drawing : Drawing)

theorem foldr_gather_rows (rows : List Row) :
    (rows.map Line.row).foldr gather ([], drawing) = (rows, drawing) := by
  induction rows with
  | nil => rfl
  | cons row rest ih => rw [List.map_cons, List.foldr_cons, ih, gather]

theorem foldr_gather_block (block : Block) (rows : List Row) :
    block.lines.foldr gather (rows, drawing) =
      ([], ⟨block :: drawing.blocks, drawing.edges⟩) := by
  rw [Block.lines, List.foldr_append]
  show gather (.opening block.table) ((block.rows.map Line.row).foldr gather ([], drawing)) = _
  rw [foldr_gather_rows, gather]

theorem foldr_gather_blocks (blocks : List Block) :
    (blocks.flatMap Block.lines).foldr gather ([], drawing) =
      ([], ⟨blocks ++ drawing.blocks, drawing.edges⟩) := by
  induction blocks with
  | nil => rfl
  | cons block rest ih =>
      rw [List.flatMap_cons, List.foldr_append, ih, foldr_gather_block]
      rfl

theorem foldr_gather_edges (edges : List Edge) :
    (edges.map Line.edge).foldr gather ([], drawing) =
      ([], ⟨drawing.blocks, edges ++ drawing.edges⟩) := by
  induction edges with
  | nil => rfl
  | cons edge rest ih =>
      rw [List.map_cons, List.foldr_cons, ih, gather]
      rfl

/-- A drawing is known from its lines. -/
theorem ofLines_lines : ofLines drawing.lines = drawing := by
  rw [ofLines, lines, List.foldr_append, foldr_gather_edges, List.foldr_cons,
    foldr_gather_blocks, gather]
  simp

end gathering

/-- A drawing of words is known from its text. -/
theorem ofText_text {drawing : Drawing} (h : ∀ line ∈ drawing.lines, line.Worded) :
    ofText drawing.text = drawing := by
  rw [ofText, text, read?_lines h, ofLines_lines]

end Drawing

namespace Mermaid

theorem tableBlock_eq (table : Table) :
    tableBlock table =
      (Block.ofTable table).lines.flatMap fun line => line.text ++ ['\n'] := by
  have hcolumns : table.columns.flatMap columnLine =
      ((Block.ofTable table).rows.map Line.row).flatMap
        fun line => line.text ++ ['\n'] := by
    rw [Block.ofTable, List.map_map, List.flatMap_map]
    exact List.flatMap_congr fun column _ => columnLine_eq column
  unfold tableBlock
  rw [hcolumns]
  simp [Block.ofTable, Block.lines, Line.text, Line.tokens, Line.indent, joined,
    List.replicate]

/-- The diagram of a schema is that of its drawing. -/
theorem ofSchema_eq (schema : Schema) :
    ofSchema schema = (Drawing.ofSchema schema).text := by
  have htables : schema.drawable.flatMap tableBlock =
      ((Drawing.ofSchema schema).blocks.flatMap Block.lines).flatMap
        fun line => line.text ++ ['\n'] := by
    rw [Drawing.ofSchema, List.flatMap_map, List.flatMap_assoc]
    exact List.flatMap_congr fun table _ => tableBlock_eq table
  have hlinks : schema.relationships.flatMap relationshipLine =
      ((Drawing.ofSchema schema).edges.map Line.edge).flatMap
        fun line => line.text ++ ['\n'] := by
    rw [Drawing.ofSchema, List.map_map, List.flatMap_map]
    exact List.flatMap_congr fun link _ => relationshipLine_eq link
  unfold ofSchema
  rw [htables, hlinks, Drawing.text, Drawing.lines, List.cons_append,
    List.flatMap_cons, List.flatMap_append, ← List.append_assoc]
  rfl

end Mermaid

/-- The lines that draw a schema of words are of words. -/
theorem Schema.Named.worded {schema : Schema} (h : schema.Named) :
    ∀ line ∈ (Drawing.ofSchema schema).lines, line.Worded := by
  have hrows : ∀ table ∈ schema.tables,
      ∀ line ∈ (Block.ofTable table).rows.map Line.row, line.Worded := by
    intro table htable line hline
    rw [Block.ofTable, List.map_map] at hline
    obtain ⟨column, hcolumn, rfl⟩ := List.mem_map.mp hline
    exact Line.worded_row (h.columns table htable column hcolumn).isWord
  have hblocks : ∀ line ∈ (Drawing.ofSchema schema).blocks.flatMap Block.lines,
      line.Worded := by
    rw [Drawing.ofSchema, List.flatMap_map]
    intro line hline
    obtain ⟨table, hdrawn, hline⟩ := List.mem_flatMap.mp hline
    have htable := List.mem_of_mem_filter hdrawn
    rcases List.mem_append.mp hline with hline | hline
    · rcases List.mem_cons.mp hline with rfl | hline
      · exact Line.worded_opening (h.tables table htable).isWord
      · exact hrows table htable line hline
    · rw [List.mem_singleton.mp hline]
      exact Line.worded_closing
  have hedges : ∀ line ∈ (Drawing.ofSchema schema).edges.map Line.edge,
      line.Worded := by
    rw [Drawing.ofSchema, List.map_map]
    intro line hline
    obtain ⟨link, hlink, rfl⟩ := List.mem_map.mp hline
    have hnamed := h.relationships link hlink
    exact Line.worded_edge hnamed.fromTable.isWord hnamed.toTable.isWord
      hnamed.toColumn
  exact List.forall_mem_append.mpr
    ⟨List.forall_mem_cons.mpr ⟨Line.worded_title, hblocks⟩, hedges⟩

/-- The diagram of a text is the drawing of its schema: the drawing is read back from
the diagram, and texts in whatever dialects have one diagram exactly when their
schemas have one drawing. -/
theorem Mermaid.ofSql_faithful :
    (∀ dialect sql, Drawing.ofText (ofSql dialect sql) =
      Drawing.ofSchema (Extraction.ofSql dialect sql).schema) ∧
    ∀ dialect sql dialect' sql', ofSql dialect sql = ofSql dialect' sql' ↔
      Drawing.ofSchema (Extraction.ofSql dialect sql).schema =
        Drawing.ofSchema (Extraction.ofSql dialect' sql').schema := by
  have hread : ∀ dialect sql, Drawing.ofText (ofSql dialect sql) =
      Drawing.ofSchema (Extraction.ofSql dialect sql).schema := by
    intro dialect sql
    rw [ofSql, ofSchema_eq]
    exact Drawing.ofText_text (Extraction.named_ofSql dialect sql).worded
  refine ⟨hread, fun dialect sql dialect' sql' => ⟨fun h => ?_, fun h => ?_⟩⟩
  · rw [← hread, ← hread, h]
  · rw [ofSql, ofSql, ofSchema_eq, ofSchema_eq, h]

end DdlDiagram
