/-
Drafts: descriptions of tables apart from any text, the script that states them
in a dialect's SQL, and the schema that they describe.  A draft carries what
makes it one that can be stated, so every draft has a script.
-/
import DdlDiagram.Clause.Declaration
import DdlDiagram.Proofs.Coherence
import DdlDiagram.Schema

namespace DdlDiagram

open Text

/-- A character of an identifier: an ASCII letter, a digit or `_`. -/
def isNameChar (c : Char) : Bool :=
  c.isAlphanum || c == '_'

/-- An identifier does not start with a digit. -/
def isIdentifier : Text → Bool
  | [] => false
  | c :: rest => isNameChar c && !c.isDigit && rest.all isNameChar

/-- A name that can be written without quotes. -/
structure Identifier where
  text : Text
  valid : isIdentifier text = true
deriving DecidableEq

/-- The size behind a type name. -/
inductive TypeSize where
  | unsized
  | length (count : Nat)
  | scaled (precision scale : Nat)
deriving DecidableEq, Repr

/-- A column with a known type name, in any letter case, and the contents of the
literal it defaults to, if any. -/
structure ColumnDraft where
  name : Identifier
  unreserved : Clause.reservedWords.any (sameName name.text) = false
  typeName : Text
  alphabetic : typeName.all Char.isAlpha = true
  type : ColumnType
  known : (asciiLower typeName, type) ∈ ColumnType.sqlNames
  size : TypeSize
  initial : Option Text

/-- Columns that refer, each to its own column of one other table. -/
structure ForeignKeyDraft where
  table : Identifier
  links : List (Identifier × Identifier)
  inhabited : links ≠ []

/-- A table whose keys are made of its columns; without columns in its primary
key it has none. -/
structure TableDraft where
  name : Identifier
  columns : List ColumnDraft
  distinct : DistinctNames (columns.map fun column => column.name.text)
  primaryKey : List Identifier
  foreignKeys : List ForeignKeyDraft
  primary_declared : ∀ key ∈ primaryKey, ∃ column ∈ columns, column.name = key
  foreign_declared : ∀ key ∈ foreignKeys, ∀ link ∈ key.links,
    ∃ column ∈ columns, column.name = link.1

/-- A table and the blanks in front of its definition. -/
structure Placed where
  lead : Text
  blank : lead.all isBlank = true
  draft : TableDraft

/-- Definitions of differently named tables, with blanks behind the last. -/
structure Script where
  tables : List Placed
  distinct : DistinctNames (tables.map fun placed => placed.draft.name.text)
  trail : Text
  blank : trail.all isBlank = true

/-- How a script is spelled: what stands in front of a name and behind it, and
whether a backslash in a literal is doubled as a quote is. -/
structure Spelling where
  opening : Text
  closing : Text
  escapes : Bool

/-- A dialect's spelling, with its quotes around names. -/
def Dialect.spelling (dialect : Dialect) : Spelling where
  opening := dialect.nameQuotes.head?.toList
  closing := dialect.nameQuotes.getLast?.toList
  escapes := dialect.backslashEscapes

/-- A dialect's spelling without quotes around names. -/
def Dialect.plainSpelling (dialect : Dialect) : Spelling where
  opening := []
  closing := []
  escapes := dialect.backslashEscapes

/-- A character of a literal's contents, doubled where it would not stand for
itself. -/
def escapedChar (escapes : Bool) (c : Char) : Text :=
  if c = '\'' ∨ (escapes = true ∧ c = '\\') then [c, c] else [c]

/-- The text of a literal's contents. -/
def escaped (escapes : Bool) (content : Text) : Text :=
  content.flatMap (escapedChar escapes)

/-- A literal with the given contents. -/
def literalOf (escapes : Bool) (content : Text) : Text :=
  '\'' :: (escaped escapes content ++ ['\''])

namespace Spelling

def name (spelling : Spelling) (identifier : Identifier) : Text :=
  spelling.opening ++ identifier.text ++ spelling.closing

/-- Names with a comma and a blank between neighbours. -/
def names (spelling : Spelling) (identifiers : List Identifier) : Text :=
  joined ", ".toList (identifiers.map spelling.name)

end Spelling

def TypeSize.text : TypeSize → Text
  | unsized => []
  | length count => '(' :: (decimal count ++ [')'])
  | scaled precision scale =>
      '(' :: (decimal precision ++ ',' :: (decimal scale ++ [')']))

namespace ColumnDraft

/-- The default of a column, with a blank in front. -/
def default (escapes : Bool) (draft : ColumnDraft) : Text :=
  match draft.initial with
  | none => []
  | some content => " DEFAULT ".toList ++ literalOf escapes content

def clause (spelling : Spelling) (draft : ColumnDraft) : Text :=
  spelling.name draft.name ++ ' ' ::
    (draft.typeName ++ (draft.size.text ++ draft.default spelling.escapes))

end ColumnDraft

def ForeignKeyDraft.clause (spelling : Spelling) (draft : ForeignKeyDraft) :
    Text :=
  "FOREIGN KEY (".toList ++ (spelling.names (draft.links.map Prod.fst) ++
    (") REFERENCES ".toList ++ (spelling.name draft.table ++
      (" (".toList ++ (spelling.names (draft.links.map Prod.snd) ++ [')'])))))

/-- A clause of a table to be. -/
inductive ClauseDraft where
  | column (draft : ColumnDraft)
  | primaryKey (columns : List Identifier)
  | foreignKey (draft : ForeignKeyDraft)

def ClauseDraft.text (spelling : Spelling) : ClauseDraft → Text
  | column draft => draft.clause spelling
  | primaryKey columns =>
      "PRIMARY KEY (".toList ++ (spelling.names columns ++ [')'])
  | foreignKey draft => draft.clause spelling

namespace TableDraft

/-- The clauses of a table: its columns, its primary key, if any, and its
foreign keys. -/
def clauses (draft : TableDraft) : List ClauseDraft :=
  draft.columns.map .column ++
    ((if draft.primaryKey.isEmpty then [] else [.primaryKey draft.primaryKey]) ++
      draft.foreignKeys.map .foreignKey)

def body (spelling : Spelling) (draft : TableDraft) : Text :=
  joined ",\n".toList (draft.clauses.map (ClauseDraft.text spelling))

/-- The definition of a table up to the bracket that opens its body. -/
def header (spelling : Spelling) (draft : TableDraft) : Text :=
  "CREATE TABLE ".toList ++ (spelling.name draft.name ++ [' '])

/-- The definition of a table. -/
def statement (spelling : Spelling) (draft : TableDraft) : Text :=
  draft.header spelling ++ '(' :: (draft.body spelling ++ ");".toList)

example : statement Dialect.mssql.spelling
    { name := ⟨"a".toList, by decide⟩
      columns := [
        { name := ⟨"x".toList, by decide⟩
          unreserved := by decide
          typeName := "Char".toList
          alphabetic := by decide
          type := .char
          known := by decide
          size := .length 4
          initial := some "it's".toList }]
      distinct := List.pairwise_singleton _ _
      primaryKey := [⟨"x".toList, by decide⟩]
      foreignKeys := []
      primary_declared := by simp
      foreign_declared := by simp } =
    "CREATE TABLE [a] ([x] Char(4) DEFAULT 'it''s',\nPRIMARY KEY ([x]));".toList := by
  decide

/-- The table that a draft describes. -/
def table (draft : TableDraft) : Table where
  name := draft.name.text
  columns := draft.columns.map fun column =>
    { name := column.name.text
      type := column.type
      isPrimaryKey := draft.primaryKey.contains column.name
      isForeignKey := draft.foreignKeys.any fun key =>
        (key.links.map Prod.fst).contains column.name }

/-- The relationships that a draft describes, key by key. -/
def relationships (draft : TableDraft) : List Relationship :=
  draft.foreignKeys.flatMap fun key =>
    key.links.map fun (column, target) =>
      ⟨draft.name.text, column.text, key.table.text, target.text⟩

end TableDraft

namespace Script

/-- The text of definitions one after the other. -/
def textOf (spelling : Spelling) (tables : List Placed) : Text :=
  tables.flatMap fun placed => placed.lead ++ placed.draft.statement spelling

/-- The SQL of a script in a given spelling. -/
def spelled (spelling : Spelling) (script : Script) : Text :=
  textOf spelling script.tables ++ script.trail

/-- The SQL of a script in a dialect. -/
def sql (dialect : Dialect) (script : Script) : Text :=
  script.spelled dialect.spelling

/-- The schema that a script describes. -/
def schema (script : Script) : Schema where
  tables := script.tables.map fun placed => placed.draft.table
  relationships := script.tables.flatMap fun placed =>
    placed.draft.relationships

end Script

end DdlDiagram
