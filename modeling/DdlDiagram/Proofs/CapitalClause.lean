/-
Extraction in capitals.  A clause of a text in capitals says what the clause of the
text says, in capitals: its words are compared by their capitals, its names up to
ASCII case.  So the letter case of a text decides nothing but the letter case of the
names and clauses that are shown.
-/
import DdlDiagram.Conversion
import DdlDiagram.Proofs.CapitalPhrase

namespace DdlDiagram

open Text Phrase

namespace Clause

/-- A link with its names in capitals. -/
def Link.inCapitals (link : Link) : Link :=
  ⟨asciiUpper link.column, asciiUpper link.table, asciiUpper link.target⟩

/-- A declaration with its names in capitals. -/
def Declaration.inCapitals (declaration : Declaration) : Declaration where
  name := asciiUpper declaration.name
  typeName := asciiUpper declaration.typeName
  isKey := declaration.isKey
  reference := declaration.reference.map (Prod.map asciiUpper asciiUpper)

end Clause

/-- A clause with its names in capitals. -/
def Clause.inCapitals : Clause → Clause
  | foreignKey links => foreignKey (links.map Link.inCapitals)
  | primaryKey columns => primaryKey (columns.map asciiUpper)
  | index => index
  | column declaration => column declaration.inCapitals
  | unknown text => unknown (asciiUpper text)

/-- An outcome with its names in capitals. -/
def Outcome.inCapitals : Outcome → Outcome
  | links list => links (list.map Clause.Link.inCapitals)
  | keys columns => keys (columns.map asciiUpper)
  | passed => passed
  | column declaration => column declaration.inCapitals
  | repeated name => repeated (asciiUpper name)
  | discarded clause => discarded (asciiUpper clause)

/-- A notice with its names and its clause in capitals; its offset stays. -/
def Notice.inCapitals : Notice → Notice
  | unclosedBody table offset => unclosedBody (asciiUpper table) offset
  | repeatedTable table => repeatedTable (asciiUpper table)
  | repeatedColumn table column =>
      repeatedColumn (asciiUpper table) (asciiUpper column)
  | discardedClause table clause =>
      discardedClause (asciiUpper table) (asciiUpper clause)
  | unknownType table column typeName =>
      unknownType (asciiUpper table) (asciiUpper column) (asciiUpper typeName)

/-- A column with its name in capitals; its type and its keys stay. -/
def Column.inCapitals (column : Column) : Column :=
  { column with name := asciiUpper column.name }

/-- A table with its names in capitals. -/
def Table.inCapitals (table : Table) : Table :=
  ⟨asciiUpper table.name, table.columns.map Column.inCapitals⟩

/-- A relationship with its names in capitals. -/
def Relationship.inCapitals (link : Relationship) : Relationship where
  fromTable := asciiUpper link.fromTable
  fromColumn := asciiUpper link.fromColumn
  toTable := asciiUpper link.toTable
  toColumn := asciiUpper link.toColumn

/-- A schema with all its names in capitals. -/
def Schema.inCapitals (schema : Schema) : Schema :=
  ⟨schema.tables.map Table.inCapitals,
    schema.relationships.map Relationship.inCapitals⟩

def TableBody.inCapitals (body : TableBody) : TableBody :=
  ⟨body.table.inCapitals, body.relationships.map Relationship.inCapitals,
    body.notices.map Notice.inCapitals⟩

/-- An extraction with every name and every clause in capitals. -/
def Extraction.inCapitals (extraction : Extraction) : Extraction :=
  ⟨extraction.schema.inCapitals, extraction.notices.map Notice.inCapitals⟩

namespace ColumnType

@[simp] theorem ofSqlName?_asciiUpper (text : Text) :
    ofSqlName? (asciiUpper text) = ofSqlName? text := by
  simp [ofSqlName?]

end ColumnType

namespace Clause

variable (text : Text)

theorem isQuote_toUpper (c : Char) : isQuote c.toUpper = isQuote c := by
  simp (disch := decide) only [isQuote, toUpper_beq]

@[simp] theorem unquoted_asciiUpper :
    unquoted (asciiUpper text) = asciiUpper (unquoted text) :=
  trimMatching_asciiUpper text isQuote_toUpper

@[simp] theorem leadingWord_asciiUpper :
    leadingWord (asciiUpper text) = leadingWord text := by
  simp (disch := decide) only [leadingWord, firstWord_asciiUpper, before_asciiUpper,
    unquoted_asciiUpper, upper_asciiUpper]

@[simp] theorem columnNames_asciiUpper :
    columnNames (asciiUpper text) = (columnNames text).map asciiUpper := by
  simp (disch := decide) only [columnNames, splitAt_asciiUpper, List.map_map,
    List.filter_map, Function.comp_def, firstWord_asciiUpper, before_asciiUpper,
    unquoted_asciiUpper, isEmpty_asciiUpper]

@[simp] theorem isColumnName_asciiUpper :
    isColumnName (asciiUpper text) = isColumnName text := by
  have hchar : ∀ c : Char, (isAlphanumeric c.toUpper || c.toUpper == '_' ||
      c.toUpper == '$') = (isAlphanumeric c || c == '_' || c == '$') := by
    intro c
    simp (disch := decide) only [isAlphanumeric_toUpper, toUpper_beq]
  rw [isColumnName, isColumnName, isEmpty_asciiUpper, upper_asciiUpper, asciiUpper,
    List.all_map]
  simp only [Function.comp_def, hchar]

@[simp] theorem foreignKey?_asciiUpper :
    foreignKey? (asciiUpper text) =
      (foreignKey? text).map (List.map Link.inCapitals) := by
  have hbracket := fun text => afterChar?_asciiUpper text
    (show '('.isAlpha = false by decide)
  have hname : ∀ text, ((quotedWord? (asciiUpper text)).map fun read =>
        trimStart read.2).getD (asciiUpper text) =
      asciiUpper (((quotedWord? text).map fun read =>
        trimStart read.2).getD text) := by
    intro text
    rw [quotedWord?_asciiUpper]
    cases quotedWord? text with
    | none => rfl
    | some read => exact trimStart_asciiUpper read.2
  have hhere : CaseBlind (List.map Link.inCapitals) foreignKeyHere? := by
    intro text
    simp only [foreignKeyHere?, Option.bind_eq_bind, Option.pure_def,
      afterSpacedKeyword?_asciiUpper, afterKeyword?_asciiUpper, trimStart_asciiUpper,
      hname, hbracket, upToBracket?_asciiUpper, nameBeforeBracket?_asciiUpper,
      columnNames_asciiUpper, Option.bind_map, Option.map_bind, Function.comp_def,
      Option.map_some, Prod.map_fst, Prod.map_snd, List.zipWith_map, List.map_zipWith,
      Link.inCapitals]
  exact hhere.search text

@[simp] theorem primaryKey?_asciiUpper :
    primaryKey? (asciiUpper text) = (primaryKey? text).map (List.map asciiUpper) := by
  have hbracket := fun text => afterChar?_asciiUpper text
    (show '('.isAlpha = false by decide)
  have hhere : CaseBlind (List.map asciiUpper) primaryKeyHere? := by
    intro text
    simp only [primaryKeyHere?, afterStorage?, Option.bind_eq_bind, Option.pure_def,
      afterSpacedKeyword?_asciiUpper, afterKeyword?_asciiUpper, trimStart_asciiUpper,
      hbracket, upToBracket?_asciiUpper, columnNames_asciiUpper, ← Option.map_or,
      Option.getD_map, Option.bind_map, Option.map_bind, Function.comp_def,
      Option.map_some, Prod.map_fst]
  exact hhere.search text

@[simp] theorem declaresKey_asciiUpper :
    declaresKey (asciiUpper text) = declaresKey text := by
  have hhere : CaseBlind id keyWordsHere? := by
    intro text
    have hhead : ∀ text, (asciiUpper text).head?.any isWordChar =
        text.head?.any isWordChar := by
      intro text
      rw [asciiUpper, List.head?_map]
      exact any_isWordChar_toUpper text.head?
    simp only [keyWordsHere?, Option.bind_eq_bind, afterSpacedKeyword?_asciiUpper,
      afterKeyword?_asciiUpper, Option.bind_map, Function.comp_def, hhead,
      Option.map_id_fun, id]
  have hsearch := hhere.searchAtWord none text
  rw [Option.map_none, Option.map_id_fun, id] at hsearch
  rw [declaresKey, hsearch, declaresKey]

@[simp] theorem reference?_asciiUpper :
    reference? (asciiUpper text) =
      (reference? text).map (Prod.map asciiUpper asciiUpper) := by
  have hbracket := fun text => afterChar?_asciiUpper text
    (show ')'.isAlpha = false by decide)
  have hhere : CaseBlind (Prod.map asciiUpper asciiUpper) referenceHere? := by
    intro text
    simp only [referenceHere?, Option.bind_eq_bind, Option.pure_def,
      afterSpacedKeyword?_asciiUpper, nameBeforeBracket?_asciiUpper,
      quotedWord?_asciiUpper, trimStart_asciiUpper, hbracket, Option.bind_map,
      Option.map_bind, Function.comp_def, Option.map_some, Prod.map_fst, Prod.map_snd,
      Prod.map_apply]
  exact hhere.searchAtWord none text

@[simp] theorem declared?_asciiUpper :
    declared? (asciiUpper text) =
      (declared? text).map (Prod.map asciiUpper asciiUpper) := by
  have hvarying : ∀ (typeName : Text) (next : Option Text),
      isVarying (asciiUpper typeName) (next.map asciiUpper) =
        isVarying typeName next := by
    intro typeName next
    cases next <;> simp [isVarying]
  rw [declared?, declared?, words_asciiUpper]
  rcases words text with _ | ⟨first, _ | ⟨second, others⟩⟩
  · rfl
  · rfl
  · simp only [List.map_cons, unquoted_asciiUpper, isColumnName_asciiUpper,
      takeWhile_asciiUpper _ isAlpha_toUpper, isEmpty_asciiUpper, upper_asciiUpper,
      List.head?_map, hvarying]
    split
    · rfl
    · split <;> rfl

variable (lexis : Lexis)

/-- A clause in capitals says what the clause says, in capitals. -/
@[simp] theorem read_asciiUpper :
    read lexis (asciiUpper text) = (read lexis text).inCapitals := by
  have htable : tableKey? (asciiUpper text) =
      (tableKey? text).map inCapitals := by
    simp only [tableKey?, leadingWord_asciiUpper, foreignKey?_asciiUpper,
      primaryKey?_asciiUpper, Option.map_map]
    split
    · rw [Option.map_or, Option.map_map, Option.map_map]
      rfl
    · rfl
  have hindex : isIndex (asciiUpper text) = isIndex text := by
    have hsecond : (words (asciiUpper text))[1]?.getD [] =
        asciiUpper ((words text)[1]?.getD []) := by
      rw [words_asciiUpper, List.getElem?_map]
      exact Option.getD_map asciiUpper [] _
    simp (disch := decide) only [isIndex, leadingWord_asciiUpper,
      firstWord_asciiUpper, contains_asciiUpper, hsecond, before_asciiUpper,
      ColumnType.ofSqlName?_asciiUpper]
  have hdeclaration : Declaration.read? lexis (asciiUpper text) =
      (Declaration.read? lexis text).map Declaration.inCapitals := by
    simp only [Declaration.read?, declared?_asciiUpper, Option.map_map,
      Lexis.blankLiterals_asciiUpper, declaresKey_asciiUpper, reference?_asciiUpper]
    rfl
  rw [read, read, htable, hindex, hdeclaration]
  cases tableKey? text with
  | some clause => rfl
  | none =>
      cases isIndex text with
      | true => rfl
      | false => cases Declaration.read? lexis text <;> rfl

end Clause

namespace Outcome

/-- Names that are the same in capitals are the same. -/
theorem ofClauses_inCapitals (seen : List Text) (clauses : List Clause) :
    ofClauses (seen.map asciiUpper) (clauses.map Clause.inCapitals) =
      (ofClauses seen clauses).map inCapitals := by
  induction clauses generalizing seen with
  | nil => rfl
  | cons clause rest ih =>
      cases clause with
      | foreignKey list => exact congrArg (_ :: ·) (ih seen)
      | primaryKey columns => exact congrArg (_ :: ·) (ih seen)
      | index => exact congrArg (_ :: ·) (ih seen)
      | unknown text => exact congrArg (_ :: ·) (ih seen)
      | column declaration =>
          have hseen : (seen.map asciiUpper).any
              (sameName declaration.inCapitals.name) =
                seen.any (sameName declaration.name) := by
            simp [Clause.Declaration.inCapitals, List.any_map, Function.comp_def]
          have hnew := ih (declaration.name :: seen)
          rw [List.map_cons] at hnew
          simp only [List.map_cons, Clause.inCapitals, ofClauses, hseen]
          split
          · exact congrArg (_ :: ·) (ih seen)
          · exact congrArg (_ :: ·) hnew

variable (outcome : Outcome)

theorem declaration?_inCapitals :
    outcome.inCapitals.declaration? =
      outcome.declaration?.map Clause.Declaration.inCapitals := by
  cases outcome <;> rfl

theorem keyColumns_inCapitals :
    outcome.inCapitals.keyColumns = outcome.keyColumns.map asciiUpper := by
  cases outcome with
  | column declaration =>
      simp only [inCapitals, keyColumns, Clause.Declaration.inCapitals]
      split <;> rfl
  | _ => rfl

theorem foreignLinks_inCapitals :
    outcome.inCapitals.foreignLinks =
      outcome.foreignLinks.map Clause.Link.inCapitals := by
  cases outcome with
  | column declaration =>
      rcases hreference : declaration.reference with _ | ⟨table, target⟩ <;>
        simp [inCapitals, foreignLinks, Clause.Declaration.inCapitals, hreference,
          Clause.Link.inCapitals]
  | _ => rfl

theorem notices_inCapitals (table : Text) :
    outcome.inCapitals.notices (asciiUpper table) =
      (outcome.notices table).map Notice.inCapitals := by
  cases outcome with
  | column declaration =>
      simp only [inCapitals, notices, Clause.Declaration.inCapitals,
        ColumnType.ofSqlName?_asciiUpper]
      split <;> rfl
  | _ => rfl

end Outcome

namespace TableBody

variable (dialect : Dialect) (name body : Text)

theorem ofOutcomes_inCapitals (outcomes : List Outcome) :
    ofOutcomes (asciiUpper name) (outcomes.map Outcome.inCapitals) =
      (ofOutcomes name outcomes).inCapitals := by
  have hkeys : (outcomes.map Outcome.inCapitals).flatMap Outcome.keyColumns =
      (outcomes.flatMap Outcome.keyColumns).map asciiUpper := by
    simp only [List.flatMap_map, List.map_flatMap, Outcome.keyColumns_inCapitals]
  have hlinks : (outcomes.map Outcome.inCapitals).flatMap Outcome.foreignLinks =
      (outcomes.flatMap Outcome.foreignLinks).map Clause.Link.inCapitals := by
    simp only [List.flatMap_map, List.map_flatMap, Outcome.foreignLinks_inCapitals]
  have hnotices : (outcomes.map Outcome.inCapitals).flatMap
        (Outcome.notices (asciiUpper name)) =
      (outcomes.flatMap (Outcome.notices name)).map Notice.inCapitals := by
    simp only [List.flatMap_map, List.map_flatMap, Outcome.notices_inCapitals]
  have hdeclared : (outcomes.map Outcome.inCapitals).filterMap Outcome.declaration? =
      (outcomes.filterMap Outcome.declaration?).map
        Clause.Declaration.inCapitals := by
    rw [List.filterMap_map, List.map_filterMap]
    exact List.filterMap_congr fun outcome _ => outcome.declaration?_inCapitals
  simp [ofOutcomes, inCapitals, hkeys, hlinks, hnotices, hdeclared, List.any_map,
    Function.comp_def, Clause.Declaration.inCapitals, Clause.Link.inCapitals,
    Clause.Declaration.type, ColumnType.ofSqlName, Table.inCapitals,
    Column.inCapitals, Relationship.inCapitals]

@[simp] theorem read_asciiUpper :
    read dialect (asciiUpper name) (asciiUpper body) =
      (read dialect name body).inCapitals := by
  have hclauses : clauses dialect (asciiUpper body) =
      (clauses dialect body).map Clause.inCapitals := by
    simp [clauses, List.filter_map, Function.comp_def]
  have houtcomes := Outcome.ofClauses_inCapitals [] (clauses dialect body)
  rw [List.map_nil] at houtcomes
  rw [read, outcomes, hclauses, houtcomes, ofOutcomes_inCapitals]
  rfl

end TableBody

/-- Adding a table of a name and a body in capitals to a schema in capitals. -/
theorem Schema.addTable_inCapitals (dialect : Dialect) (schema : Schema)
    (name body : Text) :
    schema.inCapitals.addTable dialect (asciiUpper name) (asciiUpper body) =
      ⟨(schema.addTable dialect name body).schema.inCapitals,
        (schema.addTable dialect name body).added,
        (schema.addTable dialect name body).notices.map Notice.inCapitals⟩ := by
  have htable : (schema.inCapitals.table? (asciiUpper name)).isSome =
      (schema.table? name).isSome := by
    simp [table?, inCapitals, List.find?_map, Function.comp_def, Table.inCapitals]
  simp only [addTable, htable, TableBody.read_asciiUpper]
  split
  · rfl
  · simp [inCapitals, TableBody.inCapitals]

namespace Extraction

variable (dialect : Dialect)

theorem ofSites_inCapitals (text : Text) (schema : Schema) (sites : List TableSite) :
    ofSites dialect (asciiUpper text) schema.inCapitals
        (sites.map TableSite.inCapitals) =
      (ofSites dialect text schema sites).inCapitals := by
  induction sites generalizing schema with
  | nil => rfl
  | cons site rest ih =>
      cases hclosing : site.closing with
      | none =>
          simp only [List.map_cons, ofSites, TableSite.inCapitals, hclosing, ih]
          rfl
      | some closing =>
          simp only [List.map_cons, ofSites, TableSite.inCapitals, hclosing,
            TableSite.body_asciiUpper, Schema.addTable_inCapitals, ih]
          simp [inCapitals]

/-- The letter case of a text never matters: its capitals give the same tables,
relationships and notices, with every name and every clause in capitals. -/
theorem ofSql_asciiUpper (sql : Text) :
    ofSql dialect (asciiUpper sql) = (ofSql dialect sql).inCapitals := by
  rw [ofSql, ofSql, CleanText.ofText_asciiUpper, ofText, ofText,
    TableSite.all_asciiUpper]
  exact ofSites_inCapitals dialect _ Schema.empty _

end Extraction

end DdlDiagram
