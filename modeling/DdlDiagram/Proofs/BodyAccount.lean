/-
The account of a body.  Each of its parts has one outcome, and the columns, keys,
relationships and notices of the table are those of the outcomes, in the order of the
parts: a part that may declare a column counts once, as a column, as a repeated one or as
a clause that is discarded.
-/
import DdlDiagram.Proofs.ClauseOutcome
import DdlDiagram.Proofs.ClausePlace

namespace DdlDiagram

open Text

namespace Notice

def isRepeatedColumn : Notice → Bool
  | repeatedColumn _ _ => true
  | _ => false

def isDiscardedClause : Notice → Bool
  | discardedClause _ _ => true
  | _ => false

/-- Whether a notice is about the type of a given column. -/
def isUnknownType (column : Text) : Notice → Bool
  | unknownType _ other _ => other == column
  | _ => false

end Notice

/-- A part that may declare a column and declares none. -/
def Clause.isUndeclared (part : Text) : Bool :=
  isDeclaring part && (declared? part).isNone

/-- The relationships of a table that an outcome declares. -/
def Outcome.relationships (table : Text) : Outcome → List Relationship
  | links list => list.map fun link => ⟨table, link.column, link.table, link.target⟩
  | column declaration => declaration.reference.toList.map fun reference =>
      ⟨table, declaration.name, reference.1, reference.2⟩
  | _ => []

namespace TableBody

/-- What a body of given parts amounts to. -/
structure Account (lexis : Lexis) (tableName : Text) (parts : List Text) (outcomes : List Outcome)
    (body : TableBody) : Prop where
  /-- Every part has one outcome, and the outcomes stand in the order of the parts. -/
  length : outcomes.length = parts.length
  outcome : ∀ (i : Nat) outcome, outcomes[i]? = some outcome ↔
    ∃ part, parts[i]? = some part ∧ Outcome.Yields lexis (parts.take i) part outcome
  /-- The parts that may declare a column are those that are neither keys of the table nor
  index clauses. -/
  declaring : ∀ part ∈ parts, Clause.isDeclaring part = true ↔
    ¬ Clause.IsTableKey part ∧ ¬ Clause.IsIndexClause part
  name : body.table.name = tableName
  /-- The columns are the accepted ones, in their order. -/
  columns : body.table.columns.map (fun column => (column.name, column.type)) =
    (outcomes.filterMap Outcome.declaration?).map fun declaration =>
      (declaration.name, ColumnType.ofSqlName declaration.typeName)
  /-- A column is a key when a key of the table lists it or its own part declares one. -/
  keys : ∀ (i : Nat) part declaration, parts[i]? = some part →
    outcomes[i]? = some (.column declaration) →
      ∀ column ∈ body.table.columns, column.name = declaration.name →
        (column.isPrimaryKey = true ↔
          (∃ other ∈ parts, ∃ listed, Clause.IsPrimaryKey other listed ∧
            ∃ key ∈ listed, sameName column.name key = true) ∨
          Clause.HasKeyWords lexis part)
  relationships : body.relationships = outcomes.flatMap (Outcome.relationships tableName)
  notices : body.notices = outcomes.flatMap (Outcome.notices tableName)
  /-- The type of a column is reported once where it is not known, and not otherwise. -/
  types : ∀ declaration, .column declaration ∈ outcomes →
    body.notices.filter (Notice.isUnknownType declaration.name) =
      if (ColumnType.ofSqlName? declaration.typeName).isNone then
        [.unknownType tableName declaration.name declaration.typeName]
      else []
  /-- A part that declares nothing is reported as it stands. -/
  discarded : body.notices.filter Notice.isDiscardedClause =
    (parts.filter Clause.isUndeclared).map (.discardedClause tableName)
  /-- No part vanishes. -/
  counted : (parts.filter Clause.isDeclaring).length = body.table.columns.length +
    body.notices.countP Notice.isRepeatedColumn + body.notices.countP Notice.isDiscardedClause

end TableBody

namespace Outcome

variable {lexis : Lexis} {front seen : List Text}

section cases

variable {part : Text} {declaration : Clause.Declaration}

theorem Yields.isPrimaryKey {listed : List Text}
    (h : Yields lexis front part (.keys listed)) : Clause.IsPrimaryKey part listed := by
  cases h with
  | keys hkey => exact hkey

theorem Yields.declares (h : Yields lexis front part (.column declaration)) :
    Clause.Declares part declaration.name := by
  cases h with
  | column hpart hcolumn => exact ⟨hpart, _, hcolumn⟩

theorem Yields.new (h : Yields lexis front part (.column declaration)) :
    ∀ earlier ∈ front, ∀ other, Clause.Declares earlier other →
      sameName declaration.name other = false := by
  cases h with
  | column _ _ hnew => exact hnew

theorem Yields.isKey_iff (h : Yields lexis front part (.column declaration)) :
    declaration.isKey = true ↔ Clause.HasKeyWords lexis part := by
  cases h with
  | column _ _ _ hkey => exact hkey

end cases

/-- A part that may declare a column counts once. -/
theorem Yields.count {part : Text} {outcome : Outcome} (h : Yields lexis front part outcome)
    (table : Text) :
    outcome.declaration?.toList.length +
        (outcome.notices table).countP Notice.isRepeatedColumn +
        (outcome.notices table).countP Notice.isDiscardedClause =
      if Clause.isDeclaring part then 1 else 0 := by
  cases h with
  | links hkey =>
      rw [Clause.IsTableKey.isDeclaring_eq_false (.inl ⟨_, hkey⟩)]
      rfl
  | keys hkey =>
      rw [Clause.IsTableKey.isDeclaring_eq_false (.inr ⟨_, hkey⟩)]
      rfl
  | passed _ hindex =>
      rw [hindex.isDeclaring_eq_false]
      rfl
  | discarded hpart => rw [Clause.isDeclaring_iff_mayDeclare.mpr hpart]; rfl
  | repeated hpart => rw [Clause.isDeclaring_iff_mayDeclare.mpr hpart]; rfl
  | column hpart =>
      rw [Clause.isDeclaring_iff_mayDeclare.mpr hpart]
      simp only [notices]
      split <;> rfl

theorem declared_cons (first : Outcome) (rest : List Outcome) :
    (first :: rest).filterMap declaration? =
      first.declaration?.toList ++ rest.filterMap declaration? := by
  rw [List.filterMap_cons]
  cases first.declaration? <;> rfl

/-- A part that declares nothing is reported as it stands, and no other one is. -/
theorem Yields.filter_isDiscardedClause {part : Text} {outcome : Outcome}
    (h : Yields lexis front part outcome) (table : Text) :
    (outcome.notices table).filter Notice.isDiscardedClause =
      if Clause.isUndeclared part then [.discardedClause table part] else [] := by
  cases h with
  | links hkey =>
      rw [Clause.isUndeclared, Clause.IsTableKey.isDeclaring_eq_false (.inl ⟨_, hkey⟩)]
      rfl
  | keys hkey =>
      rw [Clause.isUndeclared, Clause.IsTableKey.isDeclaring_eq_false (.inr ⟨_, hkey⟩)]
      rfl
  | passed _ hindex =>
      rw [Clause.isUndeclared, hindex.isDeclaring_eq_false]
      rfl
  | discarded hpart hnone =>
      rw [Clause.isUndeclared, Clause.isDeclaring_iff_mayDeclare.mpr hpart,
        Clause.declared?_eq_none_iff.mpr hnone]
      rfl
  | repeated hpart hcolumn =>
      rw [Clause.isUndeclared, Clause.declared?_eq_some_iff.mpr hcolumn, Option.isNone_some,
        Bool.and_false]
      rfl
  | column hpart hcolumn =>
      rw [Clause.isUndeclared, Clause.declared?_eq_some_iff.mpr hcolumn, Option.isNone_some,
        Bool.and_false]
      simp only [notices]
      split <;> rfl

theorem map_foreignLinks (table : Text) (outcome : Outcome) :
    (outcome.foreignLinks.map fun link =>
      (⟨table, link.column, link.table, link.target⟩ : Relationship)) =
        outcome.relationships table := by
  cases outcome with
  | links | keys | passed | repeated | discarded => rfl
  | column declaration =>
      rw [foreignLinks, relationships]
      cases declaration.reference <;> rfl

section parts

variable {parts : List Text} {outcomes : List Outcome}
  (h : List.Forall₂ (fun part outcome => ∃ front, Yields lexis front part outcome) parts
    outcomes) (table : Text)
include h

/-- The parts that may declare a column are as many as the columns, the repeated ones and
the discarded clauses. -/
theorem length_filter_isDeclaring :
    (parts.filter Clause.isDeclaring).length = (outcomes.filterMap declaration?).length +
      (outcomes.flatMap (notices table)).countP Notice.isRepeatedColumn +
      (outcomes.flatMap (notices table)).countP Notice.isDiscardedClause := by
  induction h with
  | nil => rfl
  | @cons part first parts others hfirst _ ih =>
      obtain ⟨front, hfirst⟩ := hfirst
      have hcount := hfirst.count table
      have hparts : ((part :: parts).filter Clause.isDeclaring).length =
          (if Clause.isDeclaring part then 1 else 0) +
            (parts.filter Clause.isDeclaring).length := by
        rw [List.filter_cons]
        split <;> simp [Nat.add_comm]
      rw [List.flatMap_cons, List.countP_append, List.countP_append, declared_cons,
        List.length_append, hparts, ih, ← hcount]
      omega

/-- The clauses that are discarded are the parts that declare nothing. -/
theorem filter_isDiscardedClause :
    (outcomes.flatMap (notices table)).filter Notice.isDiscardedClause =
      (parts.filter Clause.isUndeclared).map (.discardedClause table) := by
  induction h with
  | nil => rfl
  | @cons part first parts others hfirst _ ih =>
      obtain ⟨front, hfirst⟩ := hfirst
      rw [List.flatMap_cons, List.filter_append, hfirst.filter_isDiscardedClause, ih,
        List.filter_cons]
      split <;> rfl

end parts

section types

variable (table : Text) {name : Text}

/-- An outcome that does not add a column says nothing about its type. -/
theorem filter_isUnknownType_eq_nil {outcome : Outcome}
    (h : ∀ declaration ∈ outcome.declaration?, declaration.name ≠ name) :
    (outcome.notices table).filter (Notice.isUnknownType name) = [] := by
  cases outcome with
  | links | keys | passed => rfl
  | repeated | discarded => rfl
  | column declaration =>
      have hname := h declaration rfl
      simp only [notices]
      split
      · simp [Notice.isUnknownType, hname]
      · rfl

variable {outcomes : List Outcome} (hdistinct : DistinctNames
  ((outcomes.filterMap declaration?).map Clause.Declaration.name))
include hdistinct

/-- The type of a column is reported once where it is not known, and not otherwise. -/
theorem filter_isUnknownType {declaration : Clause.Declaration}
    (h : column declaration ∈ outcomes) :
    (outcomes.flatMap (notices table)).filter (Notice.isUnknownType declaration.name) =
      if (ColumnType.ofSqlName? declaration.typeName).isNone then
        [.unknownType table declaration.name declaration.typeName]
      else [] := by
  induction outcomes with
  | nil => contradiction
  | cons first rest ih =>
      rw [declared_cons, List.map_append] at hdistinct
      obtain ⟨_, hrest, hapart⟩ := List.pairwise_append.mp hdistinct
      rw [List.flatMap_cons, List.filter_append]
      rcases List.mem_cons.mp h with rfl | hmem
      · -- The first column has this name, so none behind it has.
        have hothers : (rest.flatMap (notices table)).filter
            (Notice.isUnknownType declaration.name) = [] := by
          rw [List.filter_flatMap, List.flatMap_eq_nil_iff]
          intro outcome houtcome
          apply filter_isUnknownType_eq_nil
          intro other hother
          have hmem : other ∈ rest.filterMap declaration? :=
            List.mem_filterMap.mpr ⟨outcome, houtcome, hother⟩
          exact (ne_of_sameName_eq_false
            (hapart _ List.mem_cons_self _ (List.mem_map_of_mem hmem))).symm
        rw [hothers, List.append_nil, notices]
        split <;> simp [Notice.isUnknownType]
      · have hfirst : (first.notices table).filter
            (Notice.isUnknownType declaration.name) = [] := by
          apply filter_isUnknownType_eq_nil
          intro other hother
          have hmem : declaration ∈ rest.filterMap declaration? :=
            List.mem_filterMap.mpr ⟨_, hmem, rfl⟩
          exact ne_of_sameName_eq_false (hapart _
            (List.mem_map_of_mem (Option.mem_toList.mpr hother)) _ (List.mem_map_of_mem hmem))
        rw [hfirst, List.nil_append]
        exact ih hrest hmem

end types

end Outcome

namespace TableBody

section account

variable {lexis : Lexis} {parts : List Text} {outcomes : List Outcome}
  (houtcomes : ∀ (i : Nat) outcome, outcomes[i]? = some outcome ↔
    ∃ part, parts[i]? = some part ∧ Outcome.Yields lexis (parts.take i) part outcome)
include houtcomes

/-- Two accepted columns of one name come of one part. -/
theorem eq_of_sameName {i j : Nat} {first second : Clause.Declaration}
    (hfirst : outcomes[i]? = some (.column first))
    (hsecond : outcomes[j]? = some (.column second))
    (hsame : sameName first.name second.name = true) : i = j := by
  have hle : ∀ {i j : Nat} {first second : Clause.Declaration},
      outcomes[i]? = some (.column first) → outcomes[j]? = some (.column second) →
        sameName first.name second.name = true → j ≤ i := by
    intro i j first second hfirst hsecond hsame
    by_contra hlt
    obtain ⟨part, hpart, hyields⟩ := (houtcomes i _).mp hfirst
    obtain ⟨other, _, hyields'⟩ := (houtcomes j _).mp hsecond
    have hearlier : part ∈ parts.take j := by
      rw [← List.getElem?_take_of_lt (Nat.lt_of_not_le hlt)] at hpart
      exact List.mem_of_getElem? hpart
    rw [sameName_comm, hyields'.new part hearlier first.name hyields.declares] at hsame
    contradiction
  exact Nat.le_antisymm (hle hsecond hfirst (by rwa [sameName_comm]))
    (hle hfirst hsecond hsame)

/-- The columns that outcomes make part of the primary key are those that a key of the
table lists and those whose own part declares one. -/
theorem any_keyColumns_iff {i : Nat} {part : Text} {declaration : Clause.Declaration}
    (hpart : parts[i]? = some part) (houtcome : outcomes[i]? = some (.column declaration)) :
    (outcomes.flatMap Outcome.keyColumns).any (sameName declaration.name) = true ↔
      (∃ other ∈ parts, ∃ listed, Clause.IsPrimaryKey other listed ∧
        ∃ key ∈ listed, sameName declaration.name key = true) ∨
      Clause.HasKeyWords lexis part := by
  rw [List.any_eq_true]
  constructor
  · rintro ⟨key, hkey, hsame⟩
    obtain ⟨outcome, hmem, hkey⟩ := List.mem_flatMap.mp hkey
    obtain ⟨j, hj⟩ := List.getElem?_of_mem hmem
    obtain ⟨other, hother, hyields⟩ := (houtcomes j outcome).mp hj
    cases outcome with
    | links | passed | repeated | discarded => contradiction
    | keys listed =>
        exact Or.inl ⟨other, List.mem_of_getElem? hother, listed, hyields.isPrimaryKey, key,
          hkey, hsame⟩
    | column second =>
        simp only [Outcome.keyColumns] at hkey
        split at hkey
        · next hwords =>
            obtain rfl := List.mem_singleton.mp hkey
            obtain rfl := eq_of_sameName houtcomes houtcome hj hsame
            rw [hpart] at hother
            obtain rfl := Option.some.inj hother
            exact Or.inr (hyields.isKey_iff.mp hwords)
        · contradiction
  · rintro (⟨other, hother, listed, hlisted, key, hkey, hsame⟩ | hwords)
    · obtain ⟨j, hj⟩ := List.getElem?_of_mem hother
      have hkeys := (houtcomes j _).mpr ⟨other, hj, .keys hlisted⟩
      exact ⟨key, List.mem_flatMap.mpr ⟨_, List.mem_of_getElem? hkeys, hkey⟩, hsame⟩
    · obtain ⟨own, hown, hyields⟩ := (houtcomes i _).mp houtcome
      rw [hpart] at hown
      obtain rfl := Option.some.inj hown
      refine ⟨declaration.name,
        List.mem_flatMap.mpr ⟨_, List.mem_of_getElem? houtcome, ?_⟩, sameName_refl _⟩
      rw [Outcome.keyColumns, if_pos (hyields.isKey_iff.mpr hwords)]
      exact List.mem_singleton_self _

end account

/-- The loop over the parts of a body accounts for all of them. -/
theorem account_ofClauses (lexis : Lexis) (name : Text) (parts : List Text) :
    let outcomes := Outcome.ofClauses [] (parts.map (Clause.read lexis))
    Account lexis name parts outcomes (ofOutcomes name outcomes) := by
  intro outcomes
  obtain ⟨hlength, houtcomes⟩ := Outcome.getElem?_ofClauses lexis Outcome.seen_nil parts
  have hyields := Outcome.forall₂_yields lexis Outcome.seen_nil parts
  have hdistinct := (Outcome.distinct_declared [] (parts.map (Clause.read lexis))).1
  exact {
    length := hlength
    outcome := houtcomes
    declaring := fun _ _ => Clause.isDeclaring_iff_mayDeclare
    name := rfl
    columns := List.map_map
    keys := by
      intro i part declaration hpart houtcome column hcolumn hname
      obtain ⟨other, _, rfl⟩ := List.mem_map.mp hcolumn
      dsimp only at hname ⊢
      rw [hname]
      exact any_keyColumns_iff houtcomes hpart houtcome
    relationships := by
      simp only [ofOutcomes, List.map_flatMap, Outcome.map_foreignLinks]
    notices := rfl
    types := fun declaration hmem => Outcome.filter_isUnknownType name hdistinct hmem
    discarded := Outcome.filter_isDiscardedClause hyields name
    counted := by
      have hcolumns : (ofOutcomes name outcomes).table.columns.length =
          (outcomes.filterMap Outcome.declaration?).length := List.length_map _
      rw [hcolumns]
      exact Outcome.length_filter_isDeclaring hyields name }

end TableBody

namespace Schema

/-- No part of a table's body is lost.  Each has one outcome: a part that is neither the
key of a table nor an index clause is a column, repeats one, or is reported as it stands.
The columns, relationships and notices come in the order of the parts, and the first part
that declares a name wins. -/
theorem addTable_account (dialect : Dialect) {schema : Schema} {name : Text}
    (hfresh : schema.table? name = none) (body : Text) :
    ∃ outcomes read, TableBody.Account dialect.literalLexis name
        (TableBody.clauseTexts dialect body) outcomes read ∧
      schema.addTable dialect name body =
        ⟨⟨schema.tables ++ [read.table], schema.relationships ++ read.relationships⟩, true,
          read.notices⟩ := by
  refine ⟨_, _, TableBody.account_ofClauses dialect.literalLexis name _, ?_⟩
  rw [addTable, if_neg (by simp [hfresh])]
  rfl

/-- Six parts that may declare a column: four do, one repeats a column, and one has no type.
The keys of the table stand in front of the columns they list and behind them. -/
theorem addTable_account_mixed :
    let body := ("PRIMARY KEY (`A`, b(4)), id INT PRIMARY KEY, a INT REFERENCES u(x), b TEXT, " ++
      "Id TEXT, g geo, x, KEY k (id), FOREIGN KEY (g, id) REFERENCES s.v (p, `q`)").toList
    Schema.empty.addTable .mysql "t".toList body =
        ⟨⟨[⟨"t".toList, [⟨"id".toList, .int, true, true⟩, ⟨"a".toList, .int, true, true⟩,
            ⟨"b".toList, .varchar, true, false⟩, ⟨"g".toList, .varchar, false, true⟩]⟩],
          [⟨"t".toList, "a".toList, "u".toList, "x".toList⟩,
            ⟨"t".toList, "g".toList, "v".toList, "p".toList⟩,
            ⟨"t".toList, "id".toList, "v".toList, "q".toList⟩]⟩, true,
          [.repeatedColumn "t".toList "Id".toList,
            .unknownType "t".toList "g".toList "geo".toList,
            .discardedClause "t".toList "x".toList]⟩ ∧
      ((TableBody.clauseTexts .mysql body).filter Clause.isDeclaring).length = 4 + 1 + 1 := by
  intro body
  have hfresh : Schema.empty.table? "t".toList = none := rfl
  obtain ⟨outcomes, read, haccount, hadd⟩ := addTable_account .mysql hfresh body
  have hvalue : Schema.empty.addTable .mysql "t".toList body =
      ⟨⟨[⟨"t".toList, [⟨"id".toList, .int, true, true⟩, ⟨"a".toList, .int, true, true⟩,
          ⟨"b".toList, .varchar, true, false⟩, ⟨"g".toList, .varchar, false, true⟩]⟩],
        [⟨"t".toList, "a".toList, "u".toList, "x".toList⟩,
          ⟨"t".toList, "g".toList, "v".toList, "p".toList⟩,
          ⟨"t".toList, "id".toList, "v".toList, "q".toList⟩]⟩, true,
        [.repeatedColumn "t".toList "Id".toList,
          .unknownType "t".toList "g".toList "geo".toList,
          .discardedClause "t".toList "x".toList]⟩ := by
    decide +kernel
  have hcount := haccount.counted
  rw [hvalue] at hadd
  obtain ⟨hschema, _, hnotices⟩ := Addition.mk.inj hadd
  obtain ⟨htable, _⟩ := List.cons.inj (Schema.mk.inj hschema).1
  rw [← htable, ← hnotices] at hcount
  exact ⟨hvalue, hcount⟩

/-- A length in a list hides the columns behind it: the list of a key ends at the bracket
that closes the length. -/
theorem addTable_listed_ne :
    ¬ ∀ body : Text, ∀ table ∈ (Schema.empty.addTable .mysql "t".toList body).schema.tables,
      ∀ column ∈ table.columns,
        (∃ part ∈ TableBody.clauseTexts .mysql body, ∃ listed,
          Clause.ListsKey Dialect.mysql.literalLexis part listed ∧
            ∃ key ∈ listed, sameName column.name key = true) →
        column.isPrimaryKey = true := by
  intro h
  have hwords : Clause.OpensPrimaryKey "PRIMARY KEY (".toList :=
    ⟨"PRIMARY ".toList, "KEY".toList, " ".toList, [], rfl,
      ⟨"PRIMARY".toList, " ".toList, rfl, by decide, by decide, by decide⟩, by decide,
      by decide, Or.inl rfl⟩
  have hlists : Clause.ListsKey Dialect.mysql.literalLexis "PRIMARY KEY (a(10), b)".toList
      ["a".toList, "b".toList] :=
    ⟨Clause.contains_leadingWord_iff.mp (by decide), [], "PRIMARY KEY (".toList,
      "a(10), b".toList, [], rfl, hwords, by decide, Clause.listNames_iff.mpr (by decide)⟩
  have hadded : (Schema.empty.addTable .mysql "t".toList
      "a VARCHAR(20), b INT, PRIMARY KEY (a(10), b)".toList).schema.tables =
        [⟨"t".toList,
          [⟨"a".toList, .varchar, true, false⟩, ⟨"b".toList, .int, false, false⟩]⟩] := by
    decide +kernel
  have hkey := h "a VARCHAR(20), b INT, PRIMARY KEY (a(10), b)".toList _
    (hadded ▸ List.mem_singleton_self _) ⟨"b".toList, .int, false, false⟩ (by decide)
    ⟨_, by decide +kernel, _, hlists, "b".toList, by decide, by decide⟩
  contradiction

end Schema

end DdlDiagram
