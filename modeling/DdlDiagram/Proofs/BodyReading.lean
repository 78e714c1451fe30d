/-
How the body of a printed definition is read.  It is cut into the clauses that it
was made of, each of them has one outcome, and together the outcomes amount to the
table and the relationships that the draft describes.
-/
import DdlDiagram.Proofs.ClauseReading
import DdlDiagram.TableBody
import Mathlib.Data.List.Pairwise

namespace DdlDiagram

open Text

namespace Lexis

variable {lexis : Lexis}

/-- Pieces that are cut nowhere, with a comma and a newline between neighbours,
are cut where they were joined. -/
theorem cutParts_joined {first : Text} (hfirst : lexis.Reads false 0 first 0)
    {rest : List Text} (hrest : ∀ text ∈ rest, lexis.Reads false 0 text 0)
    {mode : Mode} (hmode : Outside mode) :
    cutParts 0 (lexis.trace mode (first ++ rest.flatMap (",\n".toList ++ ·))) =
      (first, rest.map ('\n' :: ·)) := by
  induction rest generalizing first mode with
  | nil =>
      have hcut := hfirst.parts rfl mode hmode []
      rw [List.append_nil] at hcut
      rw [List.flatMap_nil, List.append_nil]
      refine hcut.trans ?_
      rw [cutParts, List.append_nil, List.map_nil]
  | cons next rest ih =>
      have hnewline : lexis.Reads false 0 ['\n'] 0 :=
        (quiet_unmarked (by decide)).reads
      have hnext : lexis.Reads false 0 ('\n' :: next) 0 :=
        hnewline.append (hrest next List.mem_cons_self)
      have hothers : ∀ text ∈ rest, lexis.Reads false 0 text 0 := fun text htext =>
        hrest text (List.mem_cons_of_mem next htext)
      have hlater := ih hnext hothers (show Outside .code from Or.inl rfl)
      have hcode := (hfirst.outside mode hmode).inCode
      have hcomma : ∀ glyphs, cutParts 0 (⟨lexis.run mode first, ','⟩ :: glyphs) =
          ([], (cutParts 0 glyphs).1 :: (cutParts 0 glyphs).2) := by
        intro glyphs
        simp [cutParts, depthAfter, isSeparator, Glyph.isCode, hcode]
      have hshape : (next :: rest).flatMap (",\n".toList ++ ·) =
          ',' :: (('\n' :: next) ++ rest.flatMap (",\n".toList ++ ·)) := by
        simp
      rw [hshape, trace_append]
      refine (hfirst.parts rfl mode hmode _).trans ?_
      rw [trace_cons, step_eq_code hcode (Or.inr (Or.inr rfl)), Int.natCast_zero,
        hcomma, hlater, List.append_nil, List.map_cons]

theorem dropEmptyLast_eq_self {parts : List Text}
    (hparts : ∀ part ∈ parts, part ≠ []) : dropEmptyLast parts = parts := by
  fun_induction dropEmptyLast parts with
  | case1 => rfl
  | case2 part hempty =>
      have hnil : part = [] := List.isEmpty_iff.mp hempty
      exact absurd hnil (hparts part List.mem_cons_self)
  | case3 => rfl
  | case4 part next rest ih =>
      rw [ih fun other hother => hparts other (List.mem_cons_of_mem part hother)]

/-- Pieces without blanks around them are the parts of the body that joins
them. -/
theorem parts_joined {texts : List Text}
    (hreads : ∀ text ∈ texts, lexis.Reads false 0 text 0)
    (htrim : ∀ text ∈ texts, trim text = text)
    (hne : ∀ text ∈ texts, text ≠ []) :
    lexis.parts (joined ",\n".toList texts) = texts := by
  cases texts with
  | nil => rfl
  | cons first rest =>
      have hcut := cutParts_joined (hreads first List.mem_cons_self)
        (fun text htext => hreads text (List.mem_cons_of_mem first htext))
        (show Outside .code from Or.inl rfl)
      have hrest : (rest.map ('\n' :: ·)).map trim = rest := by
        calc
          (rest.map ('\n' :: ·)).map trim = rest.map id := by
            rw [List.map_map]
            apply List.map_congr_left
            intro text htext
            exact htrim text (List.mem_cons_of_mem first htext)
          _ = rest := List.map_id rest
      rw [parts, joined_cons, hcut]
      dsimp only
      rw [List.map_cons, hrest, htrim first List.mem_cons_self,
        dropEmptyLast_eq_self hne]

end Lexis

section clauses

variable (dialect : Dialect)

/-- A clause begins and ends with a word. -/
theorem ClauseDraft.exists_framed (draft : ClauseDraft) :
    ∃ left middle right, IsWord left ∧ IsWord right ∧
      draft.text dialect.plainSpelling = left ++ (middle ++ right) := by
  have hbracket : IsWord [')'] := by decide
  cases draft with
  | column draft =>
      rcases draft.default_cases dialect.backslashEscapes with
        hnone | ⟨content, hsome⟩
      · refine ⟨_, [' '], _, draft.name.isWord, draft.isWord_sized, ?_⟩
        change draft.clause dialect.plainSpelling = _
        rw [draft.clause_plain, hnone, List.append_nil]
        rfl
      · have hquote : IsWord ['\''] := by decide
        refine ⟨_, ' ' :: (draft.typeName ++ (draft.size.text ++
          ' ' :: ("DEFAULT".toList ++ ' ' :: '\'' ::
            escaped dialect.backslashEscapes content))), _, draft.name.isWord,
              hquote, ?_⟩
        change draft.clause dialect.plainSpelling = _
        rw [draft.clause_plain, hsome]
        simp [literalOf]
  | primaryKey columns =>
      have hword : "PRIMARY KEY (".toList = "PRIMARY".toList ++ " KEY (".toList := by
        decide
      refine ⟨"PRIMARY".toList, " KEY (".toList ++
        dialect.plainSpelling.names columns, _, by decide, hbracket, ?_⟩
      change "PRIMARY KEY (".toList ++ _ = _
      rw [hword]
      simp only [List.append_assoc]
  | foreignKey draft =>
      have hword : "FOREIGN KEY ".toList = "FOREIGN".toList ++ " KEY ".toList := by
        decide
      refine ⟨"FOREIGN".toList, " KEY ".toList ++ '(' ::
        (dialect.plainSpelling.names (draft.links.map Prod.fst) ++ ')' ::
          (" REFERENCES ".toList ++ draft.table.text ++ [' '] ++ '(' ::
            dialect.plainSpelling.names (draft.links.map Prod.snd))), _,
        by decide, hbracket, ?_⟩
      change draft.clause dialect.plainSpelling = _
      rw [draft.clause_plain, hword]
      simp only [List.append_assoc, List.cons_append]

theorem ClauseDraft.trim_text (draft : ClauseDraft) :
    trim (draft.text dialect.plainSpelling) =
      draft.text dialect.plainSpelling := by
  obtain ⟨left, middle, right, hleft, hright, htext⟩ :=
    draft.exists_framed dialect
  rw [htext]
  exact trim_framed hleft hright middle

theorem ClauseDraft.text_ne_nil (draft : ClauseDraft) :
    draft.text dialect.plainSpelling ≠ [] := by
  obtain ⟨left, middle, right, hleft, _, htext⟩ := draft.exists_framed dialect
  rw [htext]
  exact List.append_ne_nil_of_left_ne_nil hleft.1 _

/-- No clause of a draft is a primary key without columns. -/
theorem TableDraft.ne_of_mem_clauses {table : TableDraft} {draft : ClauseDraft}
    (hdraft : draft ∈ table.clauses) : draft ≠ .primaryKey [] := by
  rintro rfl
  rcases List.mem_append.mp hdraft with hcolumn | hkey
  · obtain ⟨column, _, heq⟩ := List.mem_map.mp hcolumn
    contradiction
  · rcases List.mem_append.mp hkey with hprimary | hforeign
    · by_cases hempty : table.primaryKey.isEmpty = true
      · rw [if_pos hempty] at hprimary
        contradiction
      · rw [if_neg hempty, List.mem_singleton] at hprimary
        apply hempty
        rw [← ClauseDraft.primaryKey.inj hprimary]
        rfl
    · obtain ⟨key, _, heq⟩ := List.mem_map.mp hforeign
      contradiction

/-- The body of a draft is cut into its clauses and they are read as what they
say. -/
theorem TableBody.clauses_body (table : TableDraft) :
    clauses dialect (table.body dialect.plainSpelling) =
      table.clauses.map ClauseDraft.meaning := by
  have hbody : dialect.lexis.Reads true 0 (table.body dialect.plainSpelling) 0 :=
    Lexis.reads_passage (table.passage_body dialect)
  have hparts : dialect.literalLexis.parts (table.body dialect.plainSpelling) =
      table.clauses.map (ClauseDraft.text dialect.plainSpelling) := by
    apply Lexis.parts_joined
    · intro text htext
      obtain ⟨draft, _, rfl⟩ := List.mem_map.mp htext
      exact Lexis.reads_passage (passage_clause dialect draft)
    · intro text htext
      obtain ⟨draft, _, rfl⟩ := List.mem_map.mp htext
      exact draft.trim_text dialect
    · intro text htext
      obtain ⟨draft, _, rfl⟩ := List.mem_map.mp htext
      exact draft.text_ne_nil dialect
  have hfilter : (table.clauses.map
      (ClauseDraft.text dialect.plainSpelling)).filter (fun part => !part.isEmpty) =
        table.clauses.map (ClauseDraft.text dialect.plainSpelling) := by
    rw [List.filter_eq_self]
    intro text htext
    obtain ⟨draft, _, rfl⟩ := List.mem_map.mp htext
    simpa using draft.text_ne_nil dialect
  rw [clauses, Lexis.withoutComments_of_reads hbody, hparts, hfilter,
    List.map_map]
  apply List.map_congr_left
  intro draft hdraft
  exact read_clause dialect (TableDraft.ne_of_mem_clauses hdraft)

end clauses

namespace ClauseDraft

/-- What comes of a clause whose column is new. -/
def outcome : ClauseDraft → Outcome
  | column draft => .column ⟨draft.name.text, draft.typeName, false, none⟩
  | primaryKey columns => .keys (columns.map Identifier.text)
  | foreignKey draft =>
      .links (draft.links.map fun (source, target) =>
        ⟨source.text, draft.table.text, target.text⟩)

/-- The columns that a clause declares. -/
def declared : ClauseDraft → List Text
  | column draft => [draft.name.text]
  | primaryKey _ | foreignKey _ => []

end ClauseDraft

namespace Outcome

/-- Where all columns are new, each clause has its outcome. -/
theorem ofClauses_meaning {seen : List Text} {drafts : List ClauseDraft}
    (hdistinct : DistinctNames (drafts.flatMap ClauseDraft.declared))
    (hseen : ∀ declared ∈ drafts.flatMap ClauseDraft.declared, ∀ name ∈ seen,
      sameName declared name = false) :
    ofClauses seen (drafts.map ClauseDraft.meaning) =
      drafts.map ClauseDraft.outcome := by
  induction drafts generalizing seen with
  | nil => rfl
  | cons draft rest ih =>
      cases draft with
      | primaryKey columns => exact congrArg (_ :: ·) (ih hdistinct hseen)
      | foreignKey draft => exact congrArg (_ :: ·) (ih hdistinct hseen)
      | column draft =>
          obtain ⟨hnew, hrest⟩ := List.pairwise_cons.mp hdistinct
          have hnone : seen.any (sameName draft.name.text) = false := by
            rw [List.any_eq_false]
            intro name hname
            rw [hseen _ List.mem_cons_self name hname]
            exact Bool.false_ne_true
          have hapart : ∀ declared ∈ rest.flatMap ClauseDraft.declared,
              ∀ name ∈ draft.name.text :: seen, sameName declared name = false := by
            intro declared hdeclared name hname
            rcases List.mem_cons.mp hname with rfl | hname
            · rw [sameName_comm]
              exact hnew declared hdeclared
            · exact hseen declared (List.mem_cons_of_mem _ hdeclared) name hname
          have hlater := ih hrest hapart
          rw [List.map_cons, List.map_cons, ClauseDraft.meaning, ofClauses,
            hnone, hlater]
          rfl

end Outcome

namespace TableDraft

variable (table : TableDraft)

/-- What the clauses of a table yield together. -/
theorem flatMap_clauses {α : Type} (yield : ClauseDraft → List α)
    (hnone : yield (.primaryKey []) = []) :
    table.clauses.flatMap yield =
      (table.columns.flatMap fun column => yield (.column column)) ++
        (yield (.primaryKey table.primaryKey) ++
          table.foreignKeys.flatMap fun key => yield (.foreignKey key)) := by
  have hprimary : (if table.primaryKey.isEmpty then []
      else [ClauseDraft.primaryKey table.primaryKey]).flatMap yield =
        yield (.primaryKey table.primaryKey) := by
    by_cases hempty : table.primaryKey.isEmpty = true
    · rw [if_pos hempty, List.isEmpty_iff.mp hempty, hnone]
      rfl
    · rw [if_neg hempty, List.flatMap_singleton]
  rw [clauses, List.flatMap_append, List.flatMap_append, hprimary,
    List.flatMap_map, List.flatMap_map]

theorem declared_clauses :
    table.clauses.flatMap ClauseDraft.declared =
      table.columns.map fun column => column.name.text := by
  rw [table.flatMap_clauses _ rfl]
  simp [ClauseDraft.declared, List.map_eq_flatMap]

theorem keyColumns_clauses :
    (table.clauses.map ClauseDraft.outcome).flatMap Outcome.keyColumns =
      table.primaryKey.map Identifier.text := by
  have hcolumns : (table.columns.flatMap fun column =>
      (ClauseDraft.column column).outcome.keyColumns) = [] :=
    List.flatMap_eq_nil_iff.mpr fun _ _ => rfl
  have hkeys : (table.foreignKeys.flatMap fun key =>
      (ClauseDraft.foreignKey key).outcome.keyColumns) = [] :=
    List.flatMap_eq_nil_iff.mpr fun _ _ => rfl
  rw [List.flatMap_map, table.flatMap_clauses _ rfl, hcolumns, hkeys,
    List.nil_append, List.append_nil]
  rfl

theorem foreignLinks_clauses :
    (table.clauses.map ClauseDraft.outcome).flatMap Outcome.foreignLinks =
      table.foreignKeys.flatMap fun key =>
        key.links.map fun (source, target) =>
          ⟨source.text, key.table.text, target.text⟩ := by
  have hcolumns : (table.columns.flatMap fun column =>
      (ClauseDraft.column column).outcome.foreignLinks) = [] :=
    List.flatMap_eq_nil_iff.mpr fun _ _ => rfl
  rw [List.flatMap_map, table.flatMap_clauses _ rfl, hcolumns, List.nil_append]
  rfl

/-- No clause of a draft gives a notice. -/
theorem notices_clauses (name : Text) :
    (table.clauses.map ClauseDraft.outcome).flatMap (Outcome.notices name) =
      [] := by
  rw [List.flatMap_map, table.flatMap_clauses _ rfl]
  simp [ClauseDraft.outcome, Outcome.notices, ColumnDraft.ofSqlName?_typeName]

theorem declarations_clauses :
    (table.clauses.map ClauseDraft.outcome).filterMap Outcome.declaration? =
      table.columns.map fun column =>
        ⟨column.name.text, column.typeName, false, none⟩ := by
  rw [List.filterMap_eq_flatMap_toList, List.flatMap_map,
    table.flatMap_clauses _ rfl]
  simp [ClauseDraft.outcome, Outcome.declaration?, List.map_eq_flatMap]

/-- Columns of a table whose names are the same up to letter case are named
alike. -/
theorem name_eq_of_sameName {column other : ColumnDraft}
    (hcolumn : column ∈ table.columns) (hother : other ∈ table.columns)
    (h : sameName column.name.text other.name.text = true) :
    column.name = other.name := by
  have hsymm : Std.Symm fun left right : Text => sameName left right = false :=
    ⟨fun left right h => by rw [sameName_comm]; exact h⟩
  have htext : column.name.text = other.name.text := by
    by_contra hne
    have hfalse := table.distinct.forall (List.mem_map_of_mem hcolumn)
      (List.mem_map_of_mem hother) hne
    rw [h] at hfalse
    contradiction
  exact Identifier.eq_of_text htext

/-- A column is found in the primary key when it is one of its columns. -/
theorem any_primaryKey {column : ColumnDraft} (hcolumn : column ∈ table.columns) :
    (table.primaryKey.map Identifier.text).any (sameName column.name.text) =
      table.primaryKey.contains column.name := by
  rw [Bool.eq_iff_iff, List.any_eq_true, List.contains_iff_mem]
  constructor
  · rintro ⟨name, hname, hsame⟩
    obtain ⟨key, hkey, rfl⟩ := List.mem_map.mp hname
    obtain ⟨other, hother, rfl⟩ := table.primary_declared key hkey
    rw [table.name_eq_of_sameName hcolumn hother hsame]
    exact hkey
  · intro hkey
    exact ⟨_, List.mem_map_of_mem hkey, sameName_refl _⟩

/-- A column is found in the foreign keys when one of them has it as a source. -/
theorem any_foreignLinks {column : ColumnDraft}
    (hcolumn : column ∈ table.columns) :
    (((table.clauses.map ClauseDraft.outcome).flatMap
        Outcome.foreignLinks).any fun link =>
          sameName column.name.text link.column) =
      table.foreignKeys.any fun key =>
        (key.links.map Prod.fst).contains column.name := by
  rw [foreignLinks_clauses, Bool.eq_iff_iff, List.any_eq_true, List.any_eq_true]
  constructor
  · rintro ⟨link, hlink, hsame⟩
    obtain ⟨key, hkey, hlink⟩ := List.mem_flatMap.mp hlink
    obtain ⟨⟨source, target⟩, hpair, rfl⟩ := List.mem_map.mp hlink
    obtain ⟨other, hother, hname⟩ := table.foreign_declared key hkey _ hpair
    change other.name = source at hname
    refine ⟨key, hkey, ?_⟩
    rw [List.contains_iff_mem]
    rw [← hname] at hsame hpair
    rw [table.name_eq_of_sameName hcolumn hother hsame]
    exact List.mem_map_of_mem hpair
  · rintro ⟨key, hkey, hsource⟩
    rw [List.contains_iff_mem] at hsource
    obtain ⟨⟨source, target⟩, hpair, hname⟩ := List.mem_map.mp hsource
    refine ⟨_, List.mem_flatMap.mpr ⟨key, hkey, List.mem_map_of_mem hpair⟩, ?_⟩
    rw [← hname]
    exact sameName_refl _

end TableDraft

/-- The body of a draft is read as the table and the relationships that the draft
describes, without a notice. -/
theorem TableBody.read_body (dialect : Dialect) (table : TableDraft) :
    read dialect table.name.text (table.body dialect.plainSpelling) =
      ⟨table.table, table.relationships, []⟩ := by
  have houtcomes : outcomes dialect (table.body dialect.plainSpelling) =
      table.clauses.map ClauseDraft.outcome := by
    have hdistinct : DistinctNames
        (table.clauses.flatMap ClauseDraft.declared) := by
      rw [table.declared_clauses]
      exact table.distinct
    rw [outcomes, clauses_body]
    exact Outcome.ofClauses_meaning hdistinct (by simp)
  have hcolumn : ∀ column ∈ table.columns,
      ({ name := column.name.text
         type := ColumnType.ofSqlName column.typeName
         isPrimaryKey := ((table.clauses.map ClauseDraft.outcome).flatMap
           Outcome.keyColumns).any (sameName column.name.text)
         isForeignKey := ((table.clauses.map ClauseDraft.outcome).flatMap
           Outcome.foreignLinks).any fun link =>
             sameName column.name.text link.column } : Column) =
        { name := column.name.text
          type := column.type
          isPrimaryKey := table.primaryKey.contains column.name
          isForeignKey := table.foreignKeys.any fun key =>
            (key.links.map Prod.fst).contains column.name } := by
    intro column hmem
    rw [table.any_foreignLinks hmem, table.keyColumns_clauses,
      table.any_primaryKey hmem, ColumnType.ofSqlName,
      column.ofSqlName?_typeName, Option.getD_some]
  have hrelationships : (((table.clauses.map ClauseDraft.outcome).flatMap
      Outcome.foreignLinks).map fun link => (⟨table.name.text, link.column,
        link.table, link.target⟩ : Relationship)) = table.relationships := by
    rw [table.foreignLinks_clauses, List.map_flatMap]
    simp only [List.map_map]
    rfl
  rw [read, houtcomes, ofOutcomes, hrelationships, table.declarations_clauses,
    table.notices_clauses, List.map_map]
  congr 2
  exact List.map_congr_left hcolumn

end DdlDiagram
