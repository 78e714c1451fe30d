/-
What the contents of string literals may change.  Texts that are the same but for them
have the same tables and relationships wherever a table is read from code; the notices
are the same as well, but for the clause that one repeats and for the offset of a body
that is not closed.
-/
import DdlDiagram.Extraction
import DdlDiagram.Proofs.PieceBody
import DdlDiagram.Proofs.PieceClause
import DdlDiagram.Proofs.PiecePlace
import Mathlib.Data.List.Forall2

namespace DdlDiagram

open Text

/-- Equal clauses, or two that say nothing. -/
inductive Clause.Alike : Clause → Clause → Prop
  | same (clause : Clause) : Alike clause clause
  | unknown (text text' : Text) : Alike (.unknown text) (.unknown text')

/-- Equal outcomes, or two discarded clauses. -/
inductive Outcome.Alike : Outcome → Outcome → Prop
  | same (outcome : Outcome) : Alike outcome outcome
  | discarded (clause clause' : Text) : Alike (.discarded clause) (.discarded clause')

/-- Equal notices, or two that differ in the clause that was discarded or in the offset
of the bracket that is not closed. -/
inductive Notice.Alike : Notice → Notice → Prop
  | same (notice : Notice) : Alike notice notice
  | discardedClause (table clause clause' : Text) :
      Alike (.discardedClause table clause) (.discardedClause table clause')
  | unclosedBody (table : Text) (offset offset' : Nat) :
      Alike (.unclosedBody table offset) (.unclosedBody table offset')

namespace Outcome

variable {α : Type} {left right : List Outcome}

/-- Clauses that are alike have outcomes that are alike. -/
theorem alike_ofClauses {clauses clauses' : List Clause}
    (h : List.Forall₂ Clause.Alike clauses clauses') (seen : List Text) :
    List.Forall₂ Alike (ofClauses seen clauses) (ofClauses seen clauses') := by
  induction h generalizing seen with
  | nil => exact .nil
  | @cons clause clause' rest rest' hclause hrest ih =>
      cases hclause with
      | unknown text text' => exact .cons (.discarded text text') (ih seen)
      | same =>
          cases clause with
          | foreignKey links => exact .cons (.same _) (ih seen)
          | primaryKey columns => exact .cons (.same _) (ih seen)
          | index => exact .cons (.same _) (ih seen)
          | unknown text => exact .cons (.same _) (ih seen)
          | column declaration =>
              rw [ofClauses, ofClauses]
              split
              · exact .cons (.same _) (ih seen)
              · exact .cons (.same _) (ih _)

/-- What does not depend on a clause that is discarded is the same. -/
theorem flatMap_eq_of_alike (h : List.Forall₂ Alike left right) {f : Outcome → List α}
    (hf : ∀ clause clause', f (discarded clause) = f (discarded clause')) :
    left.flatMap f = right.flatMap f := by
  induction h with
  | nil => rfl
  | cons hhead _ ih =>
      rw [List.flatMap_cons, List.flatMap_cons, ih]
      cases hhead with
      | same => rfl
      | discarded clause clause' => rw [hf clause clause']

theorem alike_notices (table : Text) (h : List.Forall₂ Alike left right) :
    List.Forall₂ Notice.Alike (left.flatMap (notices table))
      (right.flatMap (notices table)) := by
  apply List.rel_flatMap h
  intro outcome other halike
  cases halike with
  | same => exact List.forall₂_same.mpr fun notice _ => .same notice
  | discarded clause clause' => exact .cons (.discardedClause table clause clause') .nil

end Outcome

namespace TableBody

/-- Whether the clauses of a body are read from code, as far as literals could be
looked into. -/
def readsCode (dialect : Dialect) (body : Text) : Bool :=
  (clauseTexts dialect body).all fun clause =>
    Clause.keyInCode dialect.literalLexis clause &&
      Clause.typeInCode dialect.literalLexis clause

variable {dialect : Dialect} {pieces : List Piece}

theorem alike_clauses (h : Piece.Sound dialect.lexis .code pieces)
    (hcode : ∀ version, readsCode dialect (Piece.textOf version pieces) = true)
    (version other : Bool) :
    List.Forall₂ Clause.Alike (clauses dialect (Piece.textOf version pieces))
      (clauses dialect (Piece.textOf other pieces)) := by
  obtain ⟨parts, hparts, htexts⟩ := exists_clauseTexts h
  have hread : ∀ version, ∀ part ∈ parts,
      Clause.keyInCode dialect.literalLexis (Piece.textOf version part) = true ∧
        Clause.typeInCode dialect.literalLexis (Piece.textOf version part) = true := by
    intro version part hpart
    have hall := hcode version
    rw [readsCode, htexts version, List.all_map, List.all_eq_true] at hall
    exact Bool.and_eq_true_iff.mp (hall part hpart)
  rw [clauses_eq_map, clauses_eq_map, htexts version, htexts other, List.map_map,
    List.map_map, List.forall₂_map_left_iff, List.forall₂_map_right_iff,
    List.forall₂_same]
  intro part hpart
  rcases Clause.read_textOf (hparts part hpart) (fun version => (hread version part hpart).1)
    (fun version => (hread version part hpart).2) version other with
    hsame | ⟨⟨text, htext⟩, text', htext'⟩
  · rw [Function.comp_apply, Function.comp_apply, hsame]
    exact .same _
  · rw [Function.comp_apply, Function.comp_apply, htext, htext']
    exact .unknown text text'

/-- Outcomes that are alike amount to the same table and relationships. -/
theorem ofOutcomes_alike (name : Text) {left right : List Outcome}
    (h : List.Forall₂ Outcome.Alike left right) :
    (ofOutcomes name left).table = (ofOutcomes name right).table ∧
      (ofOutcomes name left).relationships = (ofOutcomes name right).relationships ∧
      List.Forall₂ Notice.Alike (ofOutcomes name left).notices
        (ofOutcomes name right).notices := by
  have hkeys := Outcome.flatMap_eq_of_alike h (f := Outcome.keyColumns) fun _ _ => rfl
  have hlinks := Outcome.flatMap_eq_of_alike h (f := Outcome.foreignLinks) fun _ _ => rfl
  have hdeclared : left.filterMap Outcome.declaration? =
      right.filterMap Outcome.declaration? := by
    rw [List.filterMap_eq_flatMap_toList, List.filterMap_eq_flatMap_toList]
    exact Outcome.flatMap_eq_of_alike h fun _ _ => rfl
  refine ⟨?_, ?_, Outcome.alike_notices name h⟩
  · simp only [ofOutcomes, hkeys, hlinks, hdeclared]
  · simp only [ofOutcomes, hlinks]

end TableBody

/-- Bodies that are made up of the same pieces add the same table. -/
theorem Schema.addTable_alike {dialect : Dialect} {pieces : List Piece}
    (schema : Schema) (name : Text) (h : Piece.Sound dialect.lexis .code pieces)
    (hcode : ∀ version, TableBody.readsCode dialect (Piece.textOf version pieces) = true)
    (version other : Bool) :
    (schema.addTable dialect name (Piece.textOf version pieces)).schema =
        (schema.addTable dialect name (Piece.textOf other pieces)).schema ∧
      List.Forall₂ Notice.Alike
        (schema.addTable dialect name (Piece.textOf version pieces)).notices
        (schema.addTable dialect name (Piece.textOf other pieces)).notices := by
  obtain ⟨htable, hrelationships, hnotices⟩ := TableBody.ofOutcomes_alike name
    (Outcome.alike_ofClauses (TableBody.alike_clauses h hcode version other) [])
  rw [addTable, addTable]
  split
  · exact ⟨rfl, .cons (.same _) .nil⟩
  · simp only [TableBody.read, TableBody.outcomes, htable, hrelationships, true_and]
    exact hnotices

/-- Whether the tables of a text are read from code. -/
def Dialect.readsCode (dialect : Dialect) (text : Text) : Bool :=
  (TableSite.all dialect.lexis text).all fun site =>
    site.closing.all fun closing =>
      TableBody.readsCode dialect (TableSite.body text site.opening closing)

namespace Extraction

variable {dialect : Dialect} {pieces : List Piece}

/-- The same sites add the same tables, one after the other. -/
theorem ofSites_alike (h : Piece.Sound dialect.lexis .code pieces)
    {sites : List TableSite} (hsites : ∀ site ∈ sites, Piece.IsSite dialect pieces site)
    (hcode : ∀ version, ∀ site ∈ sites, ∀ closing ∈ site.closing,
      TableBody.readsCode dialect (TableSite.body (Piece.textOf version pieces)
        (Piece.offsetAt version pieces site.opening)
        (Piece.offsetAt version pieces closing)) = true)
    (schema : Schema) (version other : Bool) :
    (ofSites dialect (Piece.textOf version pieces) schema
        (sites.map (TableSite.moved (Piece.offsetAt version pieces)))).schema =
      (ofSites dialect (Piece.textOf other pieces) schema
        (sites.map (TableSite.moved (Piece.offsetAt other pieces)))).schema ∧
    List.Forall₂ Notice.Alike
      (ofSites dialect (Piece.textOf version pieces) schema
        (sites.map (TableSite.moved (Piece.offsetAt version pieces)))).notices
      (ofSites dialect (Piece.textOf other pieces) schema
        (sites.map (TableSite.moved (Piece.offsetAt other pieces)))).notices := by
  induction sites generalizing schema with
  | nil => exact ⟨rfl, .nil⟩
  | cons site rest ih =>
      obtain ⟨hsite, hrest⟩ := List.forall_mem_cons.mp hsites
      have hlater := ih hrest fun version other hother =>
        hcode version other (List.mem_cons_of_mem site hother)
      obtain ⟨name, opening, closing⟩ := site
      cases closing with
      | none =>
          obtain ⟨hschema, hnotices⟩ := hlater schema
          exact ⟨hschema, .cons (.unclosedBody name _ _) hnotices⟩
      | some closing =>
          -- Both bodies are the texts of the pieces between the brackets.
          obtain ⟨inner, hinner, hbody⟩ := hsite.exists_body h rfl
          have hread : ∀ version,
              TableBody.readsCode dialect (Piece.textOf version inner) = true := by
            intro version
            rw [← hbody version]
            exact hcode version _ List.mem_cons_self closing rfl
          obtain ⟨hadded, haddedNotices⟩ :=
            schema.addTable_alike name hinner hread version other
          rw [← hbody version, ← hbody other] at hadded haddedNotices
          obtain ⟨hschema, hnotices⟩ := hlater (schema.addTable dialect name
            (TableSite.body (Piece.textOf other pieces)
              (Piece.offsetAt other pieces opening)
              (Piece.offsetAt other pieces closing))).schema
          simp only [List.map_cons, ofSites, TableSite.moved, Option.map_some, hadded]
          exact ⟨hschema, List.rel_append haddedNotices hnotices⟩

/-- Texts that are the same but for the contents of closed literals have the same
schema, and their notices are alike, wherever tables are read from code. -/
theorem ofText_sameCode {dialect : Dialect} {left right : Text}
    (h : dialect.SameCode left right) (hleft : dialect.readsCode left = true)
    (hright : dialect.readsCode right = true) :
    (ofText dialect left).schema = (ofText dialect right).schema ∧
      List.Forall₂ Notice.Alike (ofText dialect left).notices
        (ofText dialect right).notices := by
  obtain ⟨pieces, hsound, rfl, rfl⟩ := h.exists_pieces
  obtain ⟨sites, hsites, hall⟩ := Piece.exists_sites hsound
  rw [ofText, ofText, hall false, hall true]
  refine ofSites_alike hsound hsites ?_ Schema.empty false true
  have hread : ∀ version, dialect.readsCode (Piece.textOf version pieces) = true := by
    rintro (_ | _)
    · exact hleft
    · exact hright
  intro version site hsite closing hclosing
  have hsites := hread version
  rw [Dialect.readsCode, hall version, List.all_map, List.all_eq_true] at hsites
  have hbody := hsites site hsite
  simp only [Function.comp_apply, TableSite.moved, Option.mem_def.mp hclosing,
    Option.map_some, Option.all_some] at hbody
  exact hbody

/-- Contents that would end the table, declare keys, hold an escaped quote or spell a
foreign key outside their literals; the last clause is discarded and the last body is
not closed. -/
theorem ofText_sameCode_spelled :
    let left := "CREATE TABLE a (id INT DEFAULT 'x', c CHAR(1) DEFAULT 'y' ".toList ++
      "REFERENCES b(id), CONSTRAINT k FOREIGN KEY (c) REFERENCES b(id),\n".toList ++
      "CHECK (c <> 'z'), 'w');\nCREATE TABLE b (".toList
    let right := "CREATE TABLE a (id INT DEFAULT '), PRIMARY KEY (id), (', ".toList ++
      "c CHAR(1) DEFAULT 'it\\'s a PRIMARY KEY' ".toList ++
      "REFERENCES b(id), CONSTRAINT k FOREIGN KEY (c) REFERENCES b(id),\n".toList ++
      "CHECK (c <> 'FOREIGN KEY (c) REFERENCES d(e)'), '');\nCREATE TABLE b (".toList
    (Dialect.mysql.SameCode left right ∧ Dialect.mysql.readsCode left = true ∧
        Dialect.mysql.readsCode right = true) ∧
      (ofText .mysql left).schema = (ofText .mysql right).schema ∧
        List.Forall₂ Notice.Alike (ofText .mysql left).notices
          (ofText .mysql right).notices := by
  intro left right
  have hsame : Dialect.mysql.SameCode left right := by decide +kernel
  have hleft : Dialect.mysql.readsCode left = true := by decide +kernel
  have hright : Dialect.mysql.readsCode right = true := by decide +kernel
  exact ⟨⟨hsame, hleft, hright⟩, ofText_sameCode hsame hleft hright⟩

/-- The offset of a bracket that is not closed moves with the literals in front of it.
A key of a table is found in a literal that spells it, or takes its columns from one,
and a type varies with a word that begins in a literal. -/
theorem ofText_not_sameCode :
    let unclosed := fun contents : Text =>
      "CREATE TABLE a (x INT DEFAULT '".toList ++ contents ++
        "'); CREATE TABLE b (".toList
    let checked := fun contents : Text =>
      "CREATE TABLE t (a INT, CONSTRAINT c CHECK (a <> '".toList ++ contents ++
        "'));".toList
    let keyed := fun contents : Text =>
      "CREATE TABLE t (a INT, PRIMARY KEY ('".toList ++ contents ++ "'));".toList
    let typed := fun contents : Text =>
      "CREATE TABLE t (a CHAR(1)DEFAULT'".toList ++ contents ++ "');".toList
    let foreignKey := "FOREIGN KEY (a) REFERENCES u(b)".toList
    let entries := "x, a ,".toList
    let varying := "a varying".toList
    (Dialect.mysql.SameCode (unclosed []) (unclosed "lit".toList) ∧
        (ofText .mysql (unclosed [])).notices = [.unclosedBody "b".toList 50] ∧
        (ofText .mysql (unclosed "lit".toList)).notices =
          [.unclosedBody "b".toList 53]) ∧
      (Dialect.mysql.SameCode (checked []) (checked foreignKey) ∧
        (ofText .mysql (checked [])).schema ≠
          (ofText .mysql (checked foreignKey)).schema) ∧
      (Dialect.mysql.SameCode (keyed []) (keyed entries) ∧
        (ofText .mysql (keyed [])).schema ≠ (ofText .mysql (keyed entries)).schema) ∧
      Dialect.mysql.SameCode (typed []) (typed varying) ∧
        (ofText .mysql (typed [])).schema ≠ (ofText .mysql (typed varying)).schema := by
  decide +kernel

end Extraction

end DdlDiagram
