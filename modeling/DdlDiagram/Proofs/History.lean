/-
Histories of a schema.  Tables are added to an empty schema one after the other, and each
call finds what the calls in front of it left.  The schema lacks exactly the names that no
call has used, so the first definition of a name wins: a later one is told and changes
nothing, and what a table becomes does not depend on the tables that are there already.
-/
import DdlDiagram.Proofs.Joining

namespace DdlDiagram

open Text

/-- A table to add, the schema it is added to, and what that comes to. -/
structure Call where
  name : Text
  body : Text
  before : Schema
  result : Addition
deriving DecidableEq, Repr

namespace Call

/-- The table that a call adds. -/
def definition (call : Call) : Text × Text :=
  (call.name, call.body)

/-- Whether a call adds its table. -/
def added (call : Call) : Bool :=
  call.result.added

/-- What a call is among those made in front of it.  It adds its table when none of them
used the name; otherwise it changes nothing and tells so.  A table that is added stands
behind what was there, and is the one that an empty schema would be given. -/
structure FirstWins (dialect : Dialect) (earlier : List Call) (call : Call) : Prop where
  before : call.before = Schema.empty.addTables dialect (earlier.map definition)
  made : call.result = call.before.addTable dialect call.name call.body
  added_iff : call.added = true ↔
    ∀ other ∈ earlier, sameName other.name call.name = false
  repeated : call.added = false →
    call.result.schema = call.before ∧ call.result.notices = [.repeatedTable call.name]
  appended : call.added = true → ∃ table links,
    Schema.empty.addTable dialect call.name call.body =
        ⟨⟨[table], links⟩, true, call.result.notices⟩ ∧
      call.result.schema =
        ⟨call.before.tables ++ [table], call.before.relationships ++ links⟩

end Call

namespace Schema

/-- The calls that add tables of given names and bodies in order. -/
def calls (dialect : Dialect) (schema : Schema) : List (Text × Text) → List Call
  | [] => []
  | (name, body) :: rest =>
      let result := schema.addTable dialect name body
      ⟨name, body, schema, result⟩ :: calls dialect result.schema rest

/-- The schema of one definition alone. -/
def given (dialect : Dialect) (definition : Text × Text) : Schema :=
  (empty.addTable dialect definition.1 definition.2).schema

variable {dialect : Dialect} {schema : Schema} {name : Text}

theorem addTable_eq_of_lacks (h : schema.lacks name = true) (body : Text) :
    schema.addTable dialect name body =
      ⟨⟨schema.tables ++ (given dialect (name, body)).tables,
        schema.relationships ++ (given dialect (name, body)).relationships⟩, true,
          (empty.addTable dialect name body).notices⟩ := by
  have hnone : schema.table? name = none := Option.isNone_iff_eq_none.mp h
  rw [addTable, if_neg (by simp [hnone])]
  rfl

theorem addTable_eq_of_not_lacks (h : schema.lacks name = false) (body : Text) :
    schema.addTable dialect name body = ⟨schema, false, [.repeatedTable name]⟩ := by
  have hsome : (schema.table? name).isSome = true := by
    rw [← Option.not_isNone, ← lacks, h]
    rfl
  rw [addTable, if_pos hsome]

theorem added_addTable (dialect : Dialect) (schema : Schema) (name body : Text) :
    (schema.addTable dialect name body).added = schema.lacks name := by
  cases hlacks : schema.lacks name with
  | true => rw [addTable_eq_of_lacks hlacks]
  | false => rw [addTable_eq_of_not_lacks hlacks]

/-- Behind a call the schema lacks the names that it lacked, but for the one used. -/
theorem lacks_addTable (dialect : Dialect) (schema : Schema) (name body other : Text) :
    (schema.addTable dialect name body).schema.lacks other =
      (schema.lacks other && !sameName name other) := by
  cases hlacks : schema.lacks name with
  | true =>
      rw [addTable_of_lacks hlacks, Bool.eq_iff_iff, Bool.and_eq_true, lacks_iff, lacks_iff,
        Bool.not_eq_true']
      simp only [List.forall_mem_append, List.forall_mem_singleton, TableBody.read_table_name]
  | false =>
      rw [addTable_of_not_lacks hlacks]
      cases hsame : sameName name other with
      | false => simp
      | true => rw [← lacks_congr hsame, hlacks, Bool.false_and]

/-- After calls the schema lacks the names that it lacked and none of them used. -/
theorem lacks_addTables (dialect : Dialect) (schema : Schema)
    (definitions : List (Text × Text)) (name : Text) :
    (schema.addTables dialect definitions).lacks name = true ↔
      schema.lacks name = true ∧
        ∀ definition ∈ definitions, sameName definition.1 name = false := by
  induction definitions generalizing schema with
  | nil => simp [addTables]
  | cons definition rest ih =>
      have hrest := ih (schema.addTable dialect definition.1 definition.2).schema
      rw [lacks_addTable, Bool.and_eq_true, Bool.not_eq_true', and_assoc] at hrest
      rw [List.forall_mem_cons]
      exact hrest

theorem lacks_empty (name : Text) : empty.lacks name = true := rfl

theorem map_definition_calls (dialect : Dialect) (schema : Schema)
    (definitions : List (Text × Text)) :
    (schema.calls dialect definitions).map Call.definition = definitions := by
  induction definitions generalizing schema with
  | nil => rfl
  | cons definition rest ih => exact congrArg (definition :: ·) (ih _)

/-- Each call is made on what those in front of it left. -/
theorem calls_split {definitions : List (Text × Text)} {front back : List Call} {call : Call}
    (h : schema.calls dialect definitions = front ++ call :: back) :
    call.before = schema.addTables dialect (front.map Call.definition) ∧
      call.result = call.before.addTable dialect call.name call.body := by
  induction definitions generalizing schema front with
  | nil => simp [calls] at h
  | cons definition rest ih =>
      cases front with
      | nil =>
          obtain ⟨rfl, _⟩ := List.cons.inj h
          exact ⟨rfl, rfl⟩
      | cons first front =>
          obtain ⟨rfl, hrest⟩ := List.cons.inj h
          have hcall := ih hrest
          exact hcall

/-- The definitions whose calls added a table. -/
def kept (dialect : Dialect) (schema : Schema) (definitions : List (Text × Text)) :
    List (Text × Text) :=
  ((schema.calls dialect definitions).filter Call.added).map Call.definition

theorem kept_cons (dialect : Dialect) (schema : Schema) (definition : Text × Text)
    (rest : List (Text × Text)) :
    schema.kept dialect (definition :: rest) =
      (if schema.lacks definition.1 then [definition] else []) ++
        kept dialect (schema.addTable dialect definition.1 definition.2).schema rest := by
  have hadded : Call.added ⟨definition.1, definition.2, schema,
      schema.addTable dialect definition.1 definition.2⟩ = schema.lacks definition.1 :=
    added_addTable dialect schema definition.1 definition.2
  rw [kept, calls, List.filter_cons, hadded]
  split <;> rfl

/-- Calls that add nothing may be left out, and the tables that are added are those that
an empty schema would be given. -/
theorem addTables_kept (dialect : Dialect) (schema : Schema)
    (definitions : List (Text × Text)) :
    schema.addTables dialect (schema.kept dialect definitions) =
        schema.addTables dialect definitions ∧
      schema.addTables dialect definitions =
        ⟨schema.tables ++ (schema.kept dialect definitions).flatMap fun definition =>
            (given dialect definition).tables,
          schema.relationships ++ (schema.kept dialect definitions).flatMap fun definition =>
            (given dialect definition).relationships⟩ := by
  induction definitions generalizing schema with
  | nil => simp [kept, calls, addTables]
  | cons definition rest ih =>
      have hcons : ∀ more, schema.addTables dialect (definition :: more) =
          (schema.addTable dialect definition.1 definition.2).schema.addTables dialect more :=
        fun _ => rfl
      obtain ⟨hkept, hgiven⟩ := ih (schema.addTable dialect definition.1 definition.2).schema
      rw [kept_cons, hcons]
      cases hlacks : schema.lacks definition.1 with
      | true =>
          rw [if_pos rfl, List.singleton_append, hcons]
          refine ⟨hkept, hgiven.trans ?_⟩
          rw [addTable_eq_of_lacks hlacks, List.flatMap_cons, List.flatMap_cons,
            List.append_assoc, List.append_assoc]
      | false =>
          rw [addTable_of_not_lacks hlacks] at hkept hgiven ⊢
          exact ⟨hkept, hgiven⟩

/-- The first definition of a name wins, and nothing that was built changes.  Of any calls
on an empty schema each adds its table exactly when none in front of it used the name; one
that adds none leaves the schema and tells just that; one that does puts its table and its
relationships, which are those that an empty schema would be given, behind what was there.
So the calls that add nothing may be left out. -/
theorem addTables_firstWins (dialect : Dialect) (definitions : List (Text × Text)) :
    (empty.calls dialect definitions).map Call.definition = definitions ∧
    (∀ front call back, empty.calls dialect definitions = front ++ call :: back →
      call.FirstWins dialect front) ∧
    empty.addTables dialect (empty.kept dialect definitions) =
      empty.addTables dialect definitions ∧
    empty.addTables dialect definitions =
      ⟨(empty.kept dialect definitions).flatMap fun definition =>
          (given dialect definition).tables,
        (empty.kept dialect definitions).flatMap fun definition =>
          (given dialect definition).relationships⟩ := by
  obtain ⟨hkept, hgiven⟩ := addTables_kept dialect empty definitions
  refine ⟨map_definition_calls dialect empty definitions, ?_, hkept, hgiven⟩
  intro front call back hsplit
  obtain ⟨hbefore, hmade⟩ := calls_split hsplit
  have hadded : call.added = call.before.lacks call.name := by
    rw [Call.added, hmade, added_addTable]
  refine ⟨hbefore, hmade, ?_, fun hnot => ?_, fun hyes => ?_⟩
  · rw [hadded, hbefore, lacks_addTables, and_iff_right (lacks_empty call.name),
      List.forall_mem_map]
    rfl
  · rw [hmade, addTable_eq_of_not_lacks (hadded.symm.trans hnot)]
    exact ⟨rfl, rfl⟩
  · rw [hmade, addTable_eq_of_lacks (hadded.symm.trans hyes)]
    exact ⟨_, _, rfl, rfl⟩

/-- Three calls, the second with a name that the first has used: it tells so and is left
out, and the third adds its table and its relationship behind the first. -/
theorem addTables_firstWins_repeated :
    let definitions := [("a".toList, "x INT".toList), ("A".toList, "y INT".toList),
      ("b".toList, "z INT REFERENCES a(x)".toList)]
    (∃ first second third, empty.calls .mysql definitions = [first] ++ second :: [third] ∧
      second.added = false ∧ second.result.schema = second.before ∧
      second.result.notices = [.repeatedTable "A".toList]) ∧
    empty.addTables .mysql definitions =
      ⟨[⟨"a".toList, [⟨"x".toList, .int, false, false⟩]⟩,
          ⟨"b".toList, [⟨"z".toList, .int, false, true⟩]⟩],
        [⟨"b".toList, "z".toList, "a".toList, "x".toList⟩]⟩ := by
  intro definitions
  obtain ⟨_, hcalls, _, hgiven⟩ := addTables_firstWins .mysql definitions
  refine ⟨⟨_, _, _, rfl, by decide +kernel, ?_⟩, hgiven.trans (by decide +kernel)⟩
  exact (hcalls [_] _ [_] rfl).repeated (by decide +kernel)

end Schema

end DdlDiagram
