/-
What the readers of key phrases look at.  The keys of a column are looked for up to a
quote.  A key of a table is read up to a closing bracket, in front of which a quote may
stand; once it is read, it does not depend on what is behind that bracket.
-/
import DdlDiagram.Proofs.ClauseReading
import DdlDiagram.Proofs.ColumnReading
import DdlDiagram.Proofs.UpToQuote

namespace DdlDiagram

open Text

namespace Phrase

section leaving

variable {mark expected : Char} {recognise : Text → Option Text}
  {text inside name rest : Text}

theorem leaves_char (hne : mark ≠ expected) : Leaves mark (afterChar? expected) := by
  constructor
  · intro text h behind
    cases text with
    | nil => contradiction
    | cons c text =>
        by_cases hc : c = expected <;> simp [afterChar?, hc]
  · intro text rest h
    cases text with
    | nil => contradiction
    | cons c text =>
        by_cases hc : c = expected
        · rw [afterChar?, if_pos hc, Option.some.injEq] at h
          rw [h, hc, List.mem_cons]
          exact ⟨Or.inr, fun hmem => hmem.resolve_left hne⟩
        · rw [afterChar?, if_neg hc] at h
          contradiction

/-- A recogniser behind blanks. -/
theorem Leaves.trimStart (hmark : mark ∈ marks) (h : Leaves mark recognise) :
    Leaves mark fun text => recognise (trimStart text) := by
  constructor
  · intro text hmem behind
    obtain ⟨htrim, hleft⟩ := trimStart_append_of_mark hmark hmem behind
    rw [htrim]
    exact h.append hleft behind
  · intro text rest hrest
    obtain ⟨blanks, hblanks, hall⟩ := trimStart_split text
    refine (h.mem_iff hrest).trans ?_
    have hiff := mem_iff_of_unmarked hmark (unmarked_of_blanks hall) (Text.trimStart text)
    rw [← hblanks] at hiff
    exact hiff

/-- A quoted word and the blanks behind it. -/
theorem leaves_quotedWord (hmark : mark ∈ marks) :
    Leaves mark fun text => (quotedWord? text).map fun read => Text.trimStart read.2 := by
  constructor
  · intro text h behind
    obtain ⟨happend, hleaves⟩ := quotedWord?_append_of_mark hmark h
    simp only [happend behind, Option.map_map]
    apply Option.map_congr
    rintro ⟨word, rest⟩ hread
    exact (trimStart_append_of_mark hmark (hleaves word rest hread) behind).1
  · intro text rest h
    obtain ⟨⟨word, left⟩, hread, rfl⟩ := Option.map_eq_some_iff.mp h
    obtain ⟨front, rfl, hfront, _⟩ := quotedWord?_split hread
    obtain ⟨blanks, hblanks, hall⟩ := trimStart_split left
    have hunmarked := hfront.append (unmarked_of_blanks hall)
    have hiff := mem_iff_of_unmarked hmark hunmarked (Text.trimStart left)
    rw [List.append_assoc, ← hblanks] at hiff
    exact hiff

/-- What is asked behind a recogniser that leaves a quote. -/
theorem Leaves.stops {α : Type} {f : Text → Option α} (h : Leaves '\'' recognise)
    (hf : StopsAtQuote f) : StopsAtQuote fun text => (recognise text).bind f := by
  intro text hquote behind
  simp only [h.append hquote behind]
  cases hread : recognise text with
  | none => rfl
  | some rest => exact hf rest ((h.mem_iff hread).mpr hquote) behind

/-- What is asked behind a quoted word. -/
theorem StopsAtQuote.quotedWord {α : Type} {f : Text → Text → Option α}
    (h : ∀ word, StopsAtQuote (f word)) :
    StopsAtQuote fun text => (quotedWord? text).bind fun (word, rest) => f word rest := by
  intro text hquote behind
  obtain ⟨happend, hleaves⟩ := quotedWord?_append_of_mark quote_mem_marks hquote
  simp only [happend behind]
  cases hread : quotedWord? text with
  | none => rfl
  | some read => exact h read.1 read.2 (hleaves _ _ hread) behind

/-- What is asked behind a name and its bracket. -/
theorem StopsAtQuote.nameBeforeBracket {α : Type} {f : Text → Text → Option α}
    (h : ∀ name, StopsAtQuote (f name)) :
    StopsAtQuote fun text =>
      (nameBeforeBracket? text).bind fun (name, rest) => f name rest := by
  intro text hquote behind
  simp only [nameBeforeBracket?_append_of_mark quote_mem_marks hquote behind]
  cases hread : nameBeforeBracket? text with
  | none => rfl
  | some read =>
      obtain ⟨front, rfl, hfront, _⟩ := nameBeforeBracket?_split hread
      have hrest : '\'' ∈ read.2 := by
        rcases List.mem_append.mp hquote with hmem | hmem
        · exact absurd quote_mem_marks (hfront '\'' hmem)
        · exact (List.mem_cons.mp hmem).resolve_left (by decide)
      exact h read.1 read.2 hrest behind

theorem upToBracket?_split (h : upToBracket? text = some (inside, rest)) :
    text = inside ++ ')' :: rest ∧ inside ≠ [] ∧ ')' ∉ inside := by
  have hsplit := List.takeWhile_append_dropWhile (p := (· != ')')) (l := text)
  have hinside : ')' ∉ text.takeWhile (· != ')') := by
    intro hmem
    have := List.mem_takeWhile_imp hmem
    contradiction
  have hstop := stops_dropWhile (· != ')') text
  rw [upToBracket?] at h
  generalize text.takeWhile (· != ')') = taken at h hsplit hinside
  generalize text.dropWhile (· != ')') = left at h hsplit hstop
  rcases taken with _ | ⟨c, taken⟩
  · exact absurd h.symm (Option.some_ne_none _)
  rcases left with _ | ⟨d, left⟩
  · exact absurd h.symm (Option.some_ne_none _)
  obtain ⟨rfl, rfl⟩ := Prod.mk.inj (Option.some.inj h)
  have hd : d = ')' := by simpa using hstop d rfl
  subst hd
  exact ⟨hsplit.symm, List.cons_ne_nil _ _, hinside⟩

/-- What is read up to a bracket does not depend on what is behind. -/
theorem upToBracket?_behind (h : upToBracket? text = some (inside, rest))
    (behind : Text) :
    upToBracket? (text ++ behind) = some (inside, rest ++ behind) := by
  obtain ⟨rfl, hne, hinside⟩ := upToBracket?_split h
  rw [List.append_assoc, List.cons_append]
  exact upToBracket?_append hne hinside _

theorem mem_of_upToBracket? (h : upToBracket? text = some (inside, rest)) :
    ')' ∈ text := by
  rw [(upToBracket?_split h).1]
  simp

end leaving

end Phrase

namespace Clause

open Phrase

variable {text : Text}

/-- The text behind the bracket that opens the columns of a foreign key. -/
def afterForeignKey? (text : Text) : Option Text :=
  ((afterSpacedKeyword? "FOREIGN".toList text).bind (afterKeyword? "KEY".toList)).bind
    fun text => afterChar? '(' (((quotedWord? (trimStart text)).map
      fun read => trimStart read.2).getD (trimStart text))

theorem foreignKeyHere?_eq (text : Text) :
    foreignKeyHere? text = (afterForeignKey? text).bind fun text =>
      (upToBracket? text).bind fun (columns, text) =>
        (afterSpacedKeyword? "REFERENCES".toList (trimStart text)).bind fun text =>
          (nameBeforeBracket? text).bind fun (table, text) =>
            (upToBracket? text).bind fun (targets, _) =>
              some (List.zipWith (fun column target => ⟨column, table, target⟩)
                (columnNames columns) (columnNames targets)) := by
  rw [foreignKeyHere?, afterForeignKey?, Option.bind_assoc, Option.bind_assoc]
  rfl

theorem leaves_foreignKey : Leaves ')' afterForeignKey? :=
  ((leaves_spacedKeyword (by decide) (by decide)).bind
    (leaves_keyword (by decide) (by decide))).bind
      (((leaves_quotedWord (by decide)).optional
        (leaves_char (by decide))).trimStart (by decide))

/-- A foreign key that is read does not depend on what is behind. -/
theorem foreignKeyHere?_append {links : List Link} (h : foreignKeyHere? text = some links)
    (behind : Text) : foreignKeyHere? (text ++ behind) = some links := by
  have hmark : ')' ∈ marks := by decide
  have hreferences : Leaves ')' fun text =>
      afterSpacedKeyword? "REFERENCES".toList (trimStart text) :=
    (leaves_spacedKeyword hmark (by decide)).trimStart hmark
  rw [foreignKeyHere?_eq] at h ⊢
  obtain ⟨opened, hopened, h⟩ := Option.bind_eq_some_iff.mp h
  obtain ⟨⟨columns, listed⟩, hlisted, h⟩ := Option.bind_eq_some_iff.mp h
  obtain ⟨referring, hreferring, h⟩ := Option.bind_eq_some_iff.mp h
  obtain ⟨⟨table, named⟩, hnamed, h⟩ := Option.bind_eq_some_iff.mp h
  obtain ⟨⟨targets, rest⟩, htargets, h⟩ := Option.bind_eq_some_iff.mp h
  -- The bracket that ends the list of targets stands in every text that is passed on,
  -- which is all that the readers in front of it need.
  have hmemReferring : ')' ∈ referring := by
    obtain ⟨front, rfl, _⟩ := nameBeforeBracket?_split hnamed
    exact List.mem_append_right _ (List.mem_cons_of_mem _ (mem_of_upToBracket? htargets))
  have hmemListed := (hreferences.mem_iff hreferring).mp hmemReferring
  have hmemText := (leaves_foreignKey.mem_iff hopened).mp (mem_of_upToBracket? hlisted)
  rw [leaves_foreignKey.append hmemText, hopened, Option.map_some, Option.bind_some,
    upToBracket?_behind hlisted, Option.bind_some]
  have hbehind := hreferences.append hmemListed behind
  dsimp only at hbehind hreferring ⊢
  rw [hbehind, hreferring, Option.map_some, Option.bind_some,
    nameBeforeBracket?_append_of_mark hmark hmemReferring, hnamed, Option.map_some,
    Option.bind_some]
  dsimp only
  rw [upToBracket?_behind htargets]
  exact h

/-- The text behind the bracket that opens the columns of a primary key. -/
def afterPrimaryKey? (text : Text) : Option Text :=
  ((afterSpacedKeyword? "PRIMARY".toList text).bind (afterKeyword? "KEY".toList)).bind
    fun text => afterChar? '(' ((afterStorage? (trimStart text)).getD (trimStart text))

theorem primaryKeyHere?_eq (text : Text) :
    primaryKeyHere? text = (afterPrimaryKey? text).bind fun text =>
      (upToBracket? text).bind fun (columns, _) => some (columnNames columns) := by
  rw [primaryKeyHere?, afterPrimaryKey?, Option.bind_assoc, Option.bind_assoc]
  rfl

theorem leaves_primaryKey : Leaves ')' afterPrimaryKey? :=
  ((leaves_spacedKeyword (by decide) (by decide)).bind
    (leaves_keyword (by decide) (by decide))).bind
      ((((leaves_spacedKeyword (by decide) (by decide)).or
        (leaves_spacedKeyword (by decide) (by decide))).optional
          (leaves_char (by decide))).trimStart (by decide))

/-- A primary key that is read does not depend on what is behind. -/
theorem primaryKeyHere?_append {columns : List Text}
    (h : primaryKeyHere? text = some columns) (behind : Text) :
    primaryKeyHere? (text ++ behind) = some columns := by
  rw [primaryKeyHere?_eq] at h ⊢
  obtain ⟨opened, hopened, h⟩ := Option.bind_eq_some_iff.mp h
  obtain ⟨⟨listed, rest⟩, hlisted, h⟩ := Option.bind_eq_some_iff.mp h
  have hmem := (leaves_primaryKey.mem_iff hopened).mp (mem_of_upToBracket? hlisted)
  rw [leaves_primaryKey.append hmem, hopened, Option.map_some, Option.bind_some,
    upToBracket?_behind hlisted]
  exact h

/-- The words of a column's primary key are looked for up to a quote. -/
theorem stopsAtQuote_keyWordsHere? : StopsAtQuote keyWordsHere? := by
  have hends : StopsAtQuote fun text =>
      if text.head?.any isWordChar then none else some () := by
    intro text h behind
    dsimp only
    rw [List.head?_append_of_ne_nil _ (List.ne_nil_of_mem h)]
  exact (leaves_spacedKeyword (by decide) (by decide)).stops
    ((leaves_keyword (by decide) (by decide)).stops hends)

/-- The reference of a column is looked for up to a quote. -/
theorem stopsAtQuote_referenceHere? : StopsAtQuote referenceHere? := by
  have hclosing : ∀ table target : Text, StopsAtQuote fun text =>
      (afterChar? ')' (trimStart text)).bind fun _ => some (table, target) :=
    fun _ _ => ((leaves_char (by decide)).trimStart (by decide)).stops fun _ _ _ => rfl
  have htarget : ∀ table : Text, StopsAtQuote fun text =>
      (quotedWord? (trimStart text)).bind fun (target, text) =>
        (afterChar? ')' (trimStart text)).bind fun _ => some (table, target) :=
    fun table => StopsAtQuote.trimStart (StopsAtQuote.quotedWord (hclosing table))
  exact (leaves_spacedKeyword (by decide) (by decide)).stops
    (StopsAtQuote.nameBeforeBracket htarget)

end Clause

end DdlDiagram
