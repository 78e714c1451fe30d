/-
What comes of each part of a body, said without the loop over them.  A part that is no
key of a table and no index clause either declares a column that no part in front of it
declares, or repeats one, or is reported.  The names that the loop has seen are those
that the parts in front declare, so what it makes of a part is what the part yields.
-/
import DdlDiagram.Proofs.ColumnSpelling
import DdlDiagram.Proofs.KeySpelling

namespace DdlDiagram

open Text

namespace Text

variable {name other : Text}

theorem sameName_congr (h : sameName name other = true) : sameName name = sameName other := by
  funext third
  rw [sameName, sameName, sameName_iff.mp h]

theorem ne_of_sameName_eq_false (h : sameName name other = false) : name ≠ other := by
  rintro rfl
  rw [sameName_refl] at h
  contradiction

end Text

namespace Clause

/-- A part that may declare a column: neither a key of the table nor an index clause. -/
def MayDeclare (part : Text) : Prop :=
  ¬ IsTableKey part ∧ ¬ IsIndexClause part

/-- A part declares a column of the given name. -/
def Declares (part name : Text) : Prop :=
  MayDeclare part ∧ ∃ typeName, SpellsColumn part name typeName

variable {part name : Text}

theorem isDeclaring_iff_mayDeclare : isDeclaring part = true ↔ MayDeclare part := by
  rw [isDeclaring_iff, MayDeclare, not_isTableKey_iff, isIndexClause_iff, Bool.not_eq_true]

theorem IsTableKey.isDeclaring_eq_false (h : IsTableKey part) : isDeclaring part = false := by
  rw [Bool.eq_false_iff]
  exact fun hpart => (isDeclaring_iff_mayDeclare.mp hpart).1 h

theorem IsIndexClause.isDeclaring_eq_false (h : IsIndexClause part) :
    isDeclaring part = false := by
  rw [Bool.eq_false_iff]
  exact fun hpart => (isDeclaring_iff_mayDeclare.mp hpart).2 h

/-- A part that spells no column declares none. -/
theorem declared?_eq_none_iff :
    declared? part = none ↔ ∀ name typeName, ¬ SpellsColumn part name typeName := by
  rw [Option.eq_none_iff_forall_ne_some]
  constructor
  · exact fun h name typeName hcolumn => h _ (declared?_eq_some_iff.mpr hcolumn)
  · exact fun h declared hdeclared => h _ _ (declared?_eq_some_iff.mp hdeclared)

theorem Declares.unique {other : Text} (h : Declares part name) (hother : Declares part other) :
    name = other := by
  obtain ⟨_, typeName, hname⟩ := h
  obtain ⟨_, otherType, hother⟩ := hother
  have hread := declared?_eq_some_iff.mpr hname
  rw [declared?_eq_some_iff.mpr hother] at hread
  exact (Prod.mk.inj (Option.some.inj hread)).1.symm

end Clause

namespace Outcome

/-- What comes of a part behind others. -/
inductive Yields (lexis : Lexis) (front : List Text) (part : Text) : Outcome → Prop
  | links {list : List Clause.Link} (hkey : Clause.IsForeignKey part list) :
      Yields lexis front part (.links list)
  | keys {columns : List Text} (hkey : Clause.IsPrimaryKey part columns) :
      Yields lexis front part (.keys columns)
  | passed (hkey : ¬ Clause.IsTableKey part) (hindex : Clause.IsIndexClause part) :
      Yields lexis front part .passed
  | column {name typeName : Text} {isKey : Bool} {reference : Option (Text × Text)}
      (hpart : Clause.MayDeclare part) (hcolumn : Clause.SpellsColumn part name typeName)
      (hnew : ∀ earlier ∈ front, ∀ other, Clause.Declares earlier other →
        sameName name other = false)
      (hkey : isKey = true ↔ Clause.HasKeyWords lexis part)
      (hreference : ∀ target, reference = some target ↔
        Clause.HasReference lexis part target) :
      Yields lexis front part (.column ⟨name, typeName, isKey, reference⟩)
  | repeated {name typeName earlier other : Text} (hpart : Clause.MayDeclare part)
      (hcolumn : Clause.SpellsColumn part name typeName)
      (hearlier : earlier ∈ front) (hother : Clause.Declares earlier other)
      (hsame : sameName name other = true) :
      Yields lexis front part (.repeated name)
  | discarded (hpart : Clause.MayDeclare part)
      (hnone : ∀ name typeName, ¬ Clause.SpellsColumn part name typeName) :
      Yields lexis front part (.discarded part)

variable {lexis : Lexis} {front seen : List Text}

/-- The names that are seen are those that the parts in front declare. -/
def Seen (front seen : List Text) : Prop :=
  ∀ name, seen.any (sameName name) = true ↔
    ∃ earlier ∈ front, ∃ other, Clause.Declares earlier other ∧ sameName name other = true

theorem seen_nil : Seen [] [] := by
  simp [Seen]

/-- Behind a part that declares no new name the same names are seen. -/
theorem Seen.append (h : Seen front seen) {part : Text}
    (hpart : ∀ name, Clause.Declares part name → seen.any (sameName name) = true) :
    Seen (front ++ [part]) seen := by
  intro name
  constructor
  · intro hname
    obtain ⟨earlier, hearlier, hother⟩ := (h name).mp hname
    exact ⟨earlier, List.mem_append_left _ hearlier, hother⟩
  · rintro ⟨earlier, hearlier, other, hother, hsame⟩
    rcases List.mem_append.mp hearlier with hearlier | hearlier
    · exact (h name).mpr ⟨earlier, hearlier, other, hother, hsame⟩
    · obtain rfl := List.mem_singleton.mp hearlier
      rw [sameName_congr hsame]
      exact hpart other hother

/-- Behind a part that declares nothing the same names are seen. -/
theorem Seen.append_of_not_declares (h : Seen front seen) {part : Text}
    (hpart : ∀ name, ¬ Clause.Declares part name) : Seen (front ++ [part]) seen :=
  h.append fun name hname => absurd hname (hpart name)

/-- Behind a part that declares a name that name is seen too. -/
theorem Seen.cons (h : Seen front seen) {part name : Text}
    (hpart : Clause.Declares part name) : Seen (front ++ [part]) (name :: seen) := by
  intro other
  rw [List.any_cons, Bool.or_eq_true, h other]
  constructor
  · rintro (hsame | ⟨earlier, hearlier, hother⟩)
    · exact ⟨part, by simp, name, hpart, hsame⟩
    · exact ⟨earlier, List.mem_append_left _ hearlier, hother⟩
  · rintro ⟨earlier, hearlier, third, hthird, hsame⟩
    rcases List.mem_append.mp hearlier with hearlier | hearlier
    · exact Or.inr ⟨earlier, hearlier, third, hthird, hsame⟩
    · obtain rfl := List.mem_singleton.mp hearlier
      obtain rfl := hthird.unique hpart
      exact Or.inl hsame

/-- The loop makes of a part what it yields, and sees the names of one part more then. -/
theorem Yields.step {part : Text} {outcome : Outcome} (hyields : Yields lexis front part outcome)
    (h : Seen front seen) :
    ∃ seen', Seen (front ++ [part]) seen' ∧
      ∀ rest, ofClauses seen (Clause.read lexis part :: rest) =
        outcome :: ofClauses seen' rest := by
  cases hyields with
  | links hforeign =>
      refine ⟨seen, h.append_of_not_declares fun name hname => hname.1.1 (.inl ⟨_, hforeign⟩),
        fun rest => ?_⟩
      rw [Clause.read_of_tableKey? (Clause.isForeignKey_iff.mp hforeign), ofClauses]
  | keys hprimary =>
      refine ⟨seen, h.append_of_not_declares fun name hname => hname.1.1 (.inr ⟨_, hprimary⟩),
        fun rest => ?_⟩
      rw [Clause.read_of_tableKey? (Clause.isPrimaryKey_iff.mp hprimary), ofClauses]
  | passed hkey hindex =>
      refine ⟨seen, h.append_of_not_declares fun name hname => hname.1.2 hindex,
        fun rest => ?_⟩
      rw [Clause.read_of_isIndex (Clause.not_isTableKey_iff.mp hkey)
        (Clause.isIndexClause_iff.mp hindex), ofClauses]
  | discarded hpart hnone =>
      refine ⟨seen, h.append_of_not_declares fun name hname => ?_, fun rest => ?_⟩
      · obtain ⟨typeName, hcolumn⟩ := hname.2
        exact hnone name typeName hcolumn
      · rw [Clause.read_of_undeclared (Clause.isDeclaring_iff_mayDeclare.mpr hpart)
          (Clause.declared?_eq_none_iff.mpr hnone), ofClauses]
  | @repeated name typeName earlier other hpart hcolumn hearlier hother hsame =>
      have hseen := (h name).mpr ⟨earlier, hearlier, other, hother, hsame⟩
      refine ⟨seen, h.append fun third hthird => ?_, fun rest => ?_⟩
      · rwa [hthird.unique ⟨hpart, typeName, hcolumn⟩]
      · rw [Clause.read_of_declared? (Clause.isDeclaring_iff_mayDeclare.mpr hpart)
          (Clause.declared?_eq_some_iff.mpr hcolumn), ofClauses, if_pos hseen]
  | @column name typeName isKey reference hpart hcolumn hnew hkey hreference =>
      have hseen : ¬ seen.any (sameName name) = true := by
        intro hseen
        obtain ⟨earlier, hearlier, other, hother, hsame⟩ := (h name).mp hseen
        rw [hnew earlier hearlier other hother] at hsame
        contradiction
      have hwords : isKey = Clause.declaresKey (lexis.blankLiterals part) := by
        rw [Bool.eq_iff_iff, hkey, Clause.declaresKey_blankLiterals_iff]
      have htarget : reference = Clause.reference? (lexis.blankLiterals part) := by
        ext target
        exact (hreference target).trans
          (Clause.reference?_blankLiterals_iff lexis part target).symm
      refine ⟨name :: seen, h.cons ⟨hpart, typeName, hcolumn⟩, fun rest => ?_⟩
      rw [Clause.read_of_declared? (Clause.isDeclaring_iff_mayDeclare.mpr hpart)
        (Clause.declared?_eq_some_iff.mpr hcolumn), ofClauses, if_neg hseen, hwords, htarget]

/-- Every part yields something. -/
theorem exists_yields (lexis : Lexis) (front : List Text) (part : Text) :
    ∃ outcome, Yields lexis front part outcome := by
  by_cases hkey : Clause.IsTableKey part
  · rcases hkey with ⟨links, hforeign⟩ | ⟨columns, hprimary⟩
    · exact ⟨_, .links hforeign⟩
    · exact ⟨_, .keys hprimary⟩
  by_cases hindex : Clause.IsIndexClause part
  · exact ⟨_, .passed hkey hindex⟩
  have hpart : Clause.MayDeclare part := ⟨hkey, hindex⟩
  by_cases hnone : ∀ name typeName, ¬ Clause.SpellsColumn part name typeName
  · exact ⟨_, .discarded hpart hnone⟩
  · push Not at hnone
    obtain ⟨name, typeName, hcolumn⟩ := hnone
    by_cases hnew : ∃ earlier ∈ front, ∃ other,
        Clause.Declares earlier other ∧ sameName name other = true
    · obtain ⟨earlier, hearlier, other, hother, hsame⟩ := hnew
      exact ⟨_, .repeated hpart hcolumn hearlier hother hsame⟩
    · refine ⟨_, .column hpart hcolumn (fun earlier hearlier other hother => ?_)
        (Clause.declaresKey_blankLiterals_iff lexis part)
        (Clause.reference?_blankLiterals_iff lexis part)⟩
      rw [Bool.eq_false_iff]
      exact fun hsame => hnew ⟨earlier, hearlier, other, hother, hsame⟩

/-- A part behind others yields one thing only. -/
theorem Yields.unique {part : Text} {outcome other : Outcome} (h : Seen front seen)
    (hyields : Yields lexis front part outcome) (hother : Yields lexis front part other) :
    other = outcome := by
  obtain ⟨_, _, hstep⟩ := hyields.step h
  obtain ⟨_, _, hstep'⟩ := hother.step h
  exact (List.cons.inj ((hstep' []).symm.trans (hstep []))).1

/-- The outcomes of the loop are those that the parts yield, one for each in order. -/
theorem getElem?_ofClauses (lexis : Lexis) (h : Seen front seen) (parts : List Text) :
    let outcomes := ofClauses seen (parts.map (Clause.read lexis))
    outcomes.length = parts.length ∧
      ∀ (i : Nat) outcome, outcomes[i]? = some outcome ↔
        ∃ part, parts[i]? = some part ∧ Yields lexis (front ++ parts.take i) part outcome := by
  induction parts generalizing front seen with
  | nil => simp [ofClauses]
  | cons part rest ih =>
      obtain ⟨first, hfirst⟩ := exists_yields lexis front part
      obtain ⟨seen', hseen', hstep⟩ := hfirst.step h
      obtain ⟨hlength, houtcomes⟩ := ih hseen'
      rw [List.map_cons, hstep]
      refine ⟨by simpa using hlength, fun i outcome => ?_⟩
      cases i with
      | zero =>
          constructor
          · intro houtcome
            obtain rfl : first = outcome := by simpa using houtcome
            exact ⟨part, rfl, by simpa using hfirst⟩
          · rintro ⟨other, hother, hyields⟩
            obtain rfl : part = other := by simpa using hother
            rw [List.take_zero, List.append_nil] at hyields
            rw [hfirst.unique h hyields]
            rfl
      | succ i =>
          rw [List.getElem?_cons_succ, houtcomes, List.getElem?_cons_succ, List.take_succ_cons,
            List.append_assoc, List.singleton_append]

/-- Part by part, what the loop makes of them is what they yield. -/
theorem forall₂_yields (lexis : Lexis) (h : Seen front seen) (parts : List Text) :
    List.Forall₂ (fun part outcome => ∃ front, Yields lexis front part outcome) parts
      (ofClauses seen (parts.map (Clause.read lexis))) := by
  induction parts generalizing front seen with
  | nil => exact .nil
  | cons part rest ih =>
      obtain ⟨first, hfirst⟩ := exists_yields lexis front part
      obtain ⟨seen', hseen', hstep⟩ := hfirst.step h
      rw [List.map_cons, hstep]
      exact .cons ⟨front, hfirst⟩ (ih hseen')

end Outcome

end DdlDiagram
