/-
The kinds of clauses.  A part of a body is the key of a table, an index clause, the
declaration of a column, or none of these; what it is read as follows from one answer
about each of them.
-/
import DdlDiagram.Clause.Basic

namespace DdlDiagram.Clause

variable {lexis : Lexis} {part name typeName : Text} {links : List Link} {columns : List Text}

/-- The key of a table stands behind a word that a key begins with: a foreign key of the
part or, where there is none, a primary key. -/
theorem tableKey?_eq_some_iff {clause : Clause} :
    tableKey? part = some clause ↔ keyWords.contains (leadingWord part) = true ∧
      ((∃ links, foreignKey? part = some links ∧ clause = .foreignKey links) ∨
        foreignKey? part = none ∧ ∃ columns, primaryKey? part = some columns ∧
          clause = .primaryKey columns) := by
  rw [tableKey?]
  split
  · next hleading =>
      rw [Option.or_eq_some_iff, Option.map_eq_none_iff, Option.map_eq_some_iff,
        Option.map_eq_some_iff, and_iff_right hleading]
      simp only [eq_comm (a := clause)]
  · next hleading =>
      constructor
      · intro h
        contradiction
      · exact fun h => absurd h.1 hleading

/-- The key of a table is a foreign key or a primary key of the part. -/
theorem tableKey?_cases {clause : Clause} (h : tableKey? part = some clause) :
    (∃ links, foreignKey? part = some links ∧ clause = .foreignKey links) ∨
      ∃ columns, primaryKey? part = some columns ∧ clause = .primaryKey columns :=
  (tableKey?_eq_some_iff.mp h).2.imp_right And.right

theorem tableKey?_of_foreignKey? (hleading : keyWords.contains (leadingWord part) = true)
    (hforeign : foreignKey? part = some links) :
    tableKey? part = some (.foreignKey links) :=
  tableKey?_eq_some_iff.mpr ⟨hleading, Or.inl ⟨links, hforeign, rfl⟩⟩

theorem tableKey?_of_primaryKey? (hleading : keyWords.contains (leadingWord part) = true)
    (hforeign : foreignKey? part = none) (hprimary : primaryKey? part = some columns) :
    tableKey? part = some (.primaryKey columns) :=
  tableKey?_eq_some_iff.mpr ⟨hleading, Or.inr ⟨hforeign, columns, hprimary, rfl⟩⟩

theorem tableKey?_of_none (hforeign : foreignKey? part = none)
    (hprimary : primaryKey? part = none) : tableKey? part = none := by
  rw [tableKey?, hforeign, hprimary]
  exact ite_self _

/-- A part that is neither the key of a table nor an index clause. -/
def isDeclaring (part : Text) : Bool :=
  (tableKey? part).isNone && !isIndex part

theorem isDeclaring_iff :
    isDeclaring part = true ↔ tableKey? part = none ∧ isIndex part = false := by
  rw [isDeclaring, Bool.and_eq_true, Option.isNone_iff_eq_none, Bool.not_eq_true']

theorem read_of_tableKey? {clause : Clause} (h : tableKey? part = some clause) :
    read lexis part = clause := by
  rw [read, h]

theorem read_of_isIndex (hkey : tableKey? part = none) (hindex : isIndex part = true) :
    read lexis part = .index := by
  rw [read, hkey]
  exact if_pos hindex

theorem read_of_declared? (hpart : isDeclaring part = true)
    (h : declared? part = some (name, typeName)) :
    read lexis part = .column ⟨name, typeName, declaresKey (lexis.blankLiterals part),
      reference? (lexis.blankLiterals part)⟩ := by
  obtain ⟨hkey, hindex⟩ := isDeclaring_iff.mp hpart
  rw [read, hkey]
  simp only [hindex, Bool.false_eq_true, if_false, Declaration.read?, h, Option.map_some]

theorem read_of_undeclared (hpart : isDeclaring part = true) (h : declared? part = none) :
    read lexis part = .unknown part := by
  obtain ⟨hkey, hindex⟩ := isDeclaring_iff.mp hpart
  rw [read, hkey]
  simp only [hindex, Bool.false_eq_true, if_false, Declaration.read?, h, Option.map_none]

end DdlDiagram.Clause
