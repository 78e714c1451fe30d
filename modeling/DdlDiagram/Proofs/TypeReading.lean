/-
How the name of a known type is read.  In whatever letter case it is written, it is an
identifier, and the letters in front of its digits name the same type; no word that is
reserved names one.
-/
import DdlDiagram.Proofs.ColumnReading
import DdlDiagram.Proofs.UpToQuote
import DdlDiagram.Proofs.WordSearch

namespace DdlDiagram

open Text

/-- The identifier is the name of a type, in any letter case. -/
def Identifier.Names (identifier : Identifier) (type : ColumnType) : Prop :=
  (asciiLower identifier.text, type) ∈ ColumnType.sqlNames

instance (identifier : Identifier) (type : ColumnType) :
    Decidable (identifier.Names type) :=
  inferInstanceAs (Decidable (_ ∈ _))

theorem asciiLower_takeWhile_isAlpha {text : Text}
    (htext : ∀ c ∈ text, isNameChar c = true) :
    asciiLower (text.takeWhile Char.isAlpha) = (asciiLower text).takeWhile Char.isAlpha := by
  induction text with
  | nil => rfl
  | cons c rest ih =>
      obtain ⟨hc, hrest⟩ := List.forall_mem_cons.mp htext
      have hsame : (c.toLower.isAlpha == c.isAlpha) = true :=
        forall_isNameChar (p := fun c => c.toLower.isAlpha == c.isAlpha)
          (by decide +kernel) hc
      rw [asciiLower, asciiLower, List.map_cons, List.takeWhile_cons, List.takeWhile_cons,
        beq_iff_eq.mp hsame]
      by_cases halpha : c.isAlpha = true
      · rw [if_pos halpha, if_pos halpha, List.map_cons]
        exact congrArg (c.toLower :: ·) (ih hrest)
      · rw [if_neg halpha, if_neg halpha, List.map_nil]

/-- Letters make an identifier. -/
theorem isIdentifier_of_isAlpha {text : Text} (hne : text ≠ [])
    (htext : ∀ c ∈ text, c.isAlpha = true) : isIdentifier text = true := by
  cases text with
  | nil => exact absurd rfl hne
  | cons c rest =>
      obtain ⟨hc, hrest⟩ := List.forall_mem_cons.mp htext
      have hdigit : (!c.isAlpha || !c.isDigit) = true :=
        forall_isNameChar (p := fun c => !c.isAlpha || !c.isDigit) (by decide +kernel)
          (isNameChar_of_isAlpha hc)
      rw [hc] at hdigit
      simp only [isIdentifier, Bool.and_eq_true, List.all_eq_true]
      exact ⟨⟨isNameChar_of_isAlpha hc, hdigit⟩,
        fun other hother => isNameChar_of_isAlpha (hrest other hother)⟩

namespace Identifier

variable {identifier : Identifier} {type : ColumnType}

theorem isWord_lower (identifier : Identifier) : IsWord (lower identifier.text) := by
  refine ⟨by simpa [lower] using identifier.ne_nil, fun c hc => ?_⟩
  rw [lower_eq_asciiLower fun c hc => identifier.isNameChar_of_mem hc] at hc
  obtain ⟨original, horiginal, rfl⟩ := List.mem_map.mp hc
  have hsolid : (!isBlank original.toLower) = true :=
    forall_isNameChar (p := fun c => !isBlank c.toLower) (by decide +kernel)
      (identifier.isNameChar_of_mem horiginal)
  simpa using hsolid

/-- An identifier is looked up as it stands, in lower case. -/
theorem ofSqlName?_text (identifier : Identifier) :
    ColumnType.ofSqlName? identifier.text =
      ColumnType.sqlNames.lookup (asciiLower identifier.text) := by
  have hbracket : '(' ∉ lower identifier.text :=
    Clause.bracket_not_mem_lower (identifier.not_mem_of_mem_marks (by decide))
  rw [ColumnType.ofSqlName?, trim_isWord identifier.isWord, Clause.before_of_not_mem hbracket,
    trim_isWord identifier.isWord_lower,
    lower_eq_asciiLower fun c hc => identifier.isNameChar_of_mem hc]

/-- The names of types are those that are found. -/
theorem ofSqlName?_eq_some_iff :
    ColumnType.ofSqlName? identifier.text = some type ↔ identifier.Names type := by
  have hall : ∀ entry ∈ ColumnType.sqlNames,
      ColumnType.sqlNames.lookup entry.1 = some entry.2 := by
    decide +kernel
  rw [ofSqlName?_text]
  constructor
  · intro h
    obtain ⟨front, back, hsplit, _⟩ := List.lookup_eq_some_iff.mp h
    rw [Names, hsplit]
    exact List.mem_append_right _ List.mem_cons_self
  · intro h
    exact hall _ h

namespace Names

variable (h : identifier.Names type)
include h

/-- No reserved word names a type. -/
theorem asciiLower_ne {word : Text} (hword : word ∈ Clause.reservedWords) :
    asciiLower identifier.text ≠ asciiLower word := by
  have hall : ∀ entry ∈ ColumnType.sqlNames, ∀ word ∈ Clause.reservedWords,
      entry.1 ≠ asciiLower word := by
    decide +kernel
  exact hall _ h word hword

theorem upper_ne {word : Text} (hword : word ∈ Clause.reservedWords) :
    upper identifier.text ≠ word :=
  DdlDiagram.upper_ne (fun _ hc => identifier.isNameChar_of_mem hc) (h.asciiLower_ne hword)

/-- No reserved word stands at the end of a type's name either. -/
theorem endsOtherwise {word : Text} (hword : word ∈ Clause.reservedWords) :
    Phrase.EndsOtherwise word identifier.text := by
  have hall : ∀ entry ∈ ColumnType.sqlNames, ∀ place ∈ entry.1.tails,
      place ∉ Clause.reservedWords.map asciiLower := by
    decide +kernel
  apply Phrase.endsOtherwise_identifier
  rintro place hplace rfl
  exact hall _ h _ hplace (List.mem_map_of_mem hword)

/-- No name of a type begins with the word `KEY`. -/
theorem afterKeyword?_key (behind : Text) :
    afterKeyword? "KEY".toList (identifier.text ++ behind) = none := by
  have hall : ∀ entry ∈ ColumnType.sqlNames, entry.1.head? ≠ some 'k' := by
    decide
  cases htext : identifier.text with
  | nil => exact absurd htext identifier.ne_nil
  | cons c rest =>
      have hchar : isNameChar c = true := identifier.isNameChar_of_mem (by simp [htext])
      have hc : foldCapital c ≠ 'K' := by
        intro heq
        have hlower := toLower_foldCapital hchar
        rw [heq] at hlower
        apply hall _ h
        rw [htext, asciiLower, List.map_cons, List.head?_cons, ← hlower]
        rfl
      change (if foldCapital c = 'K' then _ else none) = none
      rw [if_neg hc]

/-- The letters in front of a type's name are a name of the type. -/
theorem exists_letters :
    ∃ letters : Identifier, letters.text = identifier.text.takeWhile Char.isAlpha ∧
      letters.Names type := by
  have hall : ∀ entry ∈ ColumnType.sqlNames,
      (entry.1.takeWhile Char.isAlpha, entry.2) ∈ ColumnType.sqlNames := by
    decide +kernel
  have hne : ∀ entry ∈ ColumnType.sqlNames, entry.1.takeWhile Char.isAlpha ≠ [] := by
    decide +kernel
  have hlower := asciiLower_takeWhile_isAlpha fun c hc => identifier.isNameChar_of_mem hc
  have hvalid : isIdentifier (identifier.text.takeWhile Char.isAlpha) = true := by
    apply isIdentifier_of_isAlpha
    · intro hnil
      rw [hnil] at hlower
      exact hne _ h hlower.symm
    · intro c hc
      exact List.mem_takeWhile_imp hc
  refine ⟨⟨_, hvalid⟩, rfl, ?_⟩
  rw [Names, hlower]
  exact hall _ h

end Names

end Identifier

namespace Clause

/-- A column is declared by its name and the letters of a type's. -/
theorem declared?_of_names {clause first : Text} {identifier letters : Identifier}
    {others : List Text} {type : ColumnType}
    (hwords : words clause = first :: identifier.text :: others)
    (hcolumn : isColumnName (unquoted first) = true)
    (hletters : letters.text = identifier.text.takeWhile Char.isAlpha)
    (hnames : letters.Names type)
    (hnext : ∀ next ∈ others.head?, "varying".toList.isPrefixOf (lower next) = false) :
    declared? clause = some (unquoted first, letters.text) := by
  have hempty : letters.text.isEmpty = false := by
    simpa using letters.ne_nil
  have hreserved : reservedWords.contains (upper letters.text) = false := by
    rw [← Bool.not_eq_true, List.contains_iff_mem]
    intro hmem
    exact hnames.upper_ne hmem rfl
  have hvarying : isVarying letters.text others.head? = false := by
    cases hhead : others.head? with
    | none => simp [isVarying]
    | some next => rw [isVarying, Option.any_some, hnext next hhead, Bool.and_false]
  rw [declared?, hwords]
  dsimp only
  rw [← hletters, hcolumn, hempty, hreserved, hvarying]
  rfl

end Clause

end DdlDiagram
