/-
How the column of a clause is spelled, and when a clause is one of an index.  A column is
its name, with or without quotes, and a word that begins with the letters of its type; an
index clause begins with a word of its own, and no type stands behind that word.
-/
import DdlDiagram.Proofs.ListedName

namespace DdlDiagram.Clause

open Text

/-- The letters of a type's name: not a word that is never one. -/
def IsTypeWord (letters : Text) : Prop :=
  letters ≠ [] ∧ (∀ c ∈ letters, c.isAlpha = true) ∧ upper letters ∉ reservedWords

/-- Letters that `VARYING` follows, which are the name of no type of fixed length then. -/
def Varies (letters behind : Text) : Prop :=
  (lower letters = "character".toList ∨ lower letters = "char".toList) ∧
    ∃ word rest, LeadsWord behind word rest ∧ "varying".toList <+: lower word

/-- A clause spells a column: its first word is the name, and its second begins with the
letters of the type. -/
def SpellsColumn (part name typeName : Text) : Prop :=
  ∃ quoted rest letters more behind, LeadsWord part quoted rest ∧ QuotedName quoted name ∧
    isColumnName name = true ∧ LeadsWord rest (letters ++ more) behind ∧
    IsTypeWord letters ∧ (∀ c ∈ more.head?, c.isAlpha = false) ∧
    (Varies letters behind ∧ typeName = "VARCHAR".toList ∨
      ¬ Varies letters behind ∧ typeName = letters)

/-- A type stands at the front of a text: its first word, up to a bracket that may open
behind it. -/
def LeadsType (text : Text) : Prop :=
  ∃ name length rest, LeadsWord text (name ++ length) rest ∧ '(' ∉ name ∧
    (∀ c ∈ length.head?, c = '(') ∧ (ColumnType.ofSqlName? name).isSome = true

/-- A clause of an index or of a named constraint: its first word, without quotes and what
a bracket opens, is one that such clauses begin with, and a bracket opens in it or no type
stands behind it. -/
def IsIndexClause (part : Text) : Prop :=
  (∃ word, EntryNames part word ∧ upper word ∈ indexWords) ∧
    ∃ first rest, LeadsWord part first rest ∧ ('(' ∈ first ∨ ¬ LeadsType rest)

variable {part name typeName letters behind text : Text}

theorem varies_iff :
    Varies letters behind ↔ (isCharacter letters && startsVarying behind) = true := by
  have hcharacter : isCharacter letters = true ↔
      lower letters = "character".toList ∨ lower letters = "char".toList := by
    simp [isCharacter]
  have hvarying : startsVarying behind = true ↔
      ∃ word rest, LeadsWord behind word rest ∧ "varying".toList <+: lower word := by
    rw [startsVarying, List.isPrefixOf_iff_prefix]
    constructor
    · intro hprefix
      refine ⟨_, _, leadsWord_iff.mpr ⟨fun hnone => ?_, rfl, rfl⟩, hprefix⟩
      rw [hnone] at hprefix
      have hle := hprefix.length_le
      contradiction
    · rintro ⟨word, rest, hword, hprefix⟩
      rwa [(leadsWord_iff.mp hword).2.1]
  rw [Varies, Bool.and_eq_true, hcharacter, hvarying]

theorem plainlyDeclared?_eq_some_iff : plainlyDeclared? part = some (name, letters) ↔
    unquoted (firstWord part) = name ∧ isColumnName name = true ∧
      (firstWord (afterWord part)).takeWhile Char.isAlpha = letters ∧ letters ≠ [] ∧
      upper letters ∉ reservedWords := by
  simp only [plainlyDeclared?]
  constructor
  · intro h
    split at h
    · contradiction
    · next hnone =>
        obtain ⟨rfl, rfl⟩ := Prod.mk.inj (Option.some.inj h)
        simpa [and_assoc] using hnone
  · rintro ⟨rfl, hname, rfl, hne, hreserved⟩
    rw [if_neg]
    simp [hname, hne, hreserved]

/-- A clause declares the column that it spells. -/
theorem declared?_eq_some_iff :
    declared? part = some (name, typeName) ↔ SpellsColumn part name typeName := by
  rw [declared?_eq, Option.map_eq_some_iff]
  constructor
  · rintro ⟨⟨_, letters⟩, hplain, heq⟩
    obtain ⟨rfl, htype⟩ := Prod.mk.inj heq
    obtain ⟨hquoted, hname, hletters, hne, hreserved⟩ := plainlyDeclared?_eq_some_iff.mp hplain
    have hsplit := List.takeWhile_append_dropWhile (p := Char.isAlpha)
      (l := firstWord (afterWord part))
    rw [hletters] at hsplit
    have hfirst : firstWord part ≠ [] := by
      intro hnone
      rw [hnone] at hquoted
      rw [← hquoted] at hname
      contradiction
    refine ⟨_, _, letters, _, _, leadsWord_iff.mpr ⟨hfirst, rfl, rfl⟩, quotedName_iff.mpr hquoted,
      hname, leadsWord_iff.mpr ⟨List.append_ne_nil_of_left_ne_nil hne _, hsplit.symm, rfl⟩,
      ⟨hne, fun c hc => List.mem_takeWhile_imp (hletters ▸ hc), hreserved⟩,
      stops_dropWhile Char.isAlpha _, ?_⟩
    rw [varies_iff]
    split at htype
    · next hvaries => exact Or.inl ⟨hvaries, htype.symm⟩
    · next hvaries => exact Or.inr ⟨hvaries, htype.symm⟩
  · rintro ⟨quoted, rest, letters, more, behind, hfirst, hquoted, hname, hsecond,
      ⟨hne, halpha, hreserved⟩, hmore, htype⟩
    obtain ⟨_, rfl, rfl⟩ := leadsWord_iff.mp hfirst
    obtain ⟨_, hword, rfl⟩ := leadsWord_iff.mp hsecond
    have hletters : (firstWord (afterWord part)).takeWhile Char.isAlpha = letters := by
      rw [hword]
      exact takeWhile_solid_append halpha hmore
    refine ⟨(name, letters), plainlyDeclared?_eq_some_iff.mpr
      ⟨quotedName_iff.mp hquoted, hname, hletters, hne, hreserved⟩, ?_⟩
    rw [varies_iff] at htype
    rcases htype with ⟨hvaries, rfl⟩ | ⟨hvaries, rfl⟩
    · dsimp only
      rw [if_pos hvaries]
    · dsimp only
      rw [if_neg hvaries]

theorem leadsType_iff :
    LeadsType text ↔ (ColumnType.ofSqlName? (before '(' (firstWord text))).isSome = true := by
  constructor
  · rintro ⟨name, length, rest, hword, hbracket, hlength, htype⟩
    rwa [(leadsWord_iff.mp hword).2.1, before_eq_iff.mpr ⟨length, rfl, hbracket, hlength⟩]
  · intro htype
    obtain ⟨length, hsplit, hbracket, hlength⟩ :=
      before_eq_iff.mp (rfl : before '(' (firstWord text) = _)
    have hne : firstWord text ≠ [] := by
      intro hnone
      rw [hnone] at htype
      contradiction
    exact ⟨_, length, _, leadsWord_iff.mpr ⟨hsplit ▸ hne, hsplit, rfl⟩, hbracket, hlength,
      htype⟩

/-- The index clauses are those that are read as such. -/
theorem isIndexClause_iff : IsIndexClause part ↔ isIndex part = true := by
  have hleading : (∃ word, EntryNames part word ∧ upper word ∈ indexWords) ↔
      indexWords.contains (leadingWord part) = true := by
    rw [List.contains_iff_mem]
    constructor
    · rintro ⟨word, hword, hmem⟩
      rwa [leadingWord, hword.unquoted_eq]
    · exact fun hmem => ⟨_, entryNames part, hmem⟩
  have hnotype : (ColumnType.ofSqlName? (before '(' ((words part)[1]?.getD []))).isNone = true ↔
      ¬ LeadsType (afterWord part) := by
    rw [leadsType_iff, getD_words_one]
    cases ColumnType.ofSqlName? (before '(' (firstWord (afterWord part))) <;> simp
  rw [IsIndexClause, isIndex, Bool.and_eq_true, Bool.or_eq_true, hleading, hnotype]
  simp only [List.contains_iff_mem]
  refine and_congr_right fun hwords => ?_
  constructor
  · rintro ⟨first, rest, hfirst, h⟩
    obtain ⟨_, rfl, rfl⟩ := leadsWord_iff.mp hfirst
    exact h
  · intro h
    refine ⟨_, _, leadsWord_iff.mpr ⟨fun hnone => ?_, rfl, rfl⟩, h⟩
    rw [leadingWord, hnone] at hwords
    contradiction

end DdlDiagram.Clause
