/-
Messages are lines.  Whatever a text is, the names that its notices tell are words,
a type name is letters, and a clause is told by its words with single spaces between
them; so the only blanks of a message are spaces, and none of them ends the line.
-/
import DdlDiagram.CommandLine.Run
import DdlDiagram.Proofs.Accounting
import DdlDiagram.Proofs.DiagramLine
import DdlDiagram.Proofs.NameClass

namespace DdlDiagram

open Text

namespace Text

section lines

variable {text : Text}

theorem isLine_of_isWordChar (h : ∀ c ∈ text, isWordChar c = true) : IsLine text := by
  intro c hc hblank
  rw [isBlank_of_isWordChar (h c hc)] at hblank
  contradiction

theorem isLine_of_isAlpha (h : ∀ c ∈ text, c.isAlpha = true) : IsLine text :=
  isLine_of_isWordChar fun c hc => isWordChar_of_isNameChar (isNameChar_of_isAlpha (h c hc))

theorem isLine_decimal (count : Nat) : IsLine (decimal count) :=
  isLine_of_isWordChar fun _ hc =>
    isWordChar_of_isNameChar (isNameChar_of_isDigit (isDigit_of_mem_decimal hc))

/-- The word in front has no blanks, and those after it are words. -/
theorem isWord_of_cutWords (text : Text) :
    (∀ c ∈ (cutWords text).1, isBlank c = false) ∧
      ∀ word ∈ (cutWords text).2, IsWord word := by
  induction text with
  | nil => simp [cutWords]
  | cons c rest ih =>
      obtain ⟨hfront, hlater⟩ := ih
      by_cases hc : isBlank c = true
      · simp only [cutWords, hc, ↓reduceIte]
        refine ⟨by simp, ?_⟩
        split
        · exact hlater
        · next hne =>
            refine List.forall_mem_cons.mpr ⟨⟨?_, hfront⟩, hlater⟩
            simpa using hne
      · simp only [cutWords, hc, Bool.false_eq_true, ↓reduceIte]
        refine ⟨List.forall_mem_cons.mpr ⟨by simpa using hc, hfront⟩, hlater⟩

theorem isWord_of_mem_words {word : Text} (h : word ∈ words text) : IsWord word := by
  obtain ⟨hfront, hlater⟩ := isWord_of_cutWords text
  simp only [words] at h
  split at h
  · exact hlater word h
  · next hne =>
      rcases List.mem_cons.mp h with rfl | h
      · exact ⟨by simpa using hne, hfront⟩
      · exact hlater word h

end lines

end Text

namespace Notice

theorem isLine_preview (clause : Text) : IsLine (preview clause) := by
  have hflat : IsLine (joined [' '] (words clause)) :=
    isLine_joined fun _ hword => isWord_of_mem_words hword
  simp only [preview]
  split
  · exact (hflat.take _).append (by decide)
  · exact hflat

/-- A notice whose names are words and whose type name is letters. -/
def Named : Notice → Prop
  | unclosedBody table _ => IsWordName table
  | repeatedTable table => IsWordName table
  | repeatedColumn table column => IsWordName table ∧ IsPlainName column
  | discardedClause table _ => IsWordName table
  | unknownType table column typeName =>
      IsWordName table ∧ IsPlainName column ∧ ∀ c ∈ typeName, c.isAlpha = true

/-- The message of a notice about words is a line. -/
theorem Named.isLine_message {notice : Notice} (h : notice.Named) :
    IsLine notice.message := by
  cases notice with
  | unclosedBody table offset =>
      have htable : IsWordName table := h
      have hlead : IsLine "Skipped table '".toList := by decide
      exact ((hlead.append htable.isWord.isLine).append (by decide)).append
        (isLine_decimal offset)
  | repeatedTable table =>
      have htable : IsWordName table := h
      have hlead : IsLine "Skipped duplicate definition of table '".toList := by decide
      exact (hlead.append htable.isWord.isLine).append (by decide)
  | repeatedColumn table column =>
      obtain ⟨htable, hcolumn⟩ := h
      have hlead : IsLine "Skipped duplicate column ".toList := by decide
      exact ((hlead.append htable.isWord.isLine).append (by decide)).append
        hcolumn.isWord.isLine
  | discardedClause table clause =>
      have htable : IsWordName table := h
      have hlead : IsLine "Discarded clause in '".toList := by decide
      exact ((hlead.append htable.isWord.isLine).append (by decide)).append
        (isLine_preview clause)
  | unknownType table column typeName =>
      obtain ⟨htable, hcolumn, htype⟩ := h
      have hlead : IsLine "Unknown type '".toList := by decide
      have htyped := (hlead.append (isLine_of_isAlpha htype)).append
        (by decide : IsLine "' for ".toList)
      exact (((htyped.append htable.isWord.isLine).append (by decide)).append
        hcolumn.isWord.isLine).append (by decide)

end Notice

namespace Clause

/-- A type name that a clause declares is letters. -/
theorem isAlpha_of_declared? {clause name typeName : Text}
    (h : declared? clause = some (name, typeName)) :
    ∀ c ∈ typeName, c.isAlpha = true := by
  simp only [declared?] at h
  split at h
  · next first second others _ =>
      split at h
      · contradiction
      · split at h
        · obtain ⟨-, rfl⟩ := Prod.mk.inj (Option.some.inj h)
          decide
        · obtain ⟨-, rfl⟩ := Prod.mk.inj (Option.some.inj h)
          exact fun c hc => List.mem_takeWhile_imp hc
  · contradiction

end Clause

namespace Outcome

/-- An outcome that tells of plain names and of type names of letters. -/
def Named : Outcome → Prop
  | column declaration =>
      IsPlainName declaration.name ∧ ∀ c ∈ declaration.typeName, c.isAlpha = true
  | repeated name => IsPlainName name
  | _ => True

/-- What comes of a clause tells of what the clause declares. -/
theorem named_of_mem_ofClauses {seen : List Text} {clauses : List Clause}
    (hclauses : ∀ declaration, Clause.column declaration ∈ clauses →
      (column declaration).Named) {outcome : Outcome}
    (h : outcome ∈ ofClauses seen clauses) : outcome.Named := by
  obtain ⟨clause, hclause, hof⟩ := exists_clause_of_mem h
  cases hof with
  | links | keys | passed | discarded => exact trivial
  | column declaration => exact hclauses declaration hclause
  | repeated declaration => exact (hclauses declaration hclause).1

theorem Named.notices {outcome : Outcome} (h : outcome.Named) {table : Text}
    (htable : IsWordName table) {notice : Notice} (hnotice : notice ∈ outcome.notices table) :
    notice.Named := by
  cases outcome with
  | links | keys | passed => contradiction
  | repeated name =>
      rw [List.mem_singleton.mp hnotice]
      exact ⟨htable, h⟩
  | discarded clause =>
      rw [List.mem_singleton.mp hnotice]
      exact htable
  | column declaration =>
      simp only [Outcome.notices] at hnotice
      split at hnotice
      · rw [List.mem_singleton.mp hnotice]
        exact ⟨htable, h⟩
      · contradiction

end Outcome

theorem TableBody.named_notices (dialect : Dialect) {name : Text}
    (hname : IsWordName name) (body : Text) {notice : Notice}
    (h : notice ∈ (read dialect name body).notices) : notice.Named := by
  obtain ⟨outcome, houtcome, hnotice⟩ := List.mem_flatMap.mp h
  refine (Outcome.named_of_mem_ofClauses ?_ houtcome).notices hname hnotice
  intro declaration hdeclaration
  obtain ⟨part, _, hpart⟩ := List.mem_map.mp hdeclaration
  obtain ⟨⟨_, _⟩, hdeclared, rfl⟩ :=
    Option.map_eq_some_iff.mp (Clause.declaration_of_read hpart)
  exact ⟨Clause.isPlainName_of_read hpart, Clause.isAlpha_of_declared? hdeclared⟩

namespace Extraction

/-- Every notice of a text is about words. -/
theorem named_notices {dialect : Dialect} {text : Text} {notice : Notice}
    (h : notice ∈ (ofText dialect text).notices) : notice.Named := by
  rw [ofText_fates] at h
  obtain ⟨site, hsite, hnotice⟩ := List.mem_flatMap.mp h
  have hname := TableSite.isWordName_of_mem_all hsite
  simp only [TableSite.fate] at hnotice
  split at hnotice
  · rw [List.mem_singleton.mp hnotice]
    exact hname
  · split at hnotice
    · rw [List.mem_singleton.mp hnotice]
      exact hname
    · exact TableBody.named_notices dialect hname _ hnotice

/-- What a log may tell about a text are lines. -/
theorem isLine_debugMessages {dialect : Dialect} {sql message : Text}
    (h : message ∈ CommandLine.Rendering.debugMessages (ofSql dialect sql)) :
    IsLine message := by
  rcases List.mem_append.mp h with h | h
  · obtain ⟨notice, hnotice, rfl⟩ := List.mem_map.mp h
    exact (named_notices hnotice).isLine_message
  · obtain ⟨table, htable, rfl⟩ := List.mem_map.mp h
    have hname := (named_ofSql dialect sql).tables table htable
    have hlead : IsLine "table ".toList := by decide
    exact (((hlead.append hname.isWord.isLine).append (by decide)).append
      (isLine_decimal _)).append (by decide)

end Extraction

end DdlDiagram
