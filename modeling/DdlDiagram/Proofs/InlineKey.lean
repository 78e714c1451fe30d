/-
The key that a column's clause declares.  It is looked for in the clause with its
literals blanked, which keeps the characters outside them in their places and no word
inside: a phrase is found exactly where it stands at a word outside the literals.
-/
import DdlDiagram.Proofs.Blanking
import DdlDiagram.Proofs.KeyPlace
import DdlDiagram.Proofs.NameClass

namespace DdlDiagram

open Text Phrase

namespace Lexis

variable {lexis : Lexis} {mode : Mode} {c : Char}

/-- Outside literals a character stays, unless a quote waits in front of it. -/
theorem blanked_outside (hmode : mode.inLiteral = false) (hclosed : mode ≠ .closed) :
    lexis.blanked ⟨mode, c⟩ = [c] := by
  cases mode with
  | literal | escaped => contradiction
  | closed => exact absurd rfl hclosed
  | code | dash | slash | line | block | star => rfl

theorem step_outside_ne_closed (hmode : mode.inLiteral = false) :
    lexis.step mode c ≠ .closed := by
  cases mode with
  | literal | escaped => contradiction
  | code | closed | dash | slash | line | block | star =>
      simp only [step, afterCode]
      repeat' split
      all_goals simp

/-- Without a quote no literal begins. -/
theorem inLiteral_step (hmode : mode.inLiteral = false) (hc : c ≠ '\'') :
    (lexis.step mode c).inLiteral = false := by
  cases mode with
  | literal | escaped => contradiction
  | code | closed | dash | slash | line | block | star =>
      simp only [step, afterCode, if_neg hc]
      repeat' split
      all_goals rfl

/-- Inside a literal the characters become blanks. -/
theorem eq_of_mem_blanked (hmode : mode.inLiteral = true) {d : Char}
    (hd : d ∈ lexis.blanked ⟨mode, c⟩) : d = ' ' := by
  cases mode with
  | code | closed | dash | slash | line | block | star => contradiction
  | escaped => contradiction
  | literal =>
      simp only [blanked] at hd
      split at hd
      · contradiction
      · split at hd <;> simpa using hd

/-- A literal goes on, or a quote closes it. -/
theorem step_inLiteral (hmode : mode.inLiteral = true) :
    (lexis.step mode c).inLiteral = true ∨ lexis.step mode c = .closed ∧ c = '\'' := by
  cases mode with
  | code | closed | dash | slash | line | block | star => contradiction
  | escaped => exact Or.inl rfl
  | literal =>
      simp only [step]
      split
      · next hc => exact Or.inr ⟨rfl, hc⟩
      · split <;> exact Or.inl rfl

/-- What is known up to a quote is the same outside literals. -/
theorem eq_blankedFrom {α : Type} {f : Text → α} (hf : StopsAtQuote f)
    (hmode : mode.inLiteral = false) (hclosed : mode ≠ .closed) (front text : Text) :
    f (front ++ lexis.blankedFrom mode text) = f (front ++ text) := by
  induction text generalizing mode front with
  | nil => rw [blankedFrom, run_nil, if_neg hclosed]; rfl
  | cons c rest ih =>
      rw [blankedFrom_cons, blanked_outside hmode hclosed, List.singleton_append]
      by_cases hc : c = '\''
      · subst hc
        exact (hf.cut front _).trans (hf.cut front _).symm
      · have hstep : (lexis.step mode c).inLiteral = false := inLiteral_step hmode hc
        have hnext := ih hstep (step_outside_ne_closed hmode) (front ++ [c])
        rwa [List.append_assoc, List.append_assoc] at hnext

section search

/-- A place of a text is outside literals, and no character of a word precedes it; in front
of the text stands the given character. -/
def OutsideWord (lexis : Lexis) (mode : Mode) (before : Option Char) (front : Text) : Prop :=
  (lexis.run mode front).inLiteral = false ∧ (front.getLast?.or before).any isWordChar = false

variable {before previous : Option Char}

theorem outsideWord_nil : lexis.OutsideWord mode before [] ↔
    mode.inLiteral = false ∧ before.any isWordChar = false :=
  Iff.rfl

theorem outsideWord_cons : (fun front => lexis.OutsideWord mode before (c :: front)) =
    lexis.OutsideWord (lexis.step mode c) (some c) := by
  funext front
  have hlast : (c :: front).getLast?.or before = front.getLast?.or (some c) := by
    rw [List.getLast?_cons]
    cases front.getLast? <;> rfl
  rw [OutsideWord, OutsideWord, hlast, run_cons]

/-- Where a search of the blanked text stands when the text is read: at the same
character outside literals, and otherwise behind none that belongs to a word. -/
inductive SameWord : Mode → Option Char → Option Char → Prop
  | outside {mode : Mode} (hmode : mode.inLiteral = false) (hclosed : mode ≠ .closed)
      (previous : Option Char) : SameWord mode previous previous
  | literal {mode : Mode} {previous : Option Char} (hmode : mode.inLiteral = true)
      (hprevious : previous.any isWordChar = false) (before : Option Char) :
      SameWord mode previous before
  | closed {previous before : Option Char} (hprevious : previous.any isWordChar = false)
      (hbefore : before.any isWordChar = false) : SameWord .closed previous before

/-- Behind a character outside literals. -/
theorem SameWord.step_outside (hmode : mode.inLiteral = false) (c : Char) :
    SameWord (lexis.step mode c) (some c) (some c) := by
  by_cases hstep : (lexis.step mode c).inLiteral = true
  · apply SameWord.literal hstep
    obtain rfl : c = '\'' := by
      by_contra hc
      rw [inLiteral_step hmode hc] at hstep
      contradiction
    decide
  · exact .outside (by simpa using hstep) (step_outside_ne_closed hmode) _

/-- Behind a character of a literal. -/
theorem SameWord.step_literal (hmode : mode.inLiteral = true) (c : Char) :
    SameWord (lexis.step mode c) none (some c) := by
  have hnext : (lexis.step mode c).inLiteral = true ∨
      lexis.step mode c = .closed ∧ c = '\'' := step_inLiteral hmode
  rcases hnext with hstep | ⟨hstep, rfl⟩
  · exact .literal hstep rfl _
  · rw [hstep]
    exact .closed rfl (by decide)

variable {α : Type} {recognise : Text → Option α} {spelled : Text → α → Prop} {k : Char}
  {keyword : Text} (hkeyword : IsKeyword (k :: keyword))
  (hopens : OpensWith (k :: keyword) recognise) (hstops : StopsAtQuote recognise)
  (hspelled : ∀ text value, recognise text = some value ↔ spelled text value)
include hkeyword hopens hstops hspelled

/-- With the literals blanked a search finds what is spelled first outside them. -/
theorem searchAtWord_blankedFrom (text : Text) (h : SameWord mode previous before) (value : α) :
    searchAtWord recognise previous (lexis.blankedFrom mode text) = some value ↔
      FirstSpelled (lexis.OutsideWord mode before) spelled text value := by
  have hmark : ∀ mark ∈ ['\'', ' '], foldCapital mark ≠ k ∧ isWordChar mark = false := by
    have hall : ∀ mark ∈ ['\'', ' '], isWordChar mark = false := by decide
    exact fun mark hmem => ⟨foldCapital_ne hkeyword (hall mark hmem), hall mark hmem⟩
  have hquote : ∀ behind, recognise ('\'' :: behind) = none := fun behind =>
    hopens _ (afterSpacedKeyword?_of_ne (hmark '\'' (by decide)).1)
  have hnone : ∀ text, recognise text = none ↔ ∀ other, ¬ spelled text other := by
    simp only [Option.eq_none_iff_forall_ne_some, ne_eq, hspelled, implies_true]
  induction text generalizing mode previous before with
  | nil =>
      have hend : searchAtWord recognise previous (lexis.blankedFrom mode []) = none := by
        rw [blankedFrom, trace_nil, List.flatMap_nil, List.nil_append]
        split
        · rw [searchAtWord, hquote, ite_self, Option.none_or, searchAtWord]
        · rfl
      simp [hend, firstSpelled_nil ((hnone []).mp (hopens [] rfl))]
  | cons c rest ih =>
      have houtside : ∀ {mode : Mode}, mode.inLiteral = false → mode ≠ .closed →
          ∀ previous, searchAtWord recognise previous
            (lexis.blankedFrom mode (c :: rest)) = some value ↔
              FirstSpelled (lexis.OutsideWord mode previous) spelled (c :: rest) value := by
        intro mode hmode hclosed previous
        have hword : SameWord (lexis.step mode c) (some c) (some c) := .step_outside hmode c
        have hhere : recognise ([] ++ lexis.blankedFrom mode (c :: rest)) =
            recognise ([] ++ c :: rest) := eq_blankedFrom hstops hmode hclosed [] _
        rw [List.nil_append, List.nil_append, blankedFrom_cons, blanked_outside hmode hclosed,
          List.singleton_append] at hhere
        rw [blankedFrom_cons, blanked_outside hmode hclosed, List.singleton_append,
          searchAtWord, hhere, Option.or_eq_some_iff, firstSpelled_cons, outsideWord_cons,
          outsideWord_nil]
        refine or_congr ?_ (and_congr ?_ (ih hword)) <;>
          cases hprevious : previous.any isWordChar <;> simp [hmode, hspelled, hnone]
      cases h with
      | outside hmode hclosed => exact houtside hmode hclosed _
      | literal hmode hprevious =>
          have hword : SameWord (lexis.step mode c) none (some c) := .step_literal hmode c
          have hblanks : ∀ d ∈ lexis.blanked ⟨mode, c⟩,
              foldCapital d ≠ k ∧ isWordChar d = false := by
            intro d hd
            rw [eq_of_mem_blanked hmode hd]
            exact hmark ' ' (by decide)
          rw [blankedFrom_cons, BlankedAlike.searchAtWord_skip hopens hblanks hprevious,
            firstSpelled_cons_of_not, outsideWord_cons]
          · exact ih hword
          · rintro ⟨hcode, _⟩
            rw [run_nil, hmode] at hcode
            contradiction
      | closed hprevious hbefore =>
          by_cases hc : c = '\''
          · subst hc
            have hword : SameWord .literal none (some '\'') := .literal rfl rfl _
            have hblanked : lexis.blankedFrom .closed ('\'' :: rest) =
                [' ', ' '] ++ lexis.blankedFrom .literal rest := rfl
            have hstep : lexis.step .closed '\'' = .literal := rfl
            have hblanks : ∀ d ∈ [' ', ' '], foldCapital d ≠ k ∧ isWordChar d = false := by
              simpa using hmark ' ' (by decide)
            rw [hblanked, BlankedAlike.searchAtWord_skip hopens hblanks hprevious,
              firstSpelled_cons_of_not fun _ => (hnone _).mp (hquote rest), outsideWord_cons,
              hstep]
            exact ih hword
          · have hhead : ∀ d ∈ (c :: rest).head?, d ≠ '\'' := by simpa using hc
            have hstep : lexis.step .closed c = lexis.step .code c := rfl
            rw [blankedFrom_closed hhead, searchAtWord, hquote, ite_self, Option.none_or,
              BlankedAlike.searchAtWord_behind (by decide)]
            refine (houtside rfl (by decide) none).trans ?_
            rw [firstSpelled_cons, firstSpelled_cons, outsideWord_cons, outsideWord_cons, hstep,
              outsideWord_nil, outsideWord_nil, hbefore, Option.any_none]
            rfl

/-- With the literals of a clause blanked a search finds what is spelled first outside
them. -/
theorem searchAtWord_blankLiterals (clause : Text) (value : α) :
    searchAtWord recognise none (lexis.blankLiterals clause) = some value ↔
      FirstSpelled (lexis.OutsideWord .code none) spelled clause value :=
  searchAtWord_blankedFrom hkeyword hopens hstops hspelled clause
    (.outside rfl (by decide) none) value

end search

end Lexis

namespace Clause

/-- The words `PRIMARY KEY` at the front of a text, in any letter case. -/
def StartsWithKeyWords (text : Text) : Prop :=
  ∃ primary gap key back, text = primary ++ (gap ++ (key ++ back)) ∧
    primary.map foldCapital = "PRIMARY".toList ∧ gap ≠ [] ∧ (∀ c ∈ gap, isBlank c = true) ∧
    key.map foldCapital = "KEY".toList ∧ ∀ c ∈ back.head?, isWordChar c = false

/-- The words `PRIMARY KEY` stand in a clause outside its literals. -/
def HasKeyWords (lexis : Lexis) (clause : Text) : Prop :=
  ∃ front rest, clause = front ++ rest ∧ (lexis.run .code front).inLiteral = false ∧
    (∀ c ∈ front.getLast?, isWordChar c = false) ∧ StartsWithKeyWords rest

theorem isSome_keyWordsHere?_iff {text : Text} :
    (keyWordsHere? text).isSome = true ↔ StartsWithKeyWords text := by
  have hcapitals : IsKeyword "KEY".toList := by decide
  constructor
  · intro hread
    obtain ⟨⟨⟩, hread⟩ := Option.isSome_iff_exists.mp hread
    obtain ⟨spaced, hspaced, hread⟩ := Option.bind_eq_some_iff.mp hread
    obtain ⟨back, hback, hends⟩ := Option.bind_eq_some_iff.mp hread
    obtain ⟨_, rfl, ⟨primary, gap, rfl, hprimary, hgap, hblanks⟩, _⟩ :=
      afterSpacedKeyword?_eq_some_iff.mp hspaced
    obtain ⟨key, rfl, hkey⟩ := afterKeyword?_eq_some_iff.mp hback
    refine ⟨primary, gap, key, back, List.append_assoc _ _ _, hprimary, hgap, hblanks, hkey, ?_⟩
    intro c hc
    by_contra hword
    rw [Option.mem_def.mp hc, Option.any_some, if_pos (by simpa using hword)] at hends
    contradiction
  · rintro ⟨primary, gap, key, back, rfl, hprimary, hgap, hblanks, hkey, hends⟩
    have hspaced : IsSpacedKeyword "PRIMARY".toList (primary ++ gap) :=
      ⟨primary, gap, rfl, hprimary, hgap, hblanks⟩
    have hback := afterKeyword?_append hkey back
    have hend : back.head?.any isWordChar = false := by
      cases back with
      | nil => rfl
      | cons c tail => exact hends c rfl
    rw [← List.append_assoc, keyWordsHere?,
      hspaced.read (hcapitals.isBlank_of_mem_head? hkey back)]
    simp only [hback, hend, Option.bind_eq_bind, Option.bind_some, Bool.false_eq_true,
      if_false, Option.isSome_some]

/-- A clause declares a key where the words stand in it outside its literals. -/
theorem declaresKey_blankLiterals_iff (lexis : Lexis) (clause : Text) :
    declaresKey (lexis.blankLiterals clause) = true ↔ HasKeyWords lexis clause := by
  have hspelled : ∀ (text : Text) (value : Unit),
      keyWordsHere? text = some value ↔ StartsWithKeyWords text := by
    rintro text ⟨⟩
    rw [← isSome_keyWordsHere?_iff, Option.isSome_iff_exists]
    exact ⟨fun h => ⟨(), h⟩, fun ⟨_, h⟩ => h⟩
  have hlast : ∀ front : Text, front.getLast?.any isWordChar = false ↔
      ∀ c ∈ front.getLast?, isWordChar c = false := by
    intro front
    cases front.getLast? <;> simp
  rw [declaresKey, Option.isSome_iff_exists]
  simp only [lexis.searchAtWord_blankLiterals (by decide) opensWith_keyWordsHere?
    stopsAtQuote_keyWordsHere? hspelled, exists_firstSpelled_iff, Lexis.OutsideWord,
    Option.or_none, hlast, exists_const, and_assoc, HasKeyWords]

end Clause

end DdlDiagram
