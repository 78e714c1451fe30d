/-
Texts whose literals are blanked.  Those of texts that are made up of the same pieces
differ only in how many blanks stand behind the quote that opens a literal.  A reader
that stops at a quote finds the same in them, as neither the quote nor a blank begins
what it looks for.
-/
import DdlDiagram.Proofs.ColumnReading
import DdlDiagram.Proofs.Piece
import DdlDiagram.Proofs.UpToQuote

namespace DdlDiagram

open Text Phrase

/-- The same text, but for the number of blanks behind some quotes. -/
inductive BlankedAlike : Text → Text → Prop
  | nil : BlankedAlike [] []
  | cons (c : Char) {left right : Text} (rest : BlankedAlike left right) :
      BlankedAlike (c :: left) (c :: right)
  | gap {left right blanks blanks' : Text} (hblanks : ∀ c ∈ blanks, c = ' ')
      (hblanks' : ∀ c ∈ blanks', c = ' ') (rest : BlankedAlike left right) :
      BlankedAlike ('\'' :: (blanks ++ left)) ('\'' :: (blanks' ++ right))

namespace BlankedAlike

variable {α : Type} {left right : Text}

theorem refl (text : Text) : BlankedAlike text text := by
  induction text with
  | nil => exact .nil
  | cons c rest ih => exact .cons c ih

theorem append_left (h : BlankedAlike left right) (front : Text) :
    BlankedAlike (front ++ left) (front ++ right) := by
  induction front with
  | nil => exact h
  | cons c rest ih => exact .cons c ih

/-- What is known up to a quote is the same. -/
theorem eq_of_stops {f : Text → α} (hf : StopsAtQuote f) (h : BlankedAlike left right)
    (front : Text) : f (front ++ left) = f (front ++ right) := by
  induction h generalizing front with
  | nil => rfl
  | cons c rest ih =>
      have hnext := ih (front ++ [c])
      rw [List.append_assoc, List.append_assoc] at hnext
      exact hnext
  | gap => exact (hf.cut front _).trans (hf.cut front _).symm

section search

variable {k : Char} {keyword : Text} {recognise : Text → Option α}
  {previous : Option Char}

/-- Behind characters that belong to no word every search is the same. -/
theorem searchAtWord_behind (hprevious : previous.any isWordChar = false)
    (text : Text) :
    searchAtWord recognise previous text = searchAtWord recognise none text := by
  cases text with
  | nil => rfl
  | cons c rest => rw [searchAtWord, searchAtWord, hprevious, Option.any_none]

theorem searchAtWord_skip (hopens : OpensWith (k :: keyword) recognise)
    {front : Text} (hfront : ∀ c ∈ front, foldCapital c ≠ k ∧ isWordChar c = false)
    (hprevious : previous.any isWordChar = false) (text : Text) :
    searchAtWord recognise previous (front ++ text) =
      searchAtWord recognise none text := by
  induction front generalizing previous with
  | nil => exact searchAtWord_behind hprevious text
  | cons c rest ih =>
      obtain ⟨hc, hrest⟩ := List.forall_mem_cons.mp hfront
      rw [List.cons_append, searchAtWord, hopens _ (afterSpacedKeyword?_of_ne hc.1),
        ite_self, Option.none_or]
      exact ih hrest hc.2

/-- A search that stops at a quote finds the same. -/
theorem searchAtWord_eq (hstops : StopsAtQuote recognise)
    (hopens : OpensWith (k :: keyword) recognise)
    (hmark : foldCapital '\'' ≠ k ∧ foldCapital ' ' ≠ k)
    (h : BlankedAlike left right) (previous : Option Char) :
    searchAtWord recognise previous left = searchAtWord recognise previous right := by
  induction h generalizing previous with
  | nil => rfl
  | cons c rest ih =>
      have hhere := eq_of_stops hstops rest [c]
      rw [List.singleton_append, List.singleton_append] at hhere
      rw [searchAtWord, searchAtWord, ih, hhere]
  | gap hblanks hblanks' rest ih =>
      -- Nothing begins at the quote or at a blank, and neither belongs to a word.
      have hskip : ∀ {blanks : Text}, (∀ c ∈ blanks, c = ' ') →
          ∀ c ∈ blanks, foldCapital c ≠ k ∧ isWordChar c = false := by
        intro blanks hblanks c hc
        rw [hblanks c hc]
        exact ⟨hmark.2, by decide⟩
      rw [searchAtWord, searchAtWord, hopens _ (afterSpacedKeyword?_of_ne hmark.1),
        hopens _ (afterSpacedKeyword?_of_ne hmark.1),
        searchAtWord_skip hopens (hskip hblanks) (by decide),
        searchAtWord_skip hopens (hskip hblanks') (by decide), ih]

end search

end BlankedAlike

namespace Piece

variable {lexis : Lexis} {mode : Mode} {pieces : List Piece}

/-- Of a literal its quotes stay; the one that closes it waits. -/
theorem exists_blanked_literal {contents : Text} (hmode : mode.opensLiteral = true)
    (h : isContents lexis.escapes contents = true) :
    ∃ blanks, (∀ c ∈ blanks, c = ' ') ∧
      (lexis.trace mode ('\'' :: (contents ++ ['\'']))).flatMap lexis.blanked =
        '\'' :: blanks := by
  refine ⟨_, blanked_contents h, ?_⟩
  have hopening : lexis.blanked ⟨mode, '\''⟩ = ['\''] := by
    cases mode with
    | closed | literal | escaped | line | block | star => contradiction
    | code | dash | slash => rfl
  rw [Lexis.trace_cons, step_quote hmode, Lexis.trace_append,
    (lexis.enclosed_of_isContents h).run, List.flatMap_cons, List.flatMap_append,
    hopening]
  simp [Lexis.blanked]

/-- Texts that are made up of the same pieces are alike when their literals are
blanked. -/
theorem blankedAlike_textOf (h : Sound lexis mode pieces) (version other : Bool) :
    BlankedAlike
      ((lexis.trace mode (textOf version pieces)).flatMap lexis.blanked ++
        if lexis.run mode (textOf version pieces) = .closed then ['\''] else [])
      ((lexis.trace mode (textOf other pieces)).flatMap lexis.blanked ++
        if lexis.run mode (textOf other pieces) = .closed then ['\''] else []) := by
  induction pieces generalizing mode with
  | nil => exact .refl _
  | cons piece rest ih =>
      cases piece with
      | plain c =>
          simp only [textOf_plain, Lexis.trace_cons, Lexis.run_cons, List.flatMap_cons,
            List.append_assoc]
          exact (ih h).append_left _
      | literal contents =>
          obtain ⟨hmode, hcontents, hrest⟩ := h
          obtain ⟨blanks, hblanks, hblanked⟩ :=
            exists_blanked_literal hmode (hcontents version)
          obtain ⟨blanks', hblanks', hblanked'⟩ :=
            exists_blanked_literal hmode (hcontents other)
          simp only [textOf_cons, text, Lexis.trace_append, Lexis.run_append,
            List.flatMap_append, List.append_assoc, hblanked, hblanked',
            run_literal hmode (hcontents version), run_literal hmode (hcontents other)]
          exact .gap hblanks hblanks' (ih hrest)

theorem blankLiterals_textOf (h : Sound lexis .code pieces) (version other : Bool) :
    BlankedAlike (lexis.blankLiterals (textOf version pieces))
      (lexis.blankLiterals (textOf other pieces)) :=
  blankedAlike_textOf h version other

end Piece

end DdlDiagram
