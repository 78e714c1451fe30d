/-
Texts that differ in what their literals hold.  Two of them are read piece by piece:
a piece is a character of both, or a closed literal with contents of its own in each.
The lexemes of the texts give such pieces, and the reader with modes stands in both
texts in the same mode behind every piece.
-/
import DdlDiagram.Proofs.Quiet
import DdlDiagram.Proofs.Stripping

namespace DdlDiagram

open Text

namespace Lexeme

/-- A string literal that is closed: a quote, contents, and a quote. -/
def isClosed (escapes : Bool) : Lexeme → Bool
  | literal (c :: rest) =>
      c == '\'' && rest.getLast? == some '\'' && isContents escapes rest.dropLast
  | _ => false

/-- Equal lexemes, or two closed literals. -/
def Corresponds (escapes : Bool) (lexeme other : Lexeme) : Prop :=
  lexeme = other ∨ lexeme.isClosed escapes = true ∧ other.isClosed escapes = true

instance (escapes : Bool) : DecidableRel (Corresponds escapes) :=
  fun lexeme other => inferInstanceAs (Decidable (lexeme = other ∨ _))

theorem exists_of_isClosed {escapes : Bool} {lexeme : Lexeme}
    (h : lexeme.isClosed escapes = true) :
    ∃ contents, lexeme = literal ('\'' :: (contents ++ ['\''])) ∧
      isContents escapes contents = true := by
  match lexeme, h with
  | literal (c :: rest), h =>
      simp only [isClosed, Bool.and_eq_true, beq_iff_eq] at h
      obtain ⟨⟨rfl, hlast⟩, hcontents⟩ := h
      refine ⟨rest.dropLast, ?_, hcontents⟩
      rw [List.dropLast_append_getLast? '\'' hlast]

end Lexeme

/-- Two texts that are the same but for the contents of closed literals. -/
def Dialect.SameCode (dialect : Dialect) (left right : Text) : Prop :=
  List.Forall₂ (Lexeme.Corresponds dialect.backslashEscapes)
    (Lexeme.all dialect.backslashEscapes left)
    (Lexeme.all dialect.backslashEscapes right)

instance (dialect : Dialect) : DecidableRel dialect.SameCode :=
  fun _ _ => inferInstanceAs (Decidable (List.Forall₂ _ _ _))

/-- Code in which a quote opens a literal: right behind a literal it would go on with
that one. -/
def Mode.opensLiteral (mode : Mode) : Bool :=
  mode.inCode && mode != .closed

/-- A piece of two texts: a character of both, or a closed literal with its contents
in the one and in the other. -/
inductive Piece where
  | plain (c : Char)
  | literal (contents : Bool → Text)

namespace Piece

/-- A piece as it stands in one of the texts. -/
def text (version : Bool) : Piece → Text
  | plain c => [c]
  | literal contents => '\'' :: (contents version ++ ['\''])

theorem text_ne_nil (version : Bool) (piece : Piece) : piece.text version ≠ [] := by
  cases piece <;> simp [text]

/-- One of the texts that pieces make up. -/
def textOf (version : Bool) (pieces : List Piece) : Text :=
  pieces.flatMap (text version)

section textOf

variable {version : Bool} {c : Char} {left right pieces : List Piece}

@[simp] theorem textOf_nil : textOf version [] = [] := rfl

@[simp] theorem textOf_plain :
    textOf version (plain c :: pieces) = c :: textOf version pieces := rfl

theorem textOf_literal {contents : Bool → Text} :
    textOf version (literal contents :: pieces) =
      '\'' :: (contents version ++ '\'' :: textOf version pieces) := by
  simp [textOf, text]

theorem textOf_cons {piece : Piece} : textOf version (piece :: pieces) =
    piece.text version ++ textOf version pieces := rfl

@[simp] theorem textOf_append : textOf version (left ++ right) =
    textOf version left ++ textOf version right :=
  List.flatMap_append

@[simp] theorem textOf_map_plain (text : Text) :
    textOf version (text.map plain) = text := by
  induction text with
  | nil => rfl
  | cons c rest ih => rw [List.map_cons, textOf_plain, ih]

theorem textOf_eq_nil : textOf version pieces = [] ↔ pieces = [] := by
  cases pieces with
  | nil => simp
  | cons piece rest => simp [textOf_cons, text_ne_nil]

end textOf

/-- Literals open where a quote opens one, and are closed by the quotes behind their
contents. -/
def Sound (lexis : Lexis) : Mode → List Piece → Prop
  | _, [] => True
  | mode, plain c :: rest => Sound lexis (lexis.step mode c) rest
  | mode, literal contents :: rest =>
      mode.opensLiteral = true ∧
        (∀ version, isContents lexis.escapes (contents version) = true) ∧
        Sound lexis .closed rest

section sound

variable {lexis : Lexis} {mode other : Mode} {left right pieces : List Piece}

theorem step_quote (h : mode.opensLiteral = true) :
    lexis.step mode '\'' = .literal := by
  cases mode with
  | closed | literal | escaped | line | block | star => contradiction
  | code | dash | slash => rfl

/-- A literal of a text is read from its quote to its quote. -/
theorem run_literal {contents : Text} (hmode : mode.opensLiteral = true)
    (h : isContents lexis.escapes contents = true) :
    lexis.run mode ('\'' :: (contents ++ ['\''])) = .closed := by
  rw [Lexis.run_cons, step_quote hmode, Lexis.run_append,
    (lexis.enclosed_of_isContents h).run]
  rfl

/-- Of a literal every character but quotes stands inside. -/
theorem solid_literal {contents : Text} (hmode : mode.opensLiteral = true)
    (h : isContents lexis.escapes contents = true) :
    ∀ glyph ∈ lexis.trace mode ('\'' :: (contents ++ ['\''])),
      glyph.mode.inLiteral = true ∨ glyph.char = '\'' := by
  have henclosed := lexis.enclosed_of_isContents h
  intro glyph hglyph
  rw [Lexis.trace_cons, step_quote hmode, Lexis.trace_append, henclosed.run] at hglyph
  rcases List.mem_cons.mp hglyph with rfl | hglyph
  · exact Or.inr rfl
  · rcases List.mem_append.mp hglyph with hglyph | hglyph
    · exact henclosed.solid glyph hglyph
    · rw [List.mem_singleton.mp hglyph]
      exact Or.inl rfl

/-- No character of a literal is a bracket or a comma of code. -/
theorem mute_literal {contents : Text} (hmode : mode.opensLiteral = true)
    (h : isContents lexis.escapes contents = true) :
    ∀ glyph ∈ lexis.trace mode ('\'' :: (contents ++ ['\''])), glyph.IsMute := by
  intro glyph hglyph
  rcases solid_literal hmode h glyph hglyph with hliteral | hquote
  · exact Glyph.isMute_of_inLiteral hliteral
  · intro _
    rw [hquote]
    decide

/-- Behind the same pieces both texts are read in the same mode. -/
theorem Sound.run_eq (h : Sound lexis mode pieces) (version : Bool) :
    lexis.run mode (textOf version pieces) = lexis.run mode (textOf false pieces) := by
  induction pieces generalizing mode with
  | nil => rfl
  | cons piece rest ih =>
      cases piece with
      | plain c => exact ih h
      | literal contents =>
          obtain ⟨hmode, hcontents, hrest⟩ := h
          rw [textOf_cons, textOf_cons, Lexis.run_append, Lexis.run_append, text, text,
            run_literal hmode (hcontents version), run_literal hmode (hcontents false)]
          exact ih hrest

theorem sound_append : Sound lexis mode (left ++ right) ↔
    Sound lexis mode left ∧ Sound lexis (lexis.run mode (textOf false left)) right := by
  induction left generalizing mode with
  | nil => simp [Sound]
  | cons piece rest ih =>
      cases piece with
      | plain c =>
          simp only [List.cons_append, Sound, ih]
          rfl
      | literal contents =>
          simp only [List.cons_append, Sound, ih, and_assoc]
          refine and_congr_right fun hmode => and_congr_right fun hcontents => ?_
          rw [textOf_cons, Lexis.run_append, text, run_literal hmode (hcontents false)]

theorem sound_plain (text : Text) : Sound lexis mode (text.map plain) := by
  induction text generalizing mode with
  | nil => trivial
  | cons c rest ih => exact ih

/-- Pieces are sound from another mode that reads the first character alike. -/
theorem Sound.of_head (h : Sound lexis mode pieces)
    (hhead : ∀ c ∈ (textOf false pieces).head?,
      lexis.step other c = lexis.step mode c ∧
        (c = '\'' → other.opensLiteral = true)) :
    Sound lexis other pieces := by
  cases pieces with
  | nil => trivial
  | cons piece rest =>
      cases piece with
      | plain c =>
          rw [Sound, (hhead c rfl).1]
          exact h
      | literal contents => exact ⟨(hhead '\'' rfl).2 rfl, h.2⟩

end sound

end Piece

namespace Lexeme

section resuming

variable (escapes : Bool)

/-- A literal that more text follows is closed, and it is not a quote that follows. -/
theorem run_cutLiteral (text : Text) : ∀ next ∈ (cutLiteral escapes text).2.head?,
    (Lexis.mk escapes true).run .literal (cutLiteral escapes text).1 = .closed ∧
      next ≠ '\'' := by
  fun_induction cutLiteral escapes text with
  | case1 | case2 => simp
  | case3 rest cut ih => exact ih
  | case4 next rest hnext =>
      intro following hfollowing
      rw [← Option.some.inj hfollowing]
      exact ⟨rfl, hnext⟩
  | case5 c next rest hc hescape cut ih =>
      intro following hfollowing
      have hstep : (Lexis.mk escapes true).step .literal c = .escaped := by
        simp [Lexis.step, hc, hescape]
      rw [Lexis.run_cons, hstep]
      exact ih following hfollowing
  | case6 c next rest hc hescape cut ih =>
      intro following hfollowing
      have hstep : (Lexis.mk escapes true).step .literal c = .literal := by
        simp [Lexis.step, hc, hescape]
      rw [Lexis.run_cons, hstep]
      exact ih following hfollowing

theorem run_cutLine (text : Text) :
    (Lexis.mk escapes true).run .line (cutLine text).1 = .line := by
  have hline : ∀ c ∈ (cutLine text).1, c ≠ '\n' := by
    intro c hc
    simpa using List.mem_takeWhile_imp hc
  generalize (cutLine text).1 = line at hline
  induction line with
  | nil => rfl
  | cons c rest ih =>
      rw [Lexis.run_cons, Lexis.step, if_neg (hline c List.mem_cons_self)]
      exact ih fun other hother => hline other (List.mem_cons_of_mem c hother)

theorem exists_cutBlock_cons (c : Char) (rest : Text) :
    ∃ more, (cutBlock (c :: rest)).1 = c :: more := by
  cases rest with
  | nil => exact ⟨[], rfl⟩
  | cons next rest =>
      rw [cutBlock]
      split <;> exact ⟨_, rfl⟩

/-- A block comment that more text follows is closed. -/
theorem run_cutBlock (text : Text) : ∀ next ∈ (cutBlock text).2.head?,
    (Lexis.mk escapes true).run .block (cutBlock text).1 = .code := by
  fun_induction cutBlock text with
  | case1 | case2 => simp
  | case3 c next rest hend =>
      intro _ _
      obtain ⟨rfl, rfl⟩ := hend
      rfl
  | case4 c next rest hend cut ih =>
      intro following hfollowing
      have hblock := ih following hfollowing
      by_cases hc : c = '*'
      · subst hc
        have hnext : next ≠ '/' := fun h => hend ⟨rfl, h⟩
        have hstar : (Lexis.mk escapes true).step .star next =
            (Lexis.mk escapes true).step .block next := if_neg hnext
        obtain ⟨more, hmore⟩ := exists_cutBlock_cons next rest
        rw [hmore, Lexis.run_cons] at hblock
        rw [hmore, Lexis.run_cons, Lexis.run_cons]
        exact (congrArg ((Lexis.mk escapes true).run · more) hstar).trans hblock
      · rw [Lexis.run_cons, Lexis.step, if_neg hc]
        exact hblock

/-- Behind a character that opens neither a literal nor a comment, the next one is
read as in code. -/
theorem afterCode_resumes {c next : Char} (hquote : c ≠ '\'')
    (hline : ¬(c = '-' ∧ next = '-')) (hblock : ¬(c = '/' ∧ next = '*')) :
    (Lexis.mk escapes true).step ((Lexis.mk escapes true).afterCode c) next =
        (Lexis.mk escapes true).step .code next ∧
      ((Lexis.mk escapes true).afterCode c).opensLiteral = true := by
  by_cases hdash : c = '-'
  · subst hdash
    have hnext : next ≠ '-' := fun h => hline ⟨rfl, h⟩
    exact ⟨if_neg hnext, rfl⟩
  · by_cases hslash : c = '/'
    · subst hslash
      have hnext : next ≠ '*' := fun h => hblock ⟨rfl, h⟩
      exact ⟨if_neg hnext, rfl⟩
    · have hcode : (Lexis.mk escapes true).afterCode c = .code := by
        simp [Lexis.afterCode, hquote, hdash, hslash]
      rw [hcode]
      exact ⟨rfl, rfl⟩

/-- Behind a lexeme the next character is read as at the start of a text. -/
theorem first_resumes (c : Char) (rest : Text) :
    ∀ next ∈ (first escapes c rest).2.head?,
      (Lexis.mk escapes true).step
          ((Lexis.mk escapes true).run .code (first escapes c rest).1.text) next =
        (Lexis.mk escapes true).step .code next ∧
      (next = '\'' → ((Lexis.mk escapes true).run .code
        (first escapes c rest).1.text).opensLiteral = true) := by
  unfold first
  split
  · next hc =>
      subst hc
      intro next hnext
      obtain ⟨hclosed, hnext⟩ := run_cutLiteral escapes rest next hnext
      change (Lexis.mk escapes true).step ((Lexis.mk escapes true).run .literal
        (cutLiteral escapes rest).1) next = _ ∧ _
      rw [hclosed]
      exact ⟨rfl, fun hquote => absurd hquote hnext⟩
  · next hquote =>
      split
      · next hopens =>
          obtain ⟨rfl, hdash⟩ := hopens
          obtain ⟨tail, rfl⟩ := List.head?_eq_some_iff.mp hdash
          intro next hnext
          have hline := run_cutLine escapes tail
          have hcut : cutLine ('-' :: tail) =
              ('-' :: (cutLine tail).1, (cutLine tail).2) := by
            simp [cutLine]
          rw [hcut] at hnext ⊢
          obtain rfl : next = '\n' := by
            have := List.head?_dropWhile_not (· != '\n') tail
            rw [cutLine, Option.mem_def] at hnext
            rw [hnext] at this
            simpa using this
          change (Lexis.mk escapes true).step ((Lexis.mk escapes true).run .line
            (cutLine tail).1) '\n' = _ ∧ _
          rw [hline]
          exact ⟨rfl, by simp⟩
      · next hline =>
          split
          · next hopens =>
              obtain ⟨rfl, hstar⟩ := hopens
              obtain ⟨tail, rfl⟩ := List.head?_eq_some_iff.mp hstar
              intro next hnext
              have hblock := run_cutBlock escapes tail next hnext
              change (Lexis.mk escapes true).step ((Lexis.mk escapes true).run .block
                (cutBlock tail).1) next = _ ∧ (_ → ((Lexis.mk escapes true).run .block
                  (cutBlock tail).1).opensLiteral = true)
              rw [hblock]
              exact ⟨rfl, fun _ => rfl⟩
          · next hblock =>
              intro next hnext
              have hrest : rest.head? = some next := hnext
              rw [hrest, Option.some.injEq] at hline hblock
              obtain ⟨hstep, hcode⟩ := afterCode_resumes escapes hquote hline hblock
              exact ⟨hstep, fun _ => hcode⟩

end resuming

end Lexeme

namespace Piece

theorem mode_of_lexeme {escapes : Bool} {c : Char} {rest : Text}
    {pieces : List Piece} (h : Sound ⟨escapes, true⟩ .code pieces)
    (hrest : textOf false pieces = (Lexeme.first escapes c rest).2) :
    Sound ⟨escapes, true⟩ ((Lexis.mk escapes true).run .code
      (Lexeme.first escapes c rest).1.text) pieces := by
  apply h.of_head
  rw [hrest]
  exact Lexeme.first_resumes escapes c rest

/-- Texts whose lexemes correspond are made up of pieces. -/
theorem exists_of_corresponds {escapes : Bool} {left right : Text}
    (h : List.Forall₂ (Lexeme.Corresponds escapes) (Lexeme.all escapes left)
      (Lexeme.all escapes right)) :
    ∃ pieces, Sound ⟨escapes, true⟩ .code pieces ∧ textOf false pieces = left ∧
      textOf true pieces = right := by
  fun_induction Lexeme.all escapes left generalizing right with
  | case1 =>
      cases right with
      | nil => exact ⟨[], trivial, rfl, rfl⟩
      | cons c rest =>
          rw [Lexeme.all_cons] at h
          cases h
  | case2 c rest ih =>
      cases right with
      | nil =>
          rw [Lexeme.all_nil] at h
          cases h
      | cons d tail =>
          rw [Lexeme.all_cons] at h
          cases h with
          | cons hfirst hlater =>
              obtain ⟨pieces, hsound, hleft, hright⟩ := ih hlater
              have hc := Lexeme.first_append escapes c rest
              have hd := Lexeme.first_append escapes d tail
              rcases hfirst with hequal | ⟨hclosed, hclosed'⟩
              · refine ⟨(Lexeme.first escapes c rest).1.text.map plain ++ pieces, ?_,
                  ?_, ?_⟩
                · rw [sound_append, textOf_map_plain]
                  exact ⟨sound_plain _, mode_of_lexeme hsound hleft⟩
                · rw [textOf_append, textOf_map_plain, hleft, hc]
                · rw [textOf_append, textOf_map_plain, hright, hequal, hd]
              · obtain ⟨contents, hlexeme, hcontents⟩ := Lexeme.exists_of_isClosed hclosed
                obtain ⟨contents', hlexeme', hcontents'⟩ :=
                  Lexeme.exists_of_isClosed hclosed'
                refine ⟨literal (fun version => if version then contents' else contents)
                  :: pieces, ⟨rfl, ?_, ?_⟩, ?_, ?_⟩
                · rintro (_ | _)
                  · exact hcontents
                  · exact hcontents'
                · have hrun : (Lexis.mk escapes true).run .code
                      ('\'' :: (contents ++ ['\''])) = .closed :=
                    run_literal rfl hcontents
                  have hmode := mode_of_lexeme hsound hleft
                  rw [hlexeme, Lexeme.text, hrun] at hmode
                  exact hmode
                · rw [textOf_cons, hleft, ← hc, hlexeme]
                  rfl
                · rw [textOf_cons, hright, ← hd, hlexeme']
                  rfl

end Piece

/-- Texts that are the same but for the contents of closed literals are made up of
pieces. -/
theorem Dialect.SameCode.exists_pieces {dialect : Dialect} {left right : Text}
    (h : dialect.SameCode left right) :
    ∃ pieces, Piece.Sound dialect.lexis .code pieces ∧
      Piece.textOf false pieces = left ∧ Piece.textOf true pieces = right :=
  Piece.exists_of_corresponds h

end DdlDiagram
