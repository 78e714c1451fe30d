/-
Name quotes that are gone for good.  A text is unquoted when no name quote stands
outside its literals; taking the quotes out leaves such a text, and leaves it as it
is.  It stays unquoted when a piece is dropped from it behind which the reader of
quotes stands where it stood in front, as it does behind every piece of options
without a backslash, since the quotes in it come in pairs.
-/
import DdlDiagram.Proofs.Cleaning
import DdlDiagram.Proofs.Terminating

namespace DdlDiagram

open Text
open Lexis (Outside)

/-- The mode that reads on alike: right behind a literal a text is read as in code. -/
def Mode.settled : Mode → Mode
  | .closed => .code
  | mode => mode

namespace Lexis

variable {lexis : Lexis} {mode other : Mode} {text left right : Text}

theorem step_settled (lexis : Lexis) (mode : Mode) (c : Char) :
    lexis.step mode.settled c = lexis.step mode c := by
  cases mode <;> rfl

theorem inLiteral_settled (mode : Mode) :
    mode.settled.inLiteral = mode.inLiteral := by
  cases mode <;> rfl

theorem step_of_settled (h : mode.settled = other.settled) (c : Char) :
    lexis.step mode c = lexis.step other c := by
  rw [← step_settled, h, step_settled]

theorem run_of_settled (h : mode.settled = other.settled) (text : Text) :
    (lexis.run mode text).settled = (lexis.run other text).settled := by
  cases text with
  | nil => exact h
  | cons c rest => rw [run_cons, run_cons, step_of_settled h]

theorem settled_of_outside (h : Outside mode) : mode.settled = .code := by
  rcases h with rfl | rfl <;> rfl

/-- No character of a class stands outside the literals of a text. -/
def Unquoted (lexis : Lexis) (quotes : List Char) (mode : Mode) (text : Text) :
    Prop :=
  ∀ glyph ∈ lexis.trace mode text,
    glyph.mode.inLiteral = true ∨ glyph.char ∉ quotes

variable {quotes : List Char}

theorem unquoted_append :
    lexis.Unquoted quotes mode (left ++ right) ↔
      lexis.Unquoted quotes mode left ∧
        lexis.Unquoted quotes (lexis.run mode left) right := by
  simp only [Unquoted, trace_append, List.mem_append, or_imp, forall_and]

theorem unquoted_cons {c : Char} :
    lexis.Unquoted quotes mode (c :: text) ↔
      (mode.inLiteral = true ∨ c ∉ quotes) ∧
        lexis.Unquoted quotes (lexis.step mode c) text := by
  simp only [Unquoted, trace_cons, List.forall_mem_cons]

theorem Unquoted.of_settled (h : mode.settled = other.settled)
    (htext : lexis.Unquoted quotes mode text) :
    lexis.Unquoted quotes other text := by
  cases text with
  | nil => simp [Unquoted]
  | cons c rest =>
      rw [unquoted_cons, ← inLiteral_settled, h, inLiteral_settled,
        step_of_settled h] at htext
      exact unquoted_cons.mpr htext

end Lexis

namespace CleanText

variable {dialect : Dialect} {mode other : Mode} {text : Text}

/-- A text without name quotes outside its literals stays as it is. -/
theorem unquoteNames_eq_self
    (h : dialect.literalLexis.Unquoted dialect.nameQuotes .code text) :
    unquoteNames dialect text = text := by
  have hall : (dialect.literalLexis.trace .code text).filter (isKept dialect) =
      dialect.literalLexis.trace .code text := by
    rw [List.filter_eq_self]
    intro glyph hglyph
    rcases h glyph hglyph with hliteral | hquote
    · simp [isKept, hliteral]
    · simp [isKept, hquote]
  exact (congrArg (List.map Glyph.char) hall).trans (Lexis.map_char_trace _ _ _)

/-- The text that is left of one read from a mode has no name quotes outside its
literals, read from any mode that reads on alike. -/
theorem unquoted_filter (hmode : Outside mode ∨ mode.inLiteral = true)
    (h : mode.settled = other.settled) (text : Text) :
    dialect.literalLexis.Unquoted dialect.nameQuotes other
      (((dialect.literalLexis.trace mode text).filter (isKept dialect)).map
        Glyph.char) := by
  induction text generalizing mode other with
  | nil => simp [Lexis.Unquoted]
  | cons c rest ih =>
      have hstep := Lexis.step_literalLexis_cases dialect hmode c
      rw [Lexis.trace_cons, List.filter_cons]
      split
      · next hkept =>
          rw [List.map_cons, Lexis.unquoted_cons, ← Lexis.inLiteral_settled, ← h,
            Lexis.inLiteral_settled, ← Lexis.step_of_settled h]
          exact ⟨by simpa [isKept] using hkept, ih hstep rfl⟩
      · next hdropped =>
          have hout : Outside mode ∧ c ∈ dialect.nameQuotes := by
            simp only [isKept, Bool.not_eq_true, Bool.or_eq_false_iff,
              Bool.not_eq_eq_eq_not, Bool.not_false, List.contains_iff_mem] at hdropped
            refine ⟨hmode.resolve_right ?_, hdropped.2⟩
            simp [hdropped.1]
          have hquote : c ≠ '\'' := by
            rintro rfl
            exact not_mem_nameQuotes dialect hout.2
          refine ih hstep ?_
          rw [Lexis.step_literalLexis hout.1 hquote, ← h,
            Lexis.settled_of_outside hout.1]
          rfl

/-- Taking out the name quotes leaves none outside literals. -/
theorem unquoted_unquoteNames (dialect : Dialect) (text : Text) :
    dialect.literalLexis.Unquoted dialect.nameQuotes .code
      (unquoteNames dialect text) :=
  unquoted_filter (Or.inl (Or.inl rfl)) rfl text

/-- Where the reader of quotes may stand but in the middle of an escape. -/
def Steady (mode : Mode) : Prop :=
  Outside mode ∨ mode = .literal

/-- No escape is left open behind a bracket. -/
theorem steady_bracket (dialect : Dialect) (front : Text) :
    Steady (dialect.literalLexis.run .code (front ++ [')'])) := by
  rw [Lexis.run_append]
  rcases Lexis.run_literalLexis_cases dialect (Or.inl (Or.inl rfl)) front with hmode | hmode
  · left
    exact outside_char hmode (by decide)
  · right
    generalize dialect.literalLexis.run .code front = mode at hmode
    cases mode with
    | literal => simp [Lexis.step]
    | escaped => rfl
    | _ => contradiction

/-- Two readers that stand on the two sides of a quote. -/
def Opposite (mode other : Mode) : Prop :=
  Outside mode ∧ other = .literal ∨ mode = .literal ∧ Outside other

/-- Each quote takes both to the other side, as long as nothing is escaped. -/
theorem Opposite.run (h : Opposite mode other) (dialect : Dialect)
    (htext : '\\' ∉ text) :
    Opposite (dialect.literalLexis.run mode text)
      (dialect.literalLexis.run other text) := by
  induction text generalizing mode other with
  | nil => exact h
  | cons c rest ih =>
      rw [List.mem_cons, not_or] at htext
      refine ih ?_ htext.2
      have hliteral : c ≠ '\'' →
          dialect.literalLexis.step .literal c = .literal := by
        intro hc
        simp [Lexis.step, hc, Ne.symm htext.1]
      by_cases hc : c = '\''
      · subst hc
        rcases h with ⟨hmode | hmode, rfl⟩ | ⟨rfl, hmode | hmode⟩
        · exact hmode ▸ Or.inr ⟨rfl, Or.inr rfl⟩
        · exact hmode ▸ Or.inr ⟨rfl, Or.inr rfl⟩
        · exact hmode ▸ Or.inl ⟨Or.inr rfl, rfl⟩
        · exact hmode ▸ Or.inl ⟨Or.inr rfl, rfl⟩
      · rcases h with ⟨hmode, rfl⟩ | ⟨rfl, hmode⟩
        · exact Or.inl ⟨Or.inl (Lexis.step_literalLexis hmode hc), hliteral hc⟩
        · exact Or.inr ⟨hliteral hc, Or.inl (Lexis.step_literalLexis hmode hc)⟩

/-- Behind words and whole literals without an escape the reader of quotes stands
where it stood, in code or in a literal. -/
theorem settled_run_of_bare (hmode : Steady mode)
    (hbare : dialect.literalLexis.Bare text) (htext : '\\' ∉ text) :
    (dialect.literalLexis.run mode text).settled = mode.settled := by
  rcases hmode with hmode | rfl
  · rw [Lexis.settled_of_outside hmode,
      Lexis.settled_of_outside (Lexis.outside_run hmode hbare.outside)]
  · have hstart : Opposite .code .literal := Or.inl ⟨Or.inl rfl, rfl⟩
    rcases hstart.run dialect htext with ⟨_, hend⟩ | ⟨hend, _⟩
    · rw [hend]
    · have hout := hbare.outside
      rw [hend] at hout
      rcases hout with hout | hout <;> contradiction

/-- A cut behind which quotes are read on as they were in front of it.  This is in
question only where an escape is dropped, which the reader of quotes may have
taken for code. -/
def Cut.KeepsQuotes (dialect : Dialect) (text : Text) (cut : Cut) : Prop :=
  '\\' ∈ cut.options → ∀ front, text = front ++ (cut.options ++ cut.rest) →
    (dialect.literalLexis.run .code (front ++ cut.options)).settled =
      (dialect.literalLexis.run .code front).settled

/-- Quotes are read on alike behind what is dropped. -/
theorem settled_run_options {front options rest : Text}
    (h : Cut.KeepsQuotes dialect (front ++ (options ++ rest)) ⟨options, rest⟩)
    (hmode : Steady (dialect.literalLexis.run .code front))
    (hdropped : TableOption.Dropped dialect.literalLexis options rest) :
    (dialect.literalLexis.run .code (front ++ options)).settled =
      (dialect.literalLexis.run .code front).settled := by
  by_cases hescape : '\\' ∈ options
  · exact h hescape front rfl
  · rw [Lexis.run_append]
    exact settled_run_of_bare hmode (hdropped.bare (Or.inr hescape)) hescape

/-- Quotes are read on alike behind what is put in. -/
theorem settled_run_ending (hmode : Steady mode) (rest : Text) :
    (dialect.literalLexis.run mode (ending rest)).settled = mode.settled := by
  rw [ending]
  split
  · rfl
  · exact settled_run_of_bare hmode (Lexis.bare_separator (Or.inr rfl)) (by decide)

/-- Nothing that is put in is a name quote. -/
theorem unquoted_ending (dialect : Dialect) (mode : Mode) (rest : Text) :
    dialect.literalLexis.Unquoted dialect.nameQuotes mode (ending rest) := by
  have hsemicolon : ';' ∉ dialect.nameQuotes := by cases dialect <;> decide
  rw [ending]
  split <;> simp [Lexis.Unquoted, hsemicolon]

/-- Ending the definitions at the sites that are left brings no name quote out of a
literal. -/
theorem Editing.unquoted_terminateSites {offset : Nat} {front pre : Text}
    {todo : List TableSite} (h : Editing dialect offset pre text todo)
    (hmode : (dialect.literalLexis.run .code front).settled =
      (dialect.literalLexis.run .code pre).settled)
    (hcuts : ∀ cut ∈ cutsAt offset text todo,
      cut.Harmless dialect ∧ cut.KeepsQuotes dialect (front ++ text))
    (htext : dialect.literalLexis.Unquoted dialect.nameQuotes
      (dialect.literalLexis.run .code front) text) :
    dialect.literalLexis.Unquoted dialect.nameQuotes
      (dialect.literalLexis.run .code pre) (terminateSites offset text todo) := by
  induction todo generalizing offset front pre text with
  | nil => exact htext.of_settled hmode
  | cons site rest ih =>
      rcases h.skip_or_ends with
        ⟨hpassed, hterminated, hsame⟩ | ⟨used, options, remaining, hends⟩
      · rw [hsame] at hcuts
        rw [hterminated]
        exact ih (h.skip hpassed) hmode hcuts htext
      · obtain rfl := hends.split
        rw [hends.cuts] at hcuts
        obtain ⟨hharmless, hkeeps⟩ := hcuts _ List.mem_cons_self
        have hdropped := hends.dropped
        have hnext := (h.cut hends.closing hends.code
          (hharmless.unnoticed (hdropped dialect.lexis))
          (unnoticed_ending dialect.lexis remaining)).1
        -- The text up to the bracket, and the same behind what is edited.
        have hshape : front ++ (used ++ ')' :: (options ++ remaining)) =
            (front ++ used ++ [')']) ++ (options ++ remaining) := by simp
        have hwhole : front ++ (used ++ ')' :: (options ++ remaining)) =
            (front ++ used ++ [')'] ++ options) ++ remaining := by simp
        have hpre : pre ++ (used ++ ')' :: ending remaining) =
            (pre ++ used ++ [')']) ++ ending remaining := by simp
        have hbracket :
            (dialect.literalLexis.run .code (front ++ used ++ [')'])).settled =
              (dialect.literalLexis.run .code (pre ++ used ++ [')'])).settled := by
          simp only [List.append_assoc, Lexis.run_append _ _ front,
            Lexis.run_append _ _ pre]
          exact Lexis.run_of_settled hmode _
        have hbehind : (dialect.literalLexis.run .code
            (front ++ used ++ [')'] ++ options)).settled =
              (dialect.literalLexis.run .code
                (pre ++ (used ++ ')' :: ending remaining))).settled := by
          rw [settled_run_options (hshape ▸ hkeeps) (steady_bracket dialect _)
            (hdropped dialect.literalLexis), hbracket, hpre,
            Lexis.run_append _ _ (pre ++ used ++ [')']),
            settled_run_ending (steady_bracket dialect _)]
        rw [show used ++ ')' :: (options ++ remaining) =
          (used ++ [')']) ++ (options ++ remaining) by simp] at htext
        obtain ⟨hused, hlater⟩ := Lexis.unquoted_append.mp htext
        have hremaining := (Lexis.unquoted_append.mp hlater).2
        have hrest := ih hnext hbehind (fun cut hmem => by
          rw [← hwhole]
          exact hcuts cut (List.mem_cons_of_mem _ hmem)) (by
          simpa only [Lexis.run_append, List.append_assoc] using hremaining)
        rw [hends.terminated, List.append_cons]
        refine Lexis.unquoted_append.mpr ⟨hused.of_settled hmode, ?_⟩
        refine Lexis.unquoted_append.mpr ⟨unquoted_ending dialect _ _, ?_⟩
        simpa only [hpre, Lexis.run_append, List.append_assoc] using hrest

/-- No name quote is left for a second cleaning. -/
theorem unquoted_terminateTables (dialect : Dialect) (text : Text)
    (h : ∀ cut ∈ cuts dialect text,
      cut.Harmless dialect ∧ cut.KeepsQuotes dialect text)
    (htext : dialect.literalLexis.Unquoted dialect.nameQuotes .code text) :
    dialect.literalLexis.Unquoted dialect.nameQuotes .code
      (terminateTables dialect text) := by
  have hstart := editing_start dialect text
  exact Editing.unquoted_terminateSites hstart rfl h htext

end CleanText

end DdlDiagram
