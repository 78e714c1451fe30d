/-
How table options are read.  An option's literal is found by looking for its end,
with a backslash always taking the next character; the reader with modes finds the
same end when the dialect escapes with a backslash, or when there is none.  So what
is dropped behind a definition is words and whole literals, without a bracket of code.
-/
import DdlDiagram.Proofs.HeaderSearch
import DdlDiagram.Proofs.Moving
import DdlDiagram.TableOption

namespace DdlDiagram

open Text Phrase

namespace Lexis

variable {lexis : Lexis} {mode : Mode} {text left right : Text}

/-- Right behind a literal a text is read as in code. -/
theorem ofGlyphs_of_outside (h : Outside mode) (offset : Nat) (text : Text) :
    Bracket.ofGlyphs offset (lexis.trace mode text) =
      Bracket.ofGlyphs offset (lexis.trace .code text) := by
  rcases h with rfl | rfl
  · rfl
  · cases text with
    | nil => rfl
    | cons c rest => exact Bracket.ofGlyphs_congr rfl offset c _

theorem outside_run (h : Outside mode) (htext : Outside (lexis.run .code text)) :
    Outside (lexis.run mode text) := by
  rcases h with rfl | rfl
  · exact htext
  · cases text with
    | nil => exact Or.inr rfl
    | cons c rest => exact htext

/-- A text that reads as code and whole literals, without a bracket of code. -/
structure Bare (lexis : Lexis) (text : Text) : Prop where
  outside : Outside (lexis.run .code text)
  brackets : lexis.brackets text = []

theorem bare_nil : lexis.Bare [] :=
  ⟨Or.inl rfl, rfl⟩

theorem Bare.ofGlyphs (h : lexis.Bare text) (hmode : Outside mode)
    (offset : Nat) : Bracket.ofGlyphs offset (lexis.trace mode text) = [] := by
  have hbrackets := Bracket.ofGlyphs_add offset 0 (lexis.trace .code text)
  rw [ofGlyphs_of_outside hmode]
  rw [← Lexis.brackets, h.brackets] at hbrackets
  exact hbrackets

theorem Bare.append (hleft : lexis.Bare left) (hright : lexis.Bare right) :
    lexis.Bare (left ++ right) where
  outside := by
    rw [run_append]
    exact outside_run hleft.outside hright.outside
  brackets := by
    rw [Lexis.brackets, trace_append, Bracket.ofGlyphs_append,
      hleft.ofGlyphs (Or.inl rfl), hright.ofGlyphs hleft.outside,
      List.append_nil]

theorem Quiet.bare (h : lexis.Quiet text) : lexis.Bare text where
  outside := h.outside .code (Or.inl rfl)
  brackets := by
    have hmute := ofGlyphs_append_of_mute (h.mute .code (Or.inl rfl)) 0 []
    rwa [List.append_nil] at hmute

theorem bare_of_unmarked (h : Unmarked text) : lexis.Bare text :=
  (quiet_unmarked h).bare

theorem bare_separator {c : Char} (hc : c = ',' ∨ c = ';') : lexis.Bare [c] := by
  constructor
  · left
    rcases hc with rfl | rfl <;> simp [step, afterCode]
  · rcases hc with rfl | rfl <;>
      simp [Lexis.brackets, Bracket.ofGlyphs, Glyph.isCode]

/-- The contents of a literal up to the quote that closes it. -/
structure Closes (lexis : Lexis) (text : Text) : Prop where
  run : lexis.run .literal text = .closed
  brackets : ∀ offset, Bracket.ofGlyphs offset (lexis.trace .literal text) = []

theorem closes_quote : lexis.Closes ['\''] :=
  ⟨rfl, fun _ => rfl⟩

/-- A character, or two that belong together, in front of more contents. -/
theorem Closes.append (left : Text) (hrun : lexis.run .literal left = .literal)
    (hbrackets : ∀ offset,
      Bracket.ofGlyphs offset (lexis.trace .literal left) = [])
    (h : lexis.Closes right) : lexis.Closes (left ++ right) where
  run := by rw [run_append, hrun, h.run]
  brackets := by
    intro offset
    rw [trace_append, hrun, Bracket.ofGlyphs_append, hbrackets, h.brackets,
      List.append_nil]

theorem Closes.bare (h : lexis.Closes text) : lexis.Bare ('\'' :: text) where
  outside := Or.inr h.run
  brackets := by
    rw [Lexis.brackets, trace_cons, Bracket.ofGlyphs_of_ne (by decide) (by decide)]
    exact h.brackets _

end Lexis

namespace TableOption

open Header (Behind)

variable {text rest : Text}

/-- What is read as a text without marks has none. -/
theorem unmarked_of_map_foldCapital {keyword used : Text}
    (hkeyword : Unmarked keyword) (h : used.map foldCapital = keyword) :
    Unmarked used := by
  have hmarks : ∀ mark ∈ marks, foldCapital mark = mark := by decide
  intro c hc hmark
  apply hkeyword (foldCapital c)
  · rw [← h]
    exact List.mem_map_of_mem hc
  · rw [hmarks c hmark]
    exact hmark

theorem behind_afterKeyword {keyword : Text} (hkeyword : Unmarked keyword)
    (h : afterKeyword? keyword text = some rest) : Behind rest text := by
  obtain ⟨used, hsplit, hused⟩ := afterKeyword?_eq_some_iff.mp h
  exact ⟨used, hsplit, unmarked_of_map_foldCapital hkeyword hused⟩

theorem behind_afterAny {keywords : List Text}
    (hkeywords : ∀ keyword ∈ keywords, Unmarked keyword)
    (h : afterAny? keywords text = some rest) : Behind rest text := by
  obtain ⟨keyword, hmem, hread⟩ := List.exists_of_findSome?_eq_some h
  exact behind_afterKeyword (hkeywords keyword hmem) hread

theorem behind_trimStart (text : Text) : Behind (trimStart text) text := by
  obtain ⟨blanks, hsplit, hblanks⟩ := trimStart_split text
  exact ⟨blanks, hsplit, unmarked_of_blanks hblanks⟩

theorem behind_afterCharset (h : afterCharset? text = some rest) :
    Behind rest text := by
  rcases Option.or_eq_some_iff.mp h with hword | ⟨_, hset⟩
  · exact behind_afterAny (by decide) hword
  · obtain ⟨middle, hfirst, hsecond⟩ := Option.bind_eq_some_iff.mp hset
    exact (behind_afterKeyword (by decide) hsecond).trans
      (Header.behind_of_keyword (by decide) hfirst)

/-- The name of an option holds no mark. -/
theorem behind_afterName (h : afterName? text = some rest) :
    Behind rest text := by
  rcases Option.or_eq_some_iff.mp h with hplain | ⟨_, hcharset⟩
  · exact behind_afterAny (by decide) hplain
  · exact (behind_afterCharset hcharset).trans (of_getD (motive := (Behind · _)) (.refl _)
      fun _ hread => Header.behind_of_keyword (by decide) hread)

/-- The text that is left behind a piece that is bare. -/
def Leads (lexis : Lexis) (rest text : Text) : Prop :=
  ∃ front, text = front ++ rest ∧ lexis.Bare front

variable {lexis : Lexis}

theorem Leads.trans {middle : Text} (h : Leads lexis rest middle)
    (h' : Leads lexis middle text) : Leads lexis rest text := by
  obtain ⟨right, rfl, hright⟩ := h
  obtain ⟨left, rfl, hleft⟩ := h'
  exact ⟨left ++ right, by simp, hleft.append hright⟩

theorem leads_of_behind (h : Behind rest text) : Leads lexis rest text := by
  obtain ⟨front, hsplit, hfront⟩ := h
  exact ⟨front, hsplit, Lexis.bare_of_unmarked hfront⟩

theorem leads_comma (text : Text) :
    Leads lexis (dropOne (· == ',') text) text := by
  cases text with
  | nil => exact ⟨[], rfl, Lexis.bare_nil⟩
  | cons c tail =>
      by_cases hc : c = ','
      · subst hc
        exact ⟨[','], rfl, Lexis.bare_separator (Or.inl rfl)⟩
      · exact ⟨[], by simp [dropOne, hc], Lexis.bare_nil⟩

theorem behind_equals (text : Text) : Behind (dropOne (· == '=') text) text := by
  obtain ⟨front, hsplit, hfront⟩ := dropOne_split (· == '=') text
  refine ⟨front, hsplit, fun c hc => ?_⟩
  rw [eq_of_beq (hfront c hc)]
  decide

/-- A backslash in the text means the same to the reader of options and to the
reader with modes. -/
def SameEscapes (lexis : Lexis) (text : Text) : Prop :=
  lexis.escapes = true ∨ '\\' ∉ text

theorem SameEscapes.mono {other : Text} (h : SameEscapes lexis text)
    (hsub : other ⊆ text) : SameEscapes lexis other :=
  h.imp_right fun hnot hmem => hnot (hsub hmem)

/-- The literal of an option closes where the reader with modes closes it, unless a
backslash in it means different things to the two.  Where a doubled quote was
tried and the literal is not closed behind it, the text behind its first quote is
left. -/
theorem afterLiteral?_split (lexis : Lexis) {fallback : Option Text}
    (h : afterLiteral? fallback text = some rest) :
    fallback = some rest ∨ ∃ used, text = used ++ rest ∧
      used.getLast? = some '\'' ∧
      (SameEscapes lexis used → lexis.Closes used) := by
  fun_induction afterLiteral? fallback text with
  | case1 | case3 | case6 => exact Or.inl h
  | case2 =>
      obtain rfl := Option.some.inj h
      exact Or.inr ⟨['\''], rfl, rfl, fun _ => Lexis.closes_quote⟩
  | case4 fallback behind ih =>
      right
      rcases ih h with hfirst | ⟨used, rfl, hlast, hcloses⟩
      · obtain rfl := Option.some.inj hfirst
        exact ⟨['\''], rfl, rfl, fun _ => Lexis.closes_quote⟩
      · refine ⟨'\'' :: '\'' :: used, rfl, ?_, fun hescapes => ?_⟩
        · simp [List.getLast?_cons, hlast]
        · have hused := hcloses (hescapes.mono (by simp))
          exact hused.append ['\'', '\''] rfl fun _ => rfl
  | case5 fallback next behind hnext =>
      obtain rfl := Option.some.inj h
      exact Or.inr ⟨['\''], rfl, rfl, fun _ => Lexis.closes_quote⟩
  | case7 fallback next behind hquote hnewline ih =>
      rcases ih h with hfallback | ⟨used, rfl, hlast, hcloses⟩
      · exact Or.inl hfallback
      · refine Or.inr ⟨'\\' :: next :: used, rfl, ?_, fun hescapes => ?_⟩
        · simp [List.getLast?_cons, hlast]
        · have htrue : lexis.escapes = true :=
            hescapes.resolve_right fun hnot => hnot List.mem_cons_self
          have hstep : lexis.step .literal '\\' = .escaped := by
            simp [Lexis.step, htrue]
          refine (hcloses (Or.inl htrue)).append ['\\', next] ?_ ?_
          · rw [Lexis.run_cons, hstep]
            rfl
          · intro offset
            rw [Lexis.trace_cons, hstep]
            rfl
  | case8 fallback c next behind hquote hbackslash ih =>
      rcases ih h with hfallback | ⟨used, hsplit, hlast, hcloses⟩
      · exact Or.inl hfallback
      · refine Or.inr ⟨c :: used, by rw [hsplit]; rfl, ?_, fun hescapes => ?_⟩
        · simp [List.getLast?_cons, hlast]
        · have hstep : lexis.step .literal c = .literal := by
            simp [Lexis.step, hquote, hbackslash]
          have hused := hcloses (hescapes.mono (List.subset_cons_self c used))
          refine hused.append [c] ?_ fun offset => ?_
          · rw [Lexis.run_cons, hstep, Lexis.run_nil]
          · exact Bracket.ofGlyphs_of_not_inCode rfl offset c []

/-- No word runs from one text into the other. -/
def Parted (left right : Text) : Prop :=
  left.getLast?.any isWordChar = false ∨ right.head?.any isWordChar = false

theorem Parted.append {left : Text} (h : Parted left rest) (hne : left ≠ [])
    (front : Text) : Parted (front ++ left) rest := by
  rw [Parted, List.getLast?_append_of_ne_nil front hne]
  exact h

/-- A piece of options: no word of it runs into the text that is left, and it is
bare when its backslashes mean the same to both readers. -/
structure Dropped (lexis : Lexis) (options rest : Text) : Prop where
  parted : Parted options rest
  bare : SameEscapes lexis options → lexis.Bare options

/-- The value of an option is one literal or one whole word. -/
theorem afterValue?_split (lexis : Lexis) (h : afterValue? text = some rest) :
    ∃ value, text = value ++ rest ∧ value ≠ [] ∧ Dropped lexis value rest := by
  cases text with
  | nil => simp [afterValue?] at h
  | cons c tail =>
      by_cases hquote : c = '\''
      · subst hquote
        rcases afterLiteral?_split lexis h with hnone | ⟨used, rfl, hlast, hcloses⟩
        · contradiction
        · refine ⟨'\'' :: used, rfl, by simp, Or.inl ?_, fun hescapes => ?_⟩
          · rw [List.getLast?_cons, hlast]
            decide
          · exact (hcloses (hescapes.mono (List.subset_cons_self _ used))).bare
      · by_cases hword : isWordChar c = true
        · simp only [afterValue?, hquote, ↓reduceIte, hword,
            Option.some.injEq] at h
          subst h
          refine ⟨c :: tail.takeWhile isWordChar, ?_, by simp, Or.inr ?_,
            fun _ => Lexis.bare_of_unmarked ?_⟩
          · rw [List.cons_append, List.takeWhile_append_dropWhile]
          · cases hrest : tail.dropWhile isWordChar with
            | nil => rfl
            | cons next behind =>
                have hnext := List.head?_dropWhile_not isWordChar tail
                rw [hrest] at hnext
                simpa using hnext
          · intro other hother
            apply not_mem_marks_of_isWordChar
            rcases List.mem_cons.mp hother with rfl | hother
            · exact hword
            · exact List.mem_takeWhile_imp hother
        · simp [afterValue?, hquote, hword] at h

/-- One option. -/
theorem after?_split (lexis : Lexis) (h : after? text = some rest) :
    ∃ option, text = option ++ rest ∧ option ≠ [] ∧
      Dropped lexis option rest := by
  obtain ⟨middle, hname, hvalue⟩ := Option.bind_eq_some_iff.mp h
  have hlead : Leads lexis middle text :=
    (leads_of_behind ((behind_afterName hname).trans (behind_trimStart _))).trans
      ((leads_comma _).trans (leads_of_behind (behind_trimStart text)))
  have hsign : Leads lexis (trimStart (dropOne (· == '=') (trimStart middle)))
      middle :=
    leads_of_behind ((behind_trimStart _).trans
      ((behind_equals _).trans (behind_trimStart middle)))
  obtain ⟨front, hfront, hbare⟩ := hsign.trans hlead
  obtain ⟨value, hsplit, hne, hvalue⟩ := afterValue?_split lexis hvalue
  refine ⟨front ++ value, ?_, by simp [hne], hvalue.parted.append hne front,
    fun hescapes => hbare.append (hvalue.bare (hescapes.mono ?_))⟩
  · rw [hfront, hsplit, List.append_assoc]
  · exact List.subset_append_right front value

/-- All options behind a definition. -/
theorem afterAll_split (lexis : Lexis) (text : Text) :
    ∃ options, text = options ++ afterAll text ∧
      Dropped lexis options (afterAll text) := by
  fun_induction afterAll text with
  | case1 text hnone =>
      exact ⟨[], rfl, Or.inl rfl, fun _ => Lexis.bare_nil⟩
  | case2 text rest hsome ih =>
      obtain ⟨option, hsplit, hne, hoption⟩ := after?_split lexis hsome
      obtain ⟨others, hothers, hdropped⟩ := ih
      refine ⟨option ++ others, ?_, ?_, fun hescapes => ?_⟩
      · rw [List.append_assoc, ← hothers, hsplit]
      · cases others with
        | nil =>
            rw [List.nil_append] at hothers
            rw [List.append_nil, ← hothers]
            exact hoption.parted
        | cons c others => exact hdropped.parted.append (by simp) option
      · exact (hoption.bare (hescapes.mono (List.subset_append_left _ _))).append
          (hdropped.bare (hescapes.mono (List.subset_append_right _ _)))

end TableOption

end DdlDiagram
