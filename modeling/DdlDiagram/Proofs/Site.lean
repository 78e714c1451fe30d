/-
The table sites of a printed script.  Headers that stand in literals are no sites,
and every definition is one, with the brackets around its body.
-/
import DdlDiagram.Proofs.Printing
import DdlDiagram.TableSite

namespace DdlDiagram

open Text

/-- A prefix is known by its length in bytes. -/
theorem Text.eq_of_byteLength {left left' right right' : Text}
    (h : left ++ right = left' ++ right')
    (hlength : byteLength left = byteLength left') : left = left' := by
  calc
    left = takeBytes (byteLength left) (left ++ right) :=
      (takeBytes_append left right).symm
    _ = takeBytes (byteLength left') (left' ++ right') := by rw [h, hlength]
    _ = left' := takeBytes_append left' right'

/-- A shorter prefix of a text is a prefix of a longer one. -/
theorem Text.exists_of_byteLength_le {left left' right right' : Text}
    (h : left ++ right = left' ++ right')
    (hle : byteLength left ≤ byteLength left') :
    ∃ middle, left' = left ++ middle ∧ right = middle ++ right' := by
  rcases List.append_eq_append_iff.mp h with
    ⟨middle, rfl, rfl⟩ | ⟨middle, rfl, rfl⟩
  · exact ⟨middle, rfl, rfl⟩
  · cases middle with
    | nil => exact ⟨[], by simp, rfl⟩
    | cons c middle =>
        have hpos := c.utf8Size_pos
        rw [byteLength_append, byteLength_cons] at hle
        omega

theorem Bracket.ofGlyphs_append (offset : Nat) (left right : List Glyph) :
    ofGlyphs offset (left ++ right) = ofGlyphs offset left ++
      ofGlyphs (offset + byteLength (left.map Glyph.char)) right := by
  induction left generalizing offset with
  | nil => rfl
  | cons glyph rest ih =>
      rw [List.cons_append, ofGlyphs_cons, ih, ofGlyphs_cons offset glyph rest,
        List.append_assoc, List.map_cons, byteLength_cons, Nat.add_assoc]

open Lexis (Outside)

section sites

variable {dialect : Dialect} {name pre back : Text}

/-- A header whose bracket stands in a literal or a comment is no site. -/
theorem TableSite.ofHeader?_eq_none
    (h : (dialect.lexis.run .code pre).inCode = false) :
    ofHeader? (dialect.lexis.bracketPairs (pre ++ back))
      ⟨name, byteLength pre⟩ = none := by
  rw [ofHeader?, Option.map_eq_none_iff, List.find?_eq_none]
  intro pair hpair hoffset
  rw [beq_iff_eq] at hoffset
  change pair.opening = byteLength pre at hoffset
  have hmem : ⟨byteLength pre, .opening⟩ ∈ dialect.structural (pre ++ back) := by
    rw [← Dialect.mem_openings_iff, ← hoffset]
    exact List.mem_map_of_mem hpair
  obtain ⟨left, right, hsplit⟩ := List.append_of_mem hmem
  rw [← Dialect.brackets_eq_structural, Lexis.brackets] at hsplit
  obtain ⟨front, behind, htext, hlength, hmode, _⟩ :=
    Lexis.exists_of_ofGlyphs_eq hsplit
  rw [Nat.zero_add] at hlength
  obtain rfl := eq_of_byteLength htext hlength
  rw [h] at hmode
  contradiction

/-- A header whose bracket is closed has a site. -/
theorem TableSite.ofHeader?_of_closing? {lexis : Lexis} {text : Text} {opening closing : Nat}
    (h : lexis.closing? text opening = some closing) (name : Text) :
    ofHeader? (lexis.bracketPairs text) ⟨name, opening⟩ =
      some ⟨name, opening, some closing⟩ := by
  obtain ⟨pair, hfound, hclosing⟩ := Option.bind_eq_some_iff.mp h
  rw [ofHeader?, hfound, Option.map_some, hclosing]

/-- A header in front of a body that is a passage is a site, closed behind the
body. -/
theorem TableSite.ofHeader?_of_passage {body : Text}
    (hpre : Outside (dialect.lexis.run .code pre))
    (hbody : Passage dialect.backslashEscapes true 0 body 0) :
    ofHeader? (dialect.lexis.bracketPairs
        (pre ++ '(' :: (body ++ ')' :: back))) ⟨name, byteLength pre⟩ =
      some ⟨name, byteLength pre,
        some (byteLength pre + 1 + byteLength body)⟩ := by
  have hreads : dialect.lexis.Reads true 0 body 0 := Lexis.reads_passage hbody
  have hmode := hreads.outside .code (Or.inl rfl)
  have hopening := Lexis.ofGlyphs_bracket dialect.lexis hpre.inCode .opening
    (byteLength pre) (body ++ ')' :: back)
  have hclosing := Lexis.ofGlyphs_bracket dialect.lexis hmode.inCode .closing
    (byteLength pre + 1 + byteLength body) back
  have hbrackets : dialect.structural (pre ++ '(' :: (body ++ ')' :: back)) =
      Bracket.ofGlyphs 0 (dialect.lexis.trace .code pre) ++
        ⟨byteLength pre, .opening⟩ :: Bracket.ofGlyphs (byteLength pre + 1)
          (dialect.lexis.trace .code (body ++ ')' :: back)) := by
    rw [← Dialect.brackets_eq_structural, Lexis.brackets, Lexis.trace_append,
      Bracket.ofGlyphs_append, Lexis.map_char_trace, Nat.zero_add]
    exact congrArg _ hopening
  have hcloser : Bracket.closer 0 (Bracket.ofGlyphs (byteLength pre + 1)
      (dialect.lexis.trace .code (body ++ ')' :: back))) =
        some (byteLength pre + 1 + byteLength body) := by
    rw [Lexis.trace_append, hreads.closer .code (Or.inl rfl)]
    exact congrArg (Bracket.closer 0) hclosing
  exact ofHeader?_of_closing? ((Dialect.closing?_of_eq_append hbrackets).trans hcloser) name

section marks

variable {front rest : Text} {mark : Char}

theorem outside_bracket (hpre : Outside (dialect.lexis.run .code pre))
    (hmark : mark = '(' ∨ mark = ')' ∨ mark = ',') :
    Outside (dialect.lexis.run .code (pre ++ [mark])) := by
  rw [Lexis.run_append, Lexis.run_cons, Lexis.run_nil,
    Lexis.step_eq_code hpre.inCode hmark]
  exact Or.inl rfl

theorem outside_mark (hpre : Outside (dialect.lexis.run .code pre))
    (hfront : Unmarked front) (hmark : mark = '(' ∨ mark = ')' ∨ mark = ',') :
    Outside (dialect.lexis.run .code (pre ++ (front ++ [mark]))) := by
  have hquiet : dialect.lexis.Quiet front := Lexis.quiet_unmarked hfront
  have hmode := hquiet.outside _ hpre
  rw [← Lexis.run_append] at hmode
  rw [← List.append_assoc]
  exact outside_bracket hmode hmark

/-- The signs of definitions and literals take one byte each. -/
theorem utf8Size_signs : ' '.utf8Size = 1 ∧ '\''.utf8Size = 1 ∧
    '('.utf8Size = 1 ∧ ')'.utf8Size = 1 ∧ ';'.utf8Size = 1 := by
  decide

/-- The search behind a piece without marks and the mark behind it. -/
theorem Header.searchFrom_mark (hfront : Unmarked front) (hmark : mark ∈ marks)
    (hwords : mark ≠ '(' ∨ (words front).length ≤ 2) (previous : Option Char) :
    searchFrom previous (byteLength pre) 0
        ((front ++ mark :: rest) ++ ')' :: back) =
      searchFrom (some mark) (byteLength (pre ++ (front ++ [mark]))) 0
        (rest ++ ')' :: back) := by
  rw [List.append_assoc, List.cons_append,
    searchFrom_unmarked hfront hmark hwords, byteLength_append,
    byteLength_append, byteLength_cons, byteLength_nil, Nat.add_zero,
    Nat.add_assoc]

end marks

/-- A bracket in the contents of a literal is not read in code. -/
theorem inCode_of_enclosed {lexis : Lexis} {content left right : Text}
    (hcontent : lexis.Enclosed content) (hsplit : content = left ++ '(' :: right) :
    (lexis.run .literal left).inCode = false := by
  have hglyph : ⟨lexis.run .literal left, '('⟩ ∈ lexis.trace .literal content := by
    rw [hsplit, Lexis.trace_append, Lexis.trace_cons]
    exact List.mem_append_right _ List.mem_cons_self
  rcases hcontent.solid _ hglyph with hliteral | hquote
  · simp [Mode.inCode, hliteral]
  · have hne : '(' ≠ '\'' := by decide
    exact absurd hquote hne

/-- No header that begins in the contents of a literal is a site. -/
theorem Header.filterMap_searchFrom_enclosed {content text : Text}
    (hpre : Outside (dialect.lexis.run .code pre))
    (hcontent : dialect.lexis.Enclosed content)
    (htext : text = pre ++ (' ' :: '\'' :: (content ++ '\'' :: back))) :
    (searchFrom (some '\'') (byteLength pre + 2) 0
        (content ++ '\'' :: back)).filterMap
          (TableSite.ofHeader? (dialect.lexis.bracketPairs text)) =
      (searchFrom (some '\'') (byteLength pre + 2 + byteLength content + 1) 0
        back).filterMap
          (TableSite.ofHeader? (dialect.lexis.bracketPairs text)) := by
  apply filterMap_searchFrom (by decide) (by decide) (Nat.zero_le _)
  intro left right name hsplit
  have hshape : text = (pre ++ (' ' :: '\'' :: left)) ++
      ('(' :: (right ++ '\'' :: back)) := by
    rw [htext, hsplit]
    simp
  have hlength : byteLength pre + 2 + byteLength left =
      byteLength (pre ++ (' ' :: '\'' :: left)) := by
    simp only [byteLength_append, byteLength_cons, utf8Size_signs]
    omega
  rw [hshape, hlength]
  apply TableSite.ofHeader?_eq_none
  rw [Lexis.run_append, Lexis.run_cons, Lexis.step_unmarked hpre (by decide)]
  exact inCode_of_enclosed hcontent hsplit

/-- No header that begins in front of a literal's end is a site. -/
theorem Header.filterMap_searchFrom_literal {front text : Text}
    (hpre : Outside (dialect.lexis.run .code pre)) (hfront : Unmarked front)
    (content : Text) (previous : Option Char)
    (htext : text = pre ++ (front ++ ' ' ::
      (literalOf dialect.lexis.escapes content ++ back))) :
    (searchFrom previous (byteLength pre) 0 (front ++ ' ' ::
        (literalOf dialect.lexis.escapes content ++ back))).filterMap
          (TableSite.ofHeader? (dialect.lexis.bracketPairs text)) =
      (searchFrom (some '\'') (byteLength (pre ++ (front ++ ' ' ::
        literalOf dialect.lexis.escapes content))) 0 back).filterMap
          (TableSite.ofHeader? (dialect.lexis.bracketPairs text)) := by
  have hlead : Unmarked (front ++ [' ']) := hfront.append unmarked_space
  have hquiet : dialect.lexis.Quiet front := Lexis.quiet_unmarked hfront
  have hmode : Outside (dialect.lexis.run .code (pre ++ front)) := by
    rw [Lexis.run_append]
    exact hquiet.outside _ hpre
  have hpieces : front ++ ' ' ::
      (literalOf dialect.lexis.escapes content ++ back) =
        (front ++ [' ']) ++ '\'' ::
          (escaped dialect.lexis.escapes content ++ '\'' :: back) := by
    simp [literalOf]
  have hinner := filterMap_searchFrom_enclosed hmode
    (Lexis.enclosed_escaped dialect.lexis content)
    (show text = (pre ++ front) ++ (' ' :: '\'' ::
      (escaped dialect.lexis.escapes content ++ '\'' :: back)) by
        rw [htext, hpieces]
        simp)
  have hstart : byteLength pre + byteLength (front ++ [' ']) + '\''.utf8Size =
      byteLength (pre ++ front) + 2 := by
    rw [byteLength_append, byteLength_append]
    rfl
  have hend : byteLength (pre ++ front) + 2 +
      byteLength (escaped dialect.lexis.escapes content) + 1 =
        byteLength (pre ++ (front ++ ' ' ::
          literalOf dialect.lexis.escapes content)) := by
    simp only [literalOf, byteLength_append, byteLength_cons, byteLength_nil,
      utf8Size_signs]
    omega
  rw [hpieces, searchFrom_unmarked hlead (by decide)
    (Or.inl (by decide)), hstart, hinner, hend]

/-- No header that begins in a passage is a site. -/
theorem Passage.filterMap_searchFrom {depth last : Nat} {text passage : Text}
    (h : Passage dialect.lexis.escapes true depth passage last)
    (hpre : Outside (dialect.lexis.run .code pre)) (previous : Option Char)
    (htext : text = pre ++ (passage ++ ')' :: back)) :
    (Header.searchFrom previous (byteLength pre) 0
        (passage ++ ')' :: back)).filterMap
          (TableSite.ofHeader? (dialect.lexis.bracketPairs text)) =
      (Header.searchFrom (some ')') (byteLength (pre ++ passage) + 1) 0
        back).filterMap
          (TableSite.ofHeader? (dialect.lexis.bracketPairs text)) := by
  induction h generalizing pre previous with
  | plain hfront =>
      rw [Header.searchFrom_unmarked hfront (by decide)
        (Or.inl (by decide)), byteLength_append]
      rfl
  | opening hfront hwords _ ih =>
      have hih := ih (outside_mark hpre hfront (Or.inl rfl)) (some '(')
        (by simpa using htext)
      rw [Header.searchFrom_mark hfront (by decide) (Or.inr hwords), hih]
      simp
  | closing hfront _ ih =>
      have hih := ih (outside_mark hpre hfront (Or.inr (Or.inl rfl)))
        (some ')') (by simpa using htext)
      rw [Header.searchFrom_mark hfront (by decide)
        (Or.inl (by decide)), hih]
      simp
  | comma hfront _ _ ih =>
      have hih := ih (outside_mark hpre hfront (Or.inr (Or.inr rfl)))
        (some ',') (by simpa using htext)
      rw [Header.searchFrom_mark hfront (by decide)
        (Or.inl (by decide)), hih]
      simp
  | @literal depth last front rest hfront content _ ih =>
      have hmode : Outside (dialect.lexis.run .code
          (pre ++ (front ++ ' ' :: literalOf dialect.lexis.escapes content))) := by
        have hquiet : dialect.lexis.Quiet
            (front ++ ' ' :: literalOf dialect.lexis.escapes content) :=
          (Lexis.quiet_unmarked hfront).append
            (Lexis.quiet_literal dialect.lexis content)
        rw [Lexis.run_append]
        exact hquiet.outside _ hpre
      have hih := ih hmode (some '\'') (by simpa using htext)
      have hliteral := Header.filterMap_searchFrom_literal hpre hfront content
        previous (by simpa using htext)
      rw [List.append_assoc] at hih
      simp only [List.append_assoc, List.cons_append] at hih ⊢
      rw [hliteral, hih]

end sites

/-- The sites of definitions that follow one another from a byte offset. -/
def Placed.sites (spelling : Spelling) (offset : Nat) :
    List Placed → List TableSite
  | [] => []
  | placed :: rest =>
      let opening := offset +
        byteLength (placed.lead ++ placed.draft.header spelling)
      let closing := opening + 1 + byteLength (placed.draft.body spelling)
      ⟨placed.draft.name.text, opening, some closing⟩ ::
        sites spelling (closing + 2) rest

theorem Script.textOf_cons (spelling : Spelling) (placed : Placed)
    (rest : List Placed) (trail : Text) :
    textOf spelling (placed :: rest) ++ trail =
      placed.lead ++ (placed.draft.header spelling ++ '(' ::
        (placed.draft.body spelling ++ ')' :: ';' ::
          (textOf spelling rest ++ trail))) := by
  have hend : ");".toList = [')', ';'] := by decide
  have hstatement : placed.draft.statement spelling =
      placed.draft.header spelling ++ '(' ::
        (placed.draft.body spelling ++ [')', ';']) := by
    rw [← hend]
    rfl
  rw [textOf, List.flatMap_cons, hstatement, ← textOf]
  simp only [List.append_assoc, List.cons_append, List.nil_append]

section script

variable (dialect : Dialect)

theorem TableDraft.unmarked_header (draft : TableDraft) :
    Unmarked (draft.header dialect.plainSpelling) := by
  have hcreate : Unmarked "CREATE TABLE ".toList := by decide
  rw [draft.header_plain]
  exact hcreate.append (draft.name.unmarked.append unmarked_space)

theorem TableDraft.header_ne_nil (draft : TableDraft) :
    draft.header dialect.plainSpelling ≠ [] := by
  rw [draft.header_plain]
  simp

theorem byteLength_definition (front body : Text) :
    byteLength (front ++ '(' :: (body ++ ')' :: [';'])) =
      byteLength front + 1 + byteLength body + 2 := by
  simp only [byteLength_append, byteLength_cons, byteLength_nil,
    utf8Size_signs]
  omega

/-- Behind a definition comes code. -/
theorem outside_definition {pre body : Text}
    (hpre : Outside (dialect.lexis.run .code pre))
    (hbody : Passage dialect.lexis.escapes true 0 body 0) :
    Outside (dialect.lexis.run .code
      (pre ++ '(' :: (body ++ ')' :: [';']))) := by
  have hreads : dialect.lexis.Reads true 0 body 0 := Lexis.reads_passage hbody
  have hopened := outside_bracket hpre (Or.inl rfl)
  have hmode := hreads.outside _ hopened
  rw [← Lexis.run_append] at hmode
  have hclosed := outside_bracket hmode (Or.inr (Or.inl rfl))
  have hsemicolon : ∀ mode, Outside mode →
      dialect.lexis.step mode ';' = .code := by
    intro mode hmode
    rcases hmode with rfl | rfl <;> simp [Lexis.step, Lexis.afterCode]
  have hshape : pre ++ '(' :: (body ++ ')' :: [';']) =
      pre ++ ['('] ++ body ++ [')'] ++ [';'] := by
    simp
  rw [hshape, Lexis.run_append, Lexis.run_cons, Lexis.run_nil,
    hsemicolon _ hclosed]
  exact Or.inl rfl

/-- The sites behind the bracket that opens a body are those behind the
definition. -/
theorem filterMap_searchFrom_body {front body tail text : Text}
    (hfront : Outside (dialect.lexis.run .code front))
    (hbody : Passage dialect.lexis.escapes true 0 body 0)
    (htext : text = front ++ '(' :: (body ++ ')' :: ';' :: tail)) :
    (Header.searchFrom (some '(') (byteLength front + 1) 0
        (body ++ ')' :: ';' :: tail)).filterMap
          (TableSite.ofHeader? (dialect.lexis.bracketPairs text)) =
      (Header.searchFrom (some ';')
        (byteLength (front ++ '(' :: (body ++ ')' :: [';']))) 0 tail).filterMap
          (TableSite.ofHeader? (dialect.lexis.bracketPairs text)) := by
  have hopened := outside_bracket hfront (Or.inl rfl)
  have hinner := hbody.filterMap_searchFrom hopened (some '(')
    (show text = front ++ ['('] ++ (body ++ ')' :: ';' :: tail) by simp [htext])
  have hstart : byteLength front + 1 = byteLength (front ++ ['(']) := by
    rw [byteLength_append]
    rfl
  have hsemicolon : ∀ offset, Header.searchFrom (some ')') offset 0 (';' :: tail) =
      Header.searchFrom (some ';') (offset + 1) 0 tail := by
    intro offset
    exact Header.searchFrom_unmarked unmarked_nil (by decide)
      (Or.inl (by decide)) tail
  have hend : byteLength (front ++ ['('] ++ body) + 1 + 1 =
      byteLength (front ++ '(' :: (body ++ ')' :: [';'])) := by
    simp only [byteLength_append, byteLength_cons, byteLength_nil,
      utf8Size_signs]
    omega
  rw [hstart, hinner, hsemicolon, hend]

/-- The headers of a script that are sites are those of its definitions. -/
theorem Placed.filterMap_searchFrom (tables : List Placed) {pre trail text : Text}
    (hpre : Outside (dialect.lexis.run .code pre)) {previous : Option Char}
    (hprevious : previous.any isWordChar = false)
    (htrail : ∀ c ∈ trail, isBlank c = true)
    (htext : text = pre ++ (Script.textOf dialect.plainSpelling tables ++ trail)) :
    (Header.searchFrom previous (byteLength pre) 0
        (Script.textOf dialect.plainSpelling tables ++ trail)).filterMap
          (TableSite.ofHeader? (dialect.lexis.bracketPairs text)) =
      Placed.sites dialect.plainSpelling (byteLength pre) tables := by
  induction tables generalizing pre previous with
  | nil =>
      change (Header.searchFrom previous (byteLength pre) 0 trail).filterMap _ = []
      rw [Header.searchFrom_eq_nil (unmarked_of_blanks htrail)]
      rfl
  | cons placed rest ih =>
      have hlead : ∀ c ∈ placed.lead, isBlank c = true :=
        List.all_eq_true.mp placed.blank
      have hquiet : dialect.lexis.Quiet
          (placed.lead ++ placed.draft.header dialect.plainSpelling) :=
        Lexis.quiet_unmarked ((unmarked_of_blanks hlead).append
          (placed.draft.unmarked_header dialect))
      have hfront := hquiet.outside _ hpre
      rw [← Lexis.run_append] at hfront
      have hbody : Passage dialect.lexis.escapes true 0
          (placed.draft.body dialect.plainSpelling) 0 :=
        placed.draft.passage_body dialect
      rw [Script.textOf_cons] at htext ⊢
      have hshape := htext
      rw [← List.append_assoc placed.lead, ← List.append_assoc pre] at hshape
      obtain ⟨last, hlast, hblanks⟩ := Header.searchFrom_blanks hprevious hlead
        (placed.draft.header dialect.plainSpelling ++ '(' ::
          (placed.draft.body dialect.plainSpelling ++ ')' :: ';' ::
            (Script.textOf dialect.plainSpelling rest ++ trail)))
      have hstart : byteLength pre + byteLength placed.lead +
          byteLength (placed.draft.header dialect.plainSpelling) = byteLength
            (pre ++ (placed.lead ++ placed.draft.header dialect.plainSpelling)) := by
        rw [byteLength_append, byteLength_append, Nat.add_assoc]
      have hih := ih (outside_definition dialect hfront hbody)
        (show (some ';').any isWordChar = false by decide)
        (by rw [hshape]; simp)
      rw [hblanks, Header.searchFrom_of_read? hlast
          (placed.draft.header_ne_nil dialect)
          (Header.read?_header dialect placed.draft _),
        List.filterMap_cons, hstart, hshape,
        TableSite.ofHeader?_of_passage hfront hbody, ← hshape]
      dsimp only
      rw [filterMap_searchFrom_body dialect hfront hbody hshape, hih,
        byteLength_definition, byteLength_append pre, Placed.sites]

/-- The table sites of a script are its definitions. -/
theorem Script.sites_spelled (script : Script) :
    TableSite.all dialect.lexis (script.spelled dialect.plainSpelling) =
      Placed.sites dialect.plainSpelling 0 script.tables := by
  have htrail : ∀ c ∈ script.trail, isBlank c = true :=
    List.all_eq_true.mp script.blank
  exact Placed.filterMap_searchFrom dialect script.tables
    (show Outside (dialect.lexis.run .code []) from Or.inl rfl)
    (show Option.any isWordChar none = false from rfl) htrail rfl

end script

end DdlDiagram
