/-
Options out of a text.  Behind a definition whose body is closed, all options up to the
semicolon are dropped, whatever headers stand in the body; and the text behind the
semicolon is ended as if it stood alone, whatever it holds.  The brackets of the definition
pair among themselves, so no bracket behind the semicolon changes a site in front of it,
and the sites in front are closed where the options begin.
-/
import DdlDiagram.Proofs.ClausePlace
import DdlDiagram.Proofs.Locality
import DdlDiagram.Proofs.OptionWriting
import DdlDiagram.Proofs.Terminating

namespace DdlDiagram

open Text
open Lexis (Bare)

namespace Bracket

variable {left : List Bracket}

/-- Brackets that close what they open pair among themselves, and leave waiting as many as
were open in front. -/
theorem pairUp_append_of_nested {depth : Nat} (h : Nested depth left) (right : List Bracket) :
    pairUp (left ++ right) =
        ((pairUp left).1 ++ (pairUp right).1, (pairUp left).2 ++ (pairUp right).2) ∧
      (pairUp left).2.length = depth := by
  induction left generalizing depth with
  | nil => exact ⟨rfl, (Int.ofNat_eq_zero.mp h).symm⟩
  | cons bracket rest ih =>
      obtain ⟨offset, side⟩ := bracket
      cases side with
      | closing =>
          have hpos : 0 ≤ (depth : Int) - 1 := h.2.nonneg
          obtain ⟨depth, rfl⟩ := Nat.exists_eq_succ_of_ne_zero (show depth ≠ 0 by omega)
          have hrest : Nested (depth : Int) rest := by
            have hmove : Side.closing.move ((depth + 1 : Nat) : Int) = (depth : Int) := by
              simp only [Side.move, Int.natCast_add]
              omega
            exact hmove ▸ h.2
          obtain ⟨hpairs, hlength⟩ := ih hrest
          simp [pairUp, hpairs, hlength]
      | opening =>
          have hrest : Nested ((depth + 1 : Nat) : Int) rest := h.2
          obtain ⟨hpairs, hlength⟩ := ih hrest
          obtain ⟨nearest, others, hwaiting⟩ :=
            List.exists_cons_of_length_eq_add_one hlength
          rw [hwaiting, List.length_cons, Nat.add_right_cancel_iff] at hlength
          simp [pairUp, hpairs, hwaiting, hlength]

/-- The bracket behind those that close what they open ends what was open in front. -/
theorem closer_of_nested (h : Nested 0 left) (stop : Nat) (right : List Bracket) :
    closer 0 (left ++ ⟨stop, .closing⟩ :: right) = some stop := by
  have hnested : Nested ((0 : Nat) : Int) left := h
  obtain ⟨hpairs, hlength⟩ := pairUp_append_of_nested hnested (⟨stop, .closing⟩ :: right)
  have hnil := List.length_eq_zero_iff.mp hlength
  rw [← waiting_pairUp, hpairs, hnil]
  rfl

theorem Nested.append_closing {depth : Int} (h : Nested depth left) (stop : Nat) :
    Nested (depth + 1) (left ++ [⟨stop, .closing⟩]) := by
  induction left generalizing depth with
  | nil =>
      obtain rfl : depth = 0 := h
      exact ⟨Int.zero_le_ofNat 1, rfl⟩
  | cons bracket rest ih =>
      have hmove : bracket.side.move (depth + 1) = bracket.side.move depth + 1 := by
        cases bracket.side with
        | opening => rfl
        | closing =>
            simp only [Side.move]
            omega
      refine ⟨Int.le_trans h.1 (Int.le.intro 1 rfl), ?_⟩
      rw [hmove]
      exact ih h.2

end Bracket

namespace Lexis

variable {lexis : Lexis} {front body back : Text}

/-- Glyphs on which the depth never falls below zero and ends there hold brackets that
close what they open. -/
theorem nested_of_depth {glyphs : List Glyph} {depth : Int}
    (hnonneg : ∀ front, front <+: glyphs → 0 ≤ depthOf depth front)
    (htotal : depthOf depth glyphs = 0) (offset : Nat) :
    Bracket.Nested depth (Bracket.ofGlyphs offset glyphs) := by
  induction glyphs generalizing depth offset with
  | nil => exact htotal
  | cons glyph rest ih =>
      have hbehind : ∀ front, front <+: rest → 0 ≤ depthOf (depthAfter depth glyph) front :=
        fun front hfront => hnonneg (glyph :: front) (List.cons_prefix_cons.mpr ⟨rfl, hfront⟩)
      have hrest := ih hbehind htotal (offset + glyph.char.utf8Size)
      have hstart : 0 ≤ depth := hnonneg [] List.nil_prefix
      by_cases hopening : glyph.isCode '(' = true
      · rw [depthAfter, if_pos hopening] at hrest
        rw [Bracket.ofGlyphs, if_pos hopening]
        exact ⟨hstart, hrest⟩
      · by_cases hclosing : glyph.isCode ')' = true
        · rw [depthAfter, if_neg hopening, if_pos hclosing] at hrest
          rw [Bracket.ofGlyphs, if_neg hopening, if_pos hclosing]
          exact ⟨hstart, hrest⟩
        · rw [depthAfter, if_neg hopening, if_neg hclosing] at hrest
          rw [Bracket.ofGlyphs, if_neg hopening, if_neg hclosing]
          exact hrest

/-- A text whose brackets, literals and comments are closed. -/
structure IsClosed (lexis : Lexis) (text : Text) : Prop where
  balanced : Balanced (lexis.trace .code text)
  code : (lexis.run .code text).inCode = true

theorem IsClosed.nested (h : lexis.IsClosed body) (offset : Nat) :
    Bracket.Nested 0 (Bracket.ofGlyphs offset (lexis.trace .code body)) :=
  nested_of_depth h.balanced.nonneg h.balanced.total offset

/-- The brackets of a definition and of the text behind it. -/
theorem brackets_definition (hfront : lexis.Bare front) (hbody : lexis.IsClosed body)
    (back : Text) :
    lexis.brackets (front ++ '(' :: (body ++ ')' :: back)) =
      ⟨byteLength front, .opening⟩ ::
        (Bracket.ofGlyphs (byteLength front + 1) (lexis.trace .code body) ++
          ⟨byteLength front + 1 + byteLength body, .closing⟩ ::
            Bracket.ofGlyphs (byteLength front + 1 + byteLength body + 1)
              (lexis.trace .code back)) := by
  have hopening := ofGlyphs_bracket lexis hfront.outside.inCode .opening
    (byteLength front) (body ++ ')' :: back)
  have hclosing := ofGlyphs_bracket lexis hbody.code .closing
    (byteLength front + 1 + byteLength body) back
  have hnone : Bracket.ofGlyphs 0 (lexis.trace .code front) = [] := hfront.brackets
  rw [brackets, trace_append, Bracket.ofGlyphs_append, map_char_trace, Nat.zero_add, hnone,
    List.nil_append]
  refine hopening.trans (congrArg _ ?_)
  rw [trace_append, Bracket.ofGlyphs_append, map_char_trace]
  exact congrArg _ hclosing

/-- Behind a definition and a bare text comes code. -/
theorem inCode_definition {tail : Text} (hfront : lexis.Bare front)
    (hbody : lexis.IsClosed body) (htail : lexis.Bare tail) :
    (lexis.run .code (front ++ '(' :: (body ++ ')' :: tail))).inCode = true := by
  rw [run_append, run_cons, step_eq_code hfront.outside.inCode (Or.inl rfl), run_append,
    run_cons, step_eq_code hbody.code (Or.inr (Or.inl rfl))]
  exact htail.outside.inCode

end Lexis

namespace Dialect

open DdlDiagram.Bracket

variable {dialect : Dialect} {front body tail back : Text}

/-- Behind a text that closes what it opens, pairs are found as if the text behind stood
alone. -/
theorem bracketPairs_append_of_nested (hfront : dialect.lexis.run .code front = .code)
    (hnested : Nested 0 (dialect.lexis.brackets front)) (back : Text) :
    dialect.lexis.bracketPairs (front ++ back) =
      dialect.lexis.bracketPairs front ++ (dialect.lexis.bracketPairs back).map
        (BracketPair.moved (byteLength front + ·)) := by
  have hclosed : Nested ((0 : Nat) : Int) (dialect.lexis.brackets front) := hnested
  obtain ⟨hpairs, -⟩ := pairUp_append_of_nested hclosed
    ((dialect.lexis.brackets back).map (moved (byteLength front + ·)))
  rw [Lexis.bracketPairs, Lexis.brackets_append hfront, hpairs, pairUp_map]
  rfl

/-- The bracket that opens a body is closed by the one behind it. -/
theorem closing?_definition (hfront : dialect.lexis.Bare front)
    (hbody : dialect.lexis.IsClosed body) (back : Text) :
    dialect.lexis.closing? (front ++ '(' :: (body ++ ')' :: back)) (byteLength front) =
      some (byteLength front + 1 + byteLength body) := by
  have hbrackets := Lexis.brackets_definition hfront hbody back
  rw [brackets_eq_structural] at hbrackets
  -- No bracket stands in front of the one that opens the body.
  rw [closing?_of_eq_append (hbrackets.trans (List.nil_append _).symm)]
  exact closer_of_nested (hbody.nested _) _ _

section behind

variable (hfront : dialect.lexis.Bare front) (hbody : dialect.lexis.IsClosed body)
  (htail : dialect.lexis.Bare tail)
include hfront hbody htail

/-- The brackets of a definition with a bare text behind it. -/
theorem brackets_definition_bare :
    dialect.lexis.brackets (front ++ '(' :: (body ++ ')' :: tail)) =
      dialect.lexis.brackets (front ++ '(' :: (body ++ [')'])) := by
  rw [Lexis.brackets_definition hfront hbody, Lexis.brackets_definition hfront hbody,
    htail.ofGlyphs (Or.inl rfl)]
  rfl

theorem nested_definition :
    Nested 0 (dialect.lexis.brackets (front ++ '(' :: (body ++ ')' :: tail))) := by
  rw [brackets_definition_bare hfront hbody htail, Lexis.brackets_definition hfront hbody]
  exact ⟨Int.le_refl 0, (hbody.nested _).append_closing _⟩

/-- No bracket of a definition is closed behind it. -/
theorem closing?_le_of_definition {opening closing : Nat}
    (h : dialect.lexis.closing? (front ++ '(' :: (body ++ ')' :: tail)) opening =
      some closing) : closing ≤ byteLength front + 1 + byteLength body := by
  have hmem := (closing?_eq_some_iff.mp h).2.1.1
  rw [← brackets_eq_structural, brackets_definition_bare hfront hbody htail] at hmem
  have hlt : closing < _ := Lexis.offset_lt_of_mem_brackets hmem
  simp only [byteLength_append, byteLength_cons, byteLength_nil, utf8Size_signs] at hlt
  omega

end behind

end Dialect

namespace CleanText

/-- Sites that are passed are skipped. -/
theorem terminateSites_passed {offset : Nat} {done : List TableSite}
    (hdone : ∀ site ∈ done, ∀ closing, site.closing = some closing → closing < offset)
    (text : Text) (rest : List TableSite) :
    terminateSites offset text (done ++ rest) = terminateSites offset text rest := by
  induction done with
  | nil => rfl
  | cons site others ih =>
      rw [List.cons_append,
        (terminateSites_skip _ text (hdone site List.mem_cons_self)).1]
      exact ih fun other hother => hdone other (List.mem_cons_of_mem site hother)

/-- Offsets are counted from where the text begins. -/
theorem terminateSites_moved (start offset : Nat) (text : Text) (sites : List TableSite) :
    terminateSites (start + offset) text (sites.map (TableSite.moved (start + ·))) =
      terminateSites offset text sites := by
  induction sites generalizing offset text with
  | nil => rfl
  | cons site rest ih =>
      cases hclosing : site.closing with
      | none => simp [terminateSites, TableSite.moved, hclosing, ih]
      | some closing =>
          have hlength : start + closing + 1 - (start + offset) = closing + 1 - offset := by
            omega
          have hnext : ∀ size, start + closing + 1 + size = start + (closing + 1 + size) := by
            omega
          simp [terminateSites, TableSite.moved, hclosing, ih, hlength, hnext]

/-- Text in front of all closing brackets stays. -/
theorem terminateSites_append (front text : Text) {offset : Nat} {sites : List TableSite}
    (h : ∀ site ∈ sites, ∀ closing, site.closing = some closing →
      offset + byteLength front ≤ closing) :
    terminateSites offset (front ++ text) sites =
      front ++ terminateSites (offset + byteLength front) text sites := by
  induction sites with
  | nil => rfl
  | cons site rest ih =>
      have hrest := ih fun other hother => h other (List.mem_cons_of_mem site hother)
      cases hclosing : site.closing with
      | none => simp [terminateSites, hclosing, hrest]
      | some closing =>
          have hle := h site List.mem_cons_self closing hclosing
          have hlength : closing + 1 - offset =
              byteLength front + (closing + 1 - (offset + byteLength front)) := by omega
          simp only [terminateSites, hclosing, hlength, dropBytes_append_add,
            takeBytes_append_add, List.append_assoc, if_neg (show ¬ closing < offset by omega),
            if_neg (show ¬ closing < offset + byteLength front by omega)]

section definition

variable {dialect : Dialect} {table : Identifier} {body tail : Text}

/-- The header of a definition up to its bracket. -/
def headerOf (table : Identifier) : Text :=
  "CREATE TABLE ".toList ++ (table.text ++ [' '])

theorem headerOf_append (table : Identifier) (back : Text) :
    headerOf table ++ '(' :: back =
      "CREATE TABLE ".toList ++ table.text ++ " (".toList ++ back := by
  have hheader : headerOf table = "CREATE TABLE ".toList ++ (table.text ++ [' ']) := rfl
  have hopening : " (".toList = [' ', '('] := by decide
  rw [hheader, hopening]
  simp only [List.append_assoc, List.cons_append, List.nil_append]

theorem bare_headerOf (lexis : Lexis) (table : Identifier) : lexis.Bare (headerOf table) := by
  have hcreate : Unmarked "CREATE TABLE ".toList := by decide
  exact Lexis.bare_of_unmarked (hcreate.append (table.unmarked.append unmarked_space))

/-- The first site of a text that begins with a definition. -/
theorem exists_sites_headerOf (table : Identifier) (hbody : dialect.lexis.IsClosed body)
    (back : Text) :
    ∃ others, TableSite.all dialect.lexis (headerOf table ++ '(' :: (body ++ ')' :: back)) =
      ⟨table.text, byteLength (headerOf table),
        some (byteLength (headerOf table) + 1 + byteLength body)⟩ :: others := by
  have hclosing := Dialect.closing?_definition (bare_headerOf dialect.lexis table) hbody back
  have hread : Header.read? (headerOf table ++ '(' :: (body ++ ')' :: back)) =
      some (table.text, body ++ ')' :: back) := Header.read?_createTable table _
  have hne : headerOf table ≠ [] := List.append_ne_nil_of_left_ne_nil (by decide) _
  have hstart : (none : Option Char).any isWordChar = false := rfl
  rw [TableSite.all, Header.all, Header.searchFrom_of_read? hstart hne hread, Nat.zero_add,
    List.filterMap_cons, TableSite.ofHeader?_of_closing? hclosing]
  exact ⟨_, rfl⟩

/-- What is ended behind a semicolon is ended as if it stood alone. -/
theorem terminateSites_semicolon (offset : Nat) (rest : Text) (sites : List TableSite) :
    terminateSites offset (';' :: rest) (sites.map (TableSite.moved (offset + 1 + ·))) =
      ';' :: terminateSites 0 rest sites := by
  have hbehind : ∀ site ∈ sites.map (TableSite.moved (offset + 1 + ·)), ∀ closing,
      site.closing = some closing → offset + byteLength [';'] ≤ closing := by
    intro site hsite closing hclosing
    obtain ⟨original, -, rfl⟩ := List.mem_map.mp hsite
    obtain ⟨place, -, rfl⟩ := Option.map_eq_some_iff.mp hclosing
    exact Nat.le_add_right (offset + 1) place
  calc
    terminateSites offset ([';'] ++ rest) (sites.map (TableSite.moved (offset + 1 + ·))) =
        [';'] ++ terminateSites (offset + 1 + 0) rest
          (sites.map (TableSite.moved (offset + 1 + ·))) :=
      terminateSites_append [';'] rest hbehind
    _ = ';' :: terminateSites 0 rest sites := by
      rw [terminateSites_moved, List.singleton_append]

theorem ending_semicolon (rest : Text) : ending (';' :: rest) = [] := by
  rw [ending, isTerminated, trimStart_of_solid (by decide)]
  rfl

/-- The sites of a text that begins with a definition, bare text and a semicolon: that of
the definition, others that are closed in front of the bare text, and those of the text
behind the semicolon. -/
theorem exists_sites_definition (table : Identifier) (hbody : dialect.lexis.IsClosed body)
    (htail : dialect.lexis.Bare tail) (rest : Text) :
    let opening := byteLength (headerOf table)
    let stop := opening + 1 + byteLength body
    ∃ others,
      TableSite.all dialect.lexis
          (headerOf table ++ '(' :: (body ++ ')' :: (tail ++ ';' :: rest))) =
        ⟨table.text, opening, some stop⟩ :: (others ++ (TableSite.all dialect.lexis rest).map
          (TableSite.moved (stop + 1 + byteLength tail + 1 + ·))) ∧
      ∀ site ∈ others, ∀ closing, site.closing = some closing → closing ≤ stop := by
  intro opening stop
  let definition := headerOf table ++ '(' :: (body ++ ')' :: tail)
  have hfront := bare_headerOf dialect.lexis table
  have hended : dialect.lexis.Bare (tail ++ [';']) :=
    htail.append (Lexis.bare_separator (Or.inr rfl))
  have hshape : ∀ back, headerOf table ++ '(' :: (body ++ ')' :: (tail ++ ';' :: back)) =
      definition ++ ';' :: back := by simp [definition]
  have hlength : byteLength (definition ++ [';']) = stop + 1 + byteLength tail + 1 := by
    simp only [definition, stop, opening, byteLength_append, byteLength_cons, byteLength_nil,
      utf8Size_signs]
    omega
  have hcode : dialect.lexis.run .code (definition ++ [';']) = .code := by
    rw [Lexis.run_append]
    exact Lexis.step_semicolon (Lexis.inCode_definition hfront hbody htail)
  have hnested := Dialect.nested_definition hfront hbody hended
  rw [hshape] at hnested
  have hpairs := Dialect.bracketPairs_append_of_nested hcode hnested rest
  rw [List.append_assoc, List.singleton_append] at hpairs
  obtain ⟨others, hfirst⟩ := exists_sites_headerOf table hbody (tail ++ [';'])
  refine ⟨others, ?_, fun site hsite closing hclosing => ?_⟩
  · rw [hshape] at hfirst ⊢
    rw [TableSite.all_append_of_pairs hpairs, hfirst, hlength, List.cons_append]
  · have hmem : site ∈ TableSite.all dialect.lexis
        (headerOf table ++ '(' :: (body ++ ')' :: (tail ++ [';']))) := by
      rw [hfirst]
      exact List.mem_cons_of_mem _ hsite
    exact Dialect.closing?_le_of_definition hfront hbody hended
      ((TableSite.closing?_of_mem hmem).trans hclosing)

/-- A definition with a closed body loses what stands between it and the semicolon behind
it, when that is bare and read as options; the text behind is ended by itself. -/
theorem terminateTables_definition (table : Identifier) (hbody : dialect.lexis.IsClosed body)
    (htail : dialect.lexis.Bare tail) {rest : Text}
    (hoptions : TableOption.afterAll (tail ++ ';' :: rest) = ';' :: rest) :
    terminateTables dialect (headerOf table ++ '(' :: (body ++ ')' :: (tail ++ ';' :: rest))) =
      headerOf table ++ '(' :: (body ++ ')' :: ';' :: terminateTables dialect rest) := by
  obtain ⟨others, hsites, hothers⟩ := exists_sites_definition table hbody htail rest
  have hshape : ∀ back, headerOf table ++ '(' :: (body ++ back) =
      (headerOf table ++ '(' :: body) ++ back := by simp
  have hlength : byteLength (headerOf table) + 1 + byteLength body + 1 =
      0 + byteLength (headerOf table ++ '(' :: body ++ [')']) := by
    simp only [byteLength_append, byteLength_cons, byteLength_nil, utf8Size_signs]
    omega
  have hback : tail ++ ';' :: rest =
      tail ++ TableOption.afterAll (tail ++ ';' :: rest) := by rw [hoptions]
  have hpassed : ∀ site ∈ others, ∀ closing, site.closing = some closing →
      closing < byteLength (headerOf table) + 1 + byteLength body + 1 + byteLength tail := by
    intro site hsite closing hclosing
    have hle := hothers site hsite closing hclosing
    omega
  rw [terminateTables, hsites, hshape, (terminateSites_cut _ rfl hlength hback).1, hoptions,
    ending_semicolon, List.nil_append, terminateSites_passed hpassed, terminateSites_semicolon,
    hshape, terminateTables]

end definition

/-- Behind a definition with a closed body its options are removed whole, however many
there are and however they are written; the text behind the semicolon is ended as if it
stood alone. -/
theorem terminateTables_options (table : Identifier) (body : Text) (options : List Text)
    (rest : Text) (hbody : Dialect.mysql.lexis.IsClosed body)
    (hoptions : ∀ option ∈ options, IsTableOption option) :
    terminateTables .mysql ("CREATE TABLE ".toList ++ table.text ++ " (".toList ++ body ++
        ")".toList ++ options.flatten ++ ";".toList ++ rest) =
      "CREATE TABLE ".toList ++ table.text ++ " (".toList ++ body ++ ");".toList ++
        terminateTables .mysql rest := by
  have hread := TableOption.afterAll_of_isTableOption hoptions rest
  have hbare : Dialect.mysql.lexis.Bare options.flatten :=
    TableOption.bare_of_isTableOption rfl hoptions
  have hended := terminateTables_definition table hbody hbare hread
  have hclosing : ")".toList = [')'] := by decide
  have hsemicolon : ";".toList = [';'] := by decide
  have hend : ");".toList = [')', ';'] := by decide
  rw [headerOf_append, headerOf_append] at hended
  simp only [hclosing, hsemicolon, hend, List.append_assoc, List.cons_append,
    List.nil_append] at hended ⊢
  exact hended

/-- A header, a comment and a literal in the body; names of one word and of three, and a
literal with a quote, a backslash and a bracket; and behind the semicolon a stray bracket,
another definition and a literal that is never closed. -/
theorem terminateTables_options_nested :
    let body := "a INT, CREATE TABLE u (b INT) /* ( */ -- '\n, c CHAR DEFAULT '('".toList
    let options := [
      " ".toList ++ ("Engine".toList ++ ("=".toList ++ "InnoDB".toList)),
      ",\n".toList ++ ("default".toList ++ ("  ".toList ++ ("CHARACTER".toList ++
        (" ".toList ++ "set".toList))) ++ (" ".toList ++ "utf8mb4".toList)),
      ",".toList ++ ("COMMENT".toList ++ (" = ".toList ++
        literalOf true "it's \\ CREATE TABLE v (".toList))]
    let rest := ") CREATE TABLE w (d INT) TYPE x '(".toList
    Dialect.mysql.lexis.IsClosed body ∧ (∀ option ∈ options, IsTableOption option) ∧
      terminateTables .mysql ("CREATE TABLE ".toList ++ "t".toList ++ " (".toList ++ body ++
          ")".toList ++ options.flatten ++ ";".toList ++ rest) =
        "CREATE TABLE ".toList ++ "t".toList ++ " (".toList ++ body ++ ");".toList ++
          ") CREATE TABLE w (d INT); '(".toList := by
  intro body options rest
  have hsettles : Dialect.mysql.lexis.Settles 0 .code body := by decide
  have hbody : Dialect.mysql.lexis.IsClosed body := ⟨hsettles.balanced, by decide⟩
  have hengine : IsTableOption options[0] :=
    .intro ⟨by decide, by decide, by decide⟩ (show ["ENGINE".toList] ∈ optionForms by decide)
      (.last (by decide)) ⟨by decide, by decide, by decide⟩ (.word (by decide) (by decide))
  have hcharset : IsTableOption options[1] :=
    .intro ⟨by decide, by decide, by decide⟩
      (show ["DEFAULT".toList, "CHARACTER".toList, "SET".toList] ∈ optionForms by decide)
      (.cons (by decide) (by decide) (by decide)
        (.cons (by decide) (by decide) (by decide) (.last (by decide))))
      ⟨by decide, by decide, by decide⟩ (.word (by decide) (by decide))
  have hcomment : IsTableOption options[2] :=
    .intro ⟨by decide, by decide, by decide⟩ (show ["COMMENT".toList] ∈ optionForms by decide)
      (.last (by decide)) ⟨by decide, by decide, by decide⟩ (.literal _)
  have hoptions : ∀ option ∈ options, IsTableOption option := by
    simp only [options, List.forall_mem_cons]
    exact ⟨hengine, hcharset, hcomment, by simp⟩
  refine ⟨hbody, hoptions, ?_⟩
  rw [show "t".toList = Identifier.text ⟨"t".toList, by decide⟩ from rfl,
    terminateTables_options _ body options rest hbody hoptions]
  exact congrArg _ (by decide +kernel)

end CleanText

end DdlDiagram
