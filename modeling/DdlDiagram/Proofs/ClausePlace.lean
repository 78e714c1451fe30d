/-
Places for a clause in a body.  A comma behind a text that ends in code, with as many
brackets closed as opened, ends a clause: the clauses of the whole are those in front of
it and those behind it.  A clause that is put at such a place, in front of a body or
behind it, is one clause more, and the others stay as they are.
-/
import DdlDiagram.Proofs.Coherence
import DdlDiagram.Proofs.Passage

namespace DdlDiagram

open Text

namespace Lexis

section depth

variable {lexis : Lexis} {mode : Mode}

theorem depthAfter_eq_foldl (offset : Nat) (depth : Int) (glyph : Glyph) :
    depthAfter depth glyph = (Bracket.ofGlyphs offset [glyph]).foldl
      (fun depth bracket => bracket.side.move depth) depth := by
  by_cases hopening : glyph.isCode '(' = true
  · simp [depthAfter, Bracket.ofGlyphs, hopening, Side.move]
  · by_cases hclosing : glyph.isCode ')' = true
    · simp [depthAfter, Bracket.ofGlyphs, hopening, hclosing, Side.move]
    · simp [depthAfter, Bracket.ofGlyphs, hopening, hclosing]

/-- The depth is moved by the brackets that glyphs hold. -/
theorem depthOf_eq_foldl (offset : Nat) (depth : Int) (glyphs : List Glyph) :
    depthOf depth glyphs = (Bracket.ofGlyphs offset glyphs).foldl
      (fun depth bracket => bracket.side.move depth) depth := by
  induction glyphs generalizing offset depth with
  | nil => rfl
  | cons glyph rest ih =>
      rw [Bracket.ofGlyphs_cons, List.foldl_append, ← depthAfter_eq_foldl]
      exact ih _ _

theorem depthOf_eq_foldl_counted (depth : Int) (entries : List (Nat × Char)) :
    depthOf depth (lexis.trace mode (entries.map Prod.snd)) =
      (lexis.countedFrom mode entries).foldl
        (fun depth bracket => bracket.side.move depth) depth := by
  induction entries generalizing mode depth with
  | nil => rfl
  | cons entry rest ih =>
      rw [countedFrom, List.foldl_append, ← depthAfter_eq_foldl]
      exact ih _

/-- Reading a text without its comments ends at the depth that reading the text ends
at. -/
theorem depthOf_withoutComments (dialect : Dialect) (text : Text) :
    depthOf 0 (dialect.literalLexis.trace .code (dialect.lexis.withoutComments text)) =
      depthOf 0 (dialect.lexis.trace .code text) := by
  rw [← map_snd_strippedFrom dialect.lexis 0, depthOf_eq_foldl_counted,
    dialect.counted_stripped, ← depthOf_eq_foldl]

end depth

theorem cutParts_comma {mode : Mode} (hmode : mode.inCode = true) (rest : List Glyph) :
    cutParts 0 (⟨mode, ','⟩ :: rest) = ([], cuts 0 rest) := by
  simp [cuts, cutParts, isSeparator, depthAfter, Glyph.isCode, hmode]

/-- A comma of code at depth zero cuts. -/
theorem cuts_append_comma {mode : Mode} (hmode : mode.inCode = true) {depth : Int}
    {glyphs : List Glyph} (h : depthOf depth glyphs = 0) (rest : List Glyph) :
    cuts depth (glyphs ++ ⟨mode, ','⟩ :: rest) = cuts depth glyphs ++ cuts 0 rest := by
  induction glyphs generalizing depth with
  | nil =>
      obtain rfl : depth = 0 := h
      rw [List.nil_append, cuts, cutParts_comma hmode]
      rfl
  | cons glyph tail ih =>
      have hdepth : depthOf (depthAfter depth glyph) tail = 0 := h
      obtain ⟨hfirst, hothers⟩ := List.cons.inj (ih hdepth)
      rw [cuts, cuts, List.cons_append, cutParts, cutParts, hfirst, hothers]
      split <;> rfl

/-- The empty parts that are dropped at the end are not among the others. -/
theorem filter_dropEmptyLast (parts : List Text) :
    (dropEmptyLast parts).filter (fun part => !part.isEmpty) =
      parts.filter fun part => !part.isEmpty := by
  fun_induction dropEmptyLast parts with
  | case1 => rfl
  | case2 part hempty => simp [hempty]
  | case3 => rfl
  | case4 part next rest ih => rw [List.filter_cons, List.filter_cons, ih]

/-- In front of a comma of code a waiting character is added. -/
theorem kept_comma {mode : Mode} (hmode : mode.inCode = true) :
    kept ⟨mode, ','⟩ = keptAtEnd mode ++ [','] := by
  cases mode with
  | code | dash | slash | closed => rfl
  | literal | escaped | line | block | star => contradiction

/-- No comment crosses a comma of code. -/
theorem withoutComments_append_comma {lexis : Lexis} {front : Text}
    (hfront : (lexis.run .code front).inCode = true) (back : Text) :
    lexis.withoutComments (front ++ ',' :: back) =
      lexis.withoutComments front ++ ',' :: lexis.withoutComments back := by
  simp only [withoutComments, trace_append, trace_cons, run_append, run_cons,
    step_eq_code hfront (Or.inr (Or.inr rfl)), List.flatMap_append, List.flatMap_cons,
    kept_comma hfront, List.append_assoc, List.cons_append, List.nil_append]

/-- A character that waits is one of code. -/
theorem outside_keptAtEnd {dialect : Dialect} {mode other : Mode}
    (h : Follows mode other) (hmode : mode.inCode = true) :
    Outside (dialect.literalLexis.run other (keptAtEnd mode)) := by
  cases mode with
  | code => exact Or.inl h
  | closed => exact Or.inr h
  | dash | slash =>
      left
      rcases h with rfl | rfl <;> rfl
  | literal | escaped | line | block | star => contradiction

/-- Where a text ends in code, the text without its comments ends outside literals. -/
theorem outside_withoutComments {dialect : Dialect} {text : Text}
    (h : (dialect.lexis.run .code text).inCode = true) :
    Outside (dialect.literalLexis.run .code (dialect.lexis.withoutComments text)) := by
  have hstart : Follows .code .code := rfl
  rw [withoutComments, run_append]
  exact outside_keptAtEnd (follows_run dialect.backslashEscapes hstart text) h

end Lexis

/-- A text that ends in code, with as many brackets closed as opened: a comma behind it
ends a clause. -/
def Dialect.EndsClause (dialect : Dialect) (text : Text) : Prop :=
  (dialect.lexis.run .code text).inCode = true ∧
    Lexis.depthOf 0 (dialect.lexis.trace .code text) = 0

instance (dialect : Dialect) (text : Text) : Decidable (dialect.EndsClause text) :=
  inferInstanceAs (Decidable (_ ∧ _))

namespace TableBody

variable {dialect : Dialect} {clause piece body added : Text}

/-- The parts of a body that are read as clauses. -/
def clauseTexts (dialect : Dialect) (body : Text) : List Text :=
  (dialect.literalLexis.parts (dialect.lexis.withoutComments body)).filter
    fun part => !part.isEmpty

theorem clauses_eq_map (dialect : Dialect) (body : Text) :
    clauses dialect body =
      (clauseTexts dialect body).map (Clause.read dialect.literalLexis) := rfl

theorem clauseTexts_eq (dialect : Dialect) (body : Text) :
    clauseTexts dialect body = ((Lexis.cuts 0 (dialect.literalLexis.trace .code
      (dialect.lexis.withoutComments body))).map trim).filter fun part => !part.isEmpty :=
  Lexis.filter_dropEmptyLast _

/-- The clauses in front of a comma that ends one, and those behind it. -/
theorem clauseTexts_append {front : Text} (h : dialect.EndsClause front) (back : Text) :
    clauseTexts dialect (front ++ ',' :: back) =
      clauseTexts dialect front ++ clauseTexts dialect back := by
  have hmode := (Lexis.outside_withoutComments h.1).inCode
  have hdepth := (Lexis.depthOf_withoutComments dialect front).trans h.2
  rw [clauseTexts_eq, Lexis.withoutComments_append_comma h.1, Lexis.trace_append,
    Lexis.trace_cons, Lexis.step_eq_code hmode (Or.inr (Or.inr rfl)),
    Lexis.cuts_append_comma hmode hdepth, List.map_append, List.filter_append,
    ← clauseTexts_eq, ← clauseTexts_eq]

/-- A clause and the blanks around it. -/
def Padded (clause piece : Text) : Prop :=
  ∃ lead trail, (∀ c ∈ lead, isBlank c = true) ∧ (∀ c ∈ trail, isBlank c = true) ∧
    piece = lead ++ (clause ++ trail)

/-- A body with one clause added: alone, in front of all others, between two of them,
or behind the last one. -/
inductive AddsClause (dialect : Dialect) (clause : Text) : Text → Text → Prop
  | alone {piece : Text} (hpiece : Padded clause piece) : AddsClause dialect clause [] piece
  | front {piece : Text} (hpiece : Padded clause piece) (body : Text) :
      AddsClause dialect clause body (piece ++ ',' :: body)
  | between {piece front : Text} (hpiece : Padded clause piece)
      (hfront : dialect.EndsClause front) (back : Text) :
      AddsClause dialect clause (front ++ ',' :: back)
        (front ++ ',' :: (piece ++ ',' :: back))
  | behind {piece front : Text} (hpiece : Padded clause piece)
      (hfront : dialect.EndsClause front) :
      AddsClause dialect clause front (front ++ ',' :: piece)

/-- A text that is one clause wherever it stands: code in which brackets pair, with no
comma outside them, and no blanks at its ends. -/
structure IsClause (clause : Text) : Prop where
  reads : ∀ lexis : Lexis, lexis.Reads false 0 clause 0
  first : ∀ c ∈ clause.head?, isBlank c = false
  last : ∀ c ∈ clause.getLast?, isBlank c = false
  ne_nil : clause ≠ []

/-- A clause begins and ends with a word. -/
theorem IsClause.of_framed {left right : Text} (hleft : IsWord left) (hright : IsWord right)
    (middle : Text) (hreads : ∀ lexis : Lexis,
      lexis.Reads false 0 (left ++ (middle ++ right)) 0) :
    IsClause (left ++ (middle ++ right)) where
  reads := hreads
  first := by
    intro c hc
    rw [List.head?_append_of_ne_nil _ hleft.1] at hc
    exact hleft.2 c (List.mem_of_mem_head? hc)
  last := by
    intro c hc
    rw [← List.append_assoc, List.getLast?_append_of_ne_nil _ hright.1] at hc
    exact hright.2 c (List.mem_of_mem_getLast? hc)
  ne_nil := by
    intro hnil
    exact hleft.1 (List.append_eq_nil_iff.mp hnil).1

section piece

variable (hclause : IsClause clause) (hpiece : Padded clause piece)
include hclause hpiece

/-- The blanks around it are trimmed. -/
theorem Padded.trim_eq : trim piece = clause := by
  obtain ⟨lead, trail, hlead, htrail, rfl⟩ := hpiece
  exact trimMatching_framed hlead htrail hclause.ne_nil hclause.first hclause.last

theorem Padded.reads (lexis : Lexis) : lexis.Reads false 0 piece 0 := by
  obtain ⟨lead, trail, hlead, htrail, rfl⟩ := hpiece
  exact (Lexis.quiet_unmarked (unmarked_of_blanks hlead)).reads.append
    ((hclause.reads lexis).append (Lexis.quiet_unmarked (unmarked_of_blanks htrail)).reads)

/-- It is cut nowhere, and comments do not reach into it. -/
theorem Padded.cuts_append (lexis : Lexis) (rest : List Glyph) :
    Lexis.cuts 0 (lexis.trace .code piece ++ rest) =
      (piece ++ (Lexis.cutParts 0 rest).1) :: (Lexis.cutParts 0 rest).2 := by
  have hcut := (hpiece.reads hclause lexis).parts rfl .code (Or.inl rfl) rest
  rw [Lexis.cuts, ← Int.natCast_zero, hcut]

/-- Alone it is the only clause. -/
theorem Padded.clauseTexts_eq : clauseTexts dialect piece = [clause] := by
  have hcuts := hpiece.cuts_append hclause dialect.literalLexis []
  rw [List.append_nil] at hcuts
  rw [TableBody.clauseTexts_eq, Lexis.withoutComments_of_reads (hpiece.reads hclause _), hcuts]
  simp [Lexis.cutParts, hpiece.trim_eq hclause, hclause.ne_nil]

/-- In front of others it is the first clause. -/
theorem Padded.clauseTexts_append (back : Text) :
    clauseTexts dialect (piece ++ ',' :: back) = clause :: clauseTexts dialect back := by
  have hcode := ((hpiece.reads hclause dialect.lexis).outside .code (Or.inl rfl)).inCode
  have hmode := ((hpiece.reads hclause dialect.literalLexis).outside .code (Or.inl rfl)).inCode
  rw [TableBody.clauseTexts_eq, Lexis.withoutComments_append_comma hcode,
    Lexis.withoutComments_of_reads (hpiece.reads hclause _), Lexis.trace_append,
    hpiece.cuts_append hclause, Lexis.trace_cons, Lexis.step_eq_code hmode (Or.inr (Or.inr rfl)),
    Lexis.cutParts_comma hmode, List.append_nil, List.map_cons, hpiece.trim_eq hclause,
    TableBody.clauseTexts_eq]
  exact List.filter_cons_of_pos (by simp [hclause.ne_nil])

end piece

/-- Adding a clause to a body adds one clause and keeps the others. -/
theorem AddsClause.exists_clauseTexts (hclause : IsClause clause)
    (h : AddsClause dialect clause body added) :
    ∃ front back, clauseTexts dialect body = front ++ back ∧
      clauseTexts dialect added = front ++ clause :: back := by
  cases h with
  | alone hpiece => exact ⟨[], [], rfl, hpiece.clauseTexts_eq hclause⟩
  | front hpiece => exact ⟨[], _, rfl, hpiece.clauseTexts_append hclause _⟩
  | between hpiece hfront back =>
      refine ⟨_, _, clauseTexts_append hfront back, ?_⟩
      rw [clauseTexts_append hfront, hpiece.clauseTexts_append hclause]
  | behind hpiece hfront =>
      refine ⟨_, [], (List.append_nil _).symm, ?_⟩
      rw [clauseTexts_append hfront, hpiece.clauseTexts_eq hclause]

end TableBody

namespace Outcome

/-- A clause of which the same comes wherever it stands is one outcome more, and the
others stay as they are. -/
theorem exists_ofClauses_insert {clause : Clause} {outcome : Outcome}
    (h : ∀ seen rest, ofClauses seen (clause :: rest) = outcome :: ofClauses seen rest)
    (seen : List Text) (front back : List Clause) :
    ∃ left right, ofClauses seen (front ++ back) = left ++ right ∧
      ofClauses seen (front ++ clause :: back) = left ++ outcome :: right := by
  induction front generalizing seen with
  | nil => exact ⟨[], _, rfl, h seen back⟩
  | cons first rest ih =>
      obtain ⟨own, seen', _, hstep⟩ := exists_step seen first
      obtain ⟨left, right, hleft, hright⟩ := ih seen'
      refine ⟨own :: left, right, ?_, ?_⟩
      · rw [List.cons_append, hstep, hleft, List.cons_append]
      · rw [List.cons_append, hstep, hright, List.cons_append]

end Outcome

/-- The table with columns of the given names made part of its primary key. -/
def Table.withKeys (keys : List Text) (table : Table) : Table where
  name := table.name
  columns := table.columns.map fun column =>
    { column with isPrimaryKey := column.isPrimaryKey || keys.any (sameName column.name) }

namespace TableBody

variable {dialect : Dialect} {clause body added : Text} (hclause : IsClause clause)
  (hadds : AddsClause dialect clause body added)
include hclause hadds

/-- What adding a clause does to the outcomes of a body. -/
theorem AddsClause.exists_outcomes {outcome : Outcome}
    (h : ∀ seen rest, Outcome.ofClauses seen (Clause.read dialect.literalLexis clause :: rest) =
      outcome :: Outcome.ofClauses seen rest) :
    ∃ left right, outcomes dialect body = left ++ right ∧
      outcomes dialect added = left ++ outcome :: right := by
  obtain ⟨front, back, hbody, hadded⟩ := hadds.exists_clauseTexts hclause
  rw [outcomes, outcomes, clauses_eq_map, clauses_eq_map, hbody, hadded, List.map_append,
    List.map_append, List.map_cons]
  exact Outcome.exists_ofClauses_insert h [] _ _

/-- Adding an index clause changes nothing. -/
theorem AddsClause.read_index (h : Clause.read dialect.literalLexis clause = .index)
    (name : Text) : read dialect name added = read dialect name body := by
  have hstep : ∀ seen rest, Outcome.ofClauses seen
      (Clause.read dialect.literalLexis clause :: rest) =
        .passed :: Outcome.ofClauses seen rest := by
    intro seen rest
    rw [h]
    rfl
  obtain ⟨left, right, hbody, hadded⟩ := hadds.exists_outcomes hclause hstep
  rw [read, read, hbody, hadded]
  simp only [ofOutcomes, List.flatMap_append, List.flatMap_cons, List.filterMap_append,
    Outcome.declared_passed, Outcome.keyColumns, Outcome.foreignLinks, Outcome.notices,
    List.nil_append]

/-- Adding a primary key marks its columns and changes nothing else. -/
theorem AddsClause.read_primaryKey {keys : List Text}
    (h : Clause.read dialect.literalLexis clause = .primaryKey keys) (name : Text) :
    read dialect name added =
      { read dialect name body with
        table := (read dialect name body).table.withKeys keys } := by
  have hstep : ∀ seen rest, Outcome.ofClauses seen
      (Clause.read dialect.literalLexis clause :: rest) =
        .keys keys :: Outcome.ofClauses seen rest := by
    intro seen rest
    rw [h]
    rfl
  obtain ⟨left, right, hbody, hadded⟩ := hadds.exists_outcomes hclause hstep
  rw [read, read, hbody, hadded]
  simp only [ofOutcomes, Table.withKeys, List.flatMap_append, List.flatMap_cons,
    List.filterMap_append, Outcome.declared_keys, Outcome.keyColumns, Outcome.foreignLinks,
    Outcome.notices, List.nil_append, List.map_map, List.any_append]
  congr 3
  funext declaration
  -- The columns of a key count wherever its clause stands among the others.
  simp only [Function.comp_apply, Bool.or_assoc, Bool.or_comm (keys.any _)]

end TableBody

end DdlDiagram
