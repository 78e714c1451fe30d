/-
Locality of extraction.  Behind a semicolon of code a text is read from the start
again: the sites of the whole are those of the text up to the semicolon and, moved,
those of the text behind it, and the schema of the whole is the one schema joined
behind the other.  Brackets that are left open in front capture nothing behind, as
long as the text behind closes no more than it opens.
-/
import DdlDiagram.Proofs.Joining
import DdlDiagram.Proofs.Moving

namespace DdlDiagram

open Text

namespace Lexis

/-- Behind a semicolon of code comes code. -/
theorem step_semicolon {lexis : Lexis} {mode : Mode} (h : mode.inCode = true) :
    lexis.step mode ';' = .code := by
  cases mode <;>
    simp_all [step, afterCode, Mode.inCode, Mode.inLiteral, Mode.inComment]

/-- The brackets of a text that is cut where code is read. -/
theorem brackets_append {lexis : Lexis} {front : Text}
    (h : lexis.run .code front = .code) (back : Text) :
    lexis.brackets (front ++ back) = lexis.brackets front ++
      (lexis.brackets back).map (Bracket.moved (byteLength front + ·)) := by
  rw [brackets, trace_append, Bracket.ofGlyphs_append, map_char_trace, h,
    Nat.zero_add]
  congr 1
  exact Bracket.ofGlyphs_add (byteLength front) 0 _

end Lexis

namespace Dialect

variable {dialect : Dialect} {text front back : Text}

/-- No structural closing bracket of the text is unmatched. -/
def ClosesOwn (dialect : Dialect) (text : Text) : Prop :=
  ∀ closing, ⟨closing, .closing⟩ ∈ dialect.structural text →
    ∃ opening, dialect.lexis.closing? text opening = some closing

/-- Where no closing bracket is unmatched none waits for a partner. -/
theorem ClosesOwn.waiting_eq_nil (h : dialect.ClosesOwn text) :
    (Bracket.pairUp (dialect.lexis.brackets text)).2 = [] := by
  have hperm := Bracket.closings_pairUp (dialect.lexis.brackets text)
  have hnodup : (((dialect.lexis.brackets text).filter fun bracket =>
      bracket.side = .closing).map Bracket.offset).Nodup := by
    rw [brackets_eq_structural, List.Nodup, List.pairwise_map]
    exact ((ascending_structural dialect text).filter _).imp Nat.ne_of_lt
  rw [← hperm.nodup_iff] at hnodup
  rw [List.eq_nil_iff_forall_not_mem]
  intro closing hwaiting
  have hmem : ⟨closing, .closing⟩ ∈ dialect.structural text := by
    have hclosing := hperm.mem_iff.mp (List.mem_append_right _ hwaiting)
    obtain ⟨⟨offset, side⟩, hbracket, rfl⟩ := List.mem_map.mp hclosing
    obtain ⟨hbracket, hside⟩ := List.mem_filter.mp hbracket
    obtain rfl : side = .closing := by simpa using hside
    rw [← brackets_eq_structural]
    exact hbracket
  obtain ⟨opening, hclosing⟩ := h closing hmem
  obtain ⟨pair, hfound, hpair⟩ := Option.bind_eq_some_iff.mp hclosing
  have hpaired := List.mem_filterMap.mpr
    ⟨pair, List.mem_of_find?_eq_some hfound, hpair⟩
  exact (List.nodup_append.mp hnodup).2.2 closing hpaired closing hwaiting rfl

/-- The pairs of a text that is cut where code is read. -/
theorem bracketPairs_append (hfront : dialect.lexis.run .code front = .code)
    (hback : dialect.ClosesOwn back) :
    dialect.lexis.bracketPairs (front ++ back) =
      dialect.lexis.bracketPairs front ++ (dialect.lexis.bracketPairs back).map
        (BracketPair.moved (byteLength front + ·)) := by
  have hwaiting : (Bracket.pairUp ((dialect.lexis.brackets back).map
      (Bracket.moved (byteLength front + ·)))).2 = [] := by
    rw [Bracket.pairUp_map, hback.waiting_eq_nil]
    rfl
  rw [Lexis.bracketPairs, Lexis.brackets_append hfront,
    Bracket.pairUp_append hwaiting, Bracket.pairUp_map]
  rfl

theorem opening_lt_of_mem_pairs {pair : BracketPair}
    (h : pair ∈ dialect.lexis.bracketPairs text) :
    pair.opening < byteLength text := by
  have hmem := mem_openings_iff.mp (List.mem_map_of_mem h)
  rw [← brackets_eq_structural] at hmem
  exact Lexis.offset_lt_of_mem_brackets hmem

end Dialect

/-- The headers of a text that is cut behind a semicolon. -/
theorem Header.all_append (front back : Text) :
    all (front ++ ';' :: back) =
      all (front ++ [';']) ++
        (all back).map (moved (byteLength (front ++ [';']) + ·)) := by
  have hlength : 0 + byteLength front + ';'.utf8Size =
      byteLength (front ++ [';']) + 0 := by
    rw [byteLength_append]
    simp
  have hstart : searchFrom (some ';') 0 0 back = searchFrom none 0 0 back :=
    searchFrom_congr (by decide)
  rw [all, searchFrom_append_mark (by decide) (by decide), hlength,
    searchFrom_add, hstart]
  rfl

namespace TableSite

variable {dialect : Dialect} {front back text : Text}

/-- The sites of a text that is cut behind a semicolon, where no pair crosses it. -/
theorem all_append_of_pairs (hpairs : dialect.lexis.bracketPairs (front ++ ';' :: back) =
    dialect.lexis.bracketPairs (front ++ [';']) ++ (dialect.lexis.bracketPairs back).map
      (BracketPair.moved (byteLength (front ++ [';']) + ·))) :
    all dialect.lexis (front ++ ';' :: back) =
      all dialect.lexis (front ++ [';']) ++ (all dialect.lexis back).map
        (moved (byteLength (front ++ [';']) + ·)) := by
  rw [all, hpairs, Header.all_append, List.filterMap_append]
  congr 1
  · apply List.filterMap_congr
    intro header hheader
    -- A header in front has no bracket among those behind.
    have hlt := Header.opening_lt_of_mem hheader
    have hnone : ((dialect.lexis.bracketPairs back).map (BracketPair.moved
        (byteLength (front ++ [';']) + ·))).find?
          (·.opening == header.opening) = none := by
      rw [List.find?_eq_none]
      intro pair hpair heq
      obtain ⟨pair, _, rfl⟩ := List.mem_map.mp hpair
      simp only [BracketPair.moved, beq_iff_eq] at heq
      omega
    rw [ofHeader?, ofHeader?, List.find?_append, hnone, Option.or_none]
  · rw [List.filterMap_map, all, List.map_filterMap]
    apply List.filterMap_congr
    intro header _
    -- A header behind has no bracket among those in front.
    have hnone : (dialect.lexis.bracketPairs (front ++ [';'])).find?
        (·.opening == byteLength (front ++ [';']) + header.opening) = none := by
      rw [List.find?_eq_none]
      intro pair hpair heq
      have hlt := Dialect.opening_lt_of_mem_pairs hpair
      rw [beq_iff_eq] at heq
      omega
    rw [← ofHeader?_moved fun _ _ heq => Nat.add_left_cancel heq,
      Function.comp_apply, ofHeader?, ofHeader?, List.find?_append,
      Header.moved, hnone, Option.none_or]

/-- The sites of a text that is cut behind a semicolon of code. -/
theorem all_append (hfront : (dialect.lexis.run .code front).inCode = true)
    (hback : dialect.ClosesOwn back) :
    all dialect.lexis (front ++ ';' :: back) =
      all dialect.lexis (front ++ [';']) ++ (all dialect.lexis back).map
        (moved (byteLength (front ++ [';']) + ·)) := by
  have hcode : dialect.lexis.run .code (front ++ [';']) = .code := by
    rw [Lexis.run_append]
    exact Lexis.step_semicolon hfront
  have hpairs := Dialect.bracketPairs_append hcode hback
  rw [List.append_assoc, List.singleton_append] at hpairs
  exact all_append_of_pairs hpairs

/-- More text behind leaves the bodies as they are. -/
theorem definitions_append_right (more : Text) :
    definitions (text ++ more) (all dialect.lexis text) =
      definitions text (all dialect.lexis text) := by
  apply List.filterMap_congr
  intro site hsite
  cases hclosing : site.closing with
  | none => rfl
  | some closing =>
      have hpair := closing?_of_mem hsite
      rw [hclosing] at hpair
      obtain ⟨before, inside, behind, rfl, hopening, rfl, _⟩ :=
        Dialect.exists_pieces hpair
      have hshape : before ++ '(' :: (inside ++ ')' :: behind) ++ more =
          before ++ '(' :: (inside ++ ')' :: (behind ++ more)) := by simp
      rw [Option.map_some, Option.map_some, hopening, hshape, body_append,
        body_append]

/-- More text in front moves the bodies. -/
theorem definitions_append_left (more : Text) :
    definitions (more ++ text)
        ((all dialect.lexis text).map (moved (byteLength more + ·))) =
      definitions text (all dialect.lexis text) := by
  apply definitions_moved
  intro site hsite closing hclosing
  have hpair := closing?_of_mem hsite
  rw [hclosing] at hpair
  obtain ⟨before, inside, behind, rfl, hopening, rfl, _⟩ :=
    Dialect.exists_pieces hpair
  have hshape : more ++ (before ++ '(' :: (inside ++ ')' :: behind)) =
      (more ++ before) ++ '(' :: (inside ++ ')' :: behind) := by simp
  have hlength : byteLength more + (byteLength before + 1 + byteLength inside) =
      byteLength (more ++ before) + 1 + byteLength inside := by
    rw [byteLength_append]
    omega
  rw [hopening, hshape, hlength, ← byteLength_append, body_append, body_append]

end TableSite

/-- Extraction is local.  Of a text that is cut behind a semicolon of code, where
the text behind leaves no closing bracket unmatched, the sites are those of the text
up to the semicolon, then those of the text behind it at moved offsets.  Its tables
are those in front, then those behind whose names the ones in front lack, and its
relationships are those in front, then those of the tables that are kept. -/
theorem extraction_local (dialect : Dialect) (front back : Text)
    (hfront : (dialect.lexis.run .code front).inCode = true)
    (hback : dialect.ClosesOwn back) :
    let text := front ++ [';']
    let first := (Extraction.ofText dialect text).schema
    let later := (Extraction.ofText dialect back).schema
    let kept := later.tables.filter fun table => first.lacks table.name
    TableSite.all dialect.lexis (text ++ back) =
      TableSite.all dialect.lexis text ++
        (TableSite.all dialect.lexis back).map
          (TableSite.moved (byteLength text + ·)) ∧
    (Extraction.ofText dialect (text ++ back)).schema =
      ⟨first.tables ++ kept, first.relationships ++
        kept.flatMap fun table => later.relationshipsFrom table.name⟩ := by
  intro text first later kept
  have hsites := TableSite.all_append hfront hback
  rw [← List.singleton_append, ← List.append_assoc] at hsites
  have hdefined : TableSite.defined dialect (text ++ back) =
      TableSite.defined dialect text ++ TableSite.defined dialect back := by
    rw [TableSite.defined, hsites, TableSite.definitions,
      List.filterMap_append]
    exact congrArg₂ (· ++ ·) (TableSite.definitions_append_right back)
      (TableSite.definitions_append_left text)
  have hcoherent : later.Coherent := by
    change (Extraction.ofText dialect back).schema.Coherent
    rw [Extraction.ofText_schema]
    exact Schema.coherent_empty.addTables dialect _
  refine ⟨hsites, ?_⟩
  calc
    (Extraction.ofText dialect (text ++ back)).schema =
        Schema.empty.addTables dialect
          (TableSite.defined dialect text ++ TableSite.defined dialect back) := by
      rw [Extraction.ofText_schema, hdefined]
    _ = first.joined later := by
      rw [Schema.addTables_append, ← Extraction.ofText_schema,
        ← Extraction.ofText_schema]
    _ = _ := by
      rw [Schema.joined, hcoherent.filter_relationships]

/-- A table that is never closed takes no bracket of the text behind. -/
theorem extraction_local_unclosed :
    (Dialect.mysql.lexis.run .code "CREATE TABLE a (id INT".toList).inCode = true ∧
      Dialect.mysql.ClosesOwn "CREATE TABLE b (id INT);".toList ∧
      TableSite.all Dialect.mysql.lexis
          ("CREATE TABLE a (id INT".toList ++ [';'] ++
            "CREATE TABLE b (id INT);".toList) =
        [⟨"a".toList, 15, none⟩, ⟨"b".toList, 38, some 45⟩] := by
  have hfront : (Dialect.mysql.lexis.run .code
      "CREATE TABLE a (id INT".toList).inCode = true := by decide
  have hback : Dialect.mysql.ClosesOwn "CREATE TABLE b (id INT);".toList := by
    have hbrackets : Dialect.mysql.structural "CREATE TABLE b (id INT);".toList =
        [⟨15, .opening⟩, ⟨22, .closing⟩] := by decide +kernel
    intro closing hclosing
    rw [hbrackets] at hclosing
    obtain rfl : closing = 22 := by simpa using hclosing
    exact ⟨15, by decide⟩
  refine ⟨hfront, hback, ?_⟩
  rw [(extraction_local .mysql _ _ hfront hback).1]
  decide +kernel

end DdlDiagram
