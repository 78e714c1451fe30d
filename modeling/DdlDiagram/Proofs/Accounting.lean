/-
What becomes of every header.  Each header whose bracket is code is one table site,
and extraction settles each site once: the first closed site of a name becomes a
table, a later one is reported as a repetition, and a site whose bracket is never
closed is reported with the offset of that bracket.
-/
import DdlDiagram.Proofs.HeaderApart
import DdlDiagram.Proofs.Joining
import DdlDiagram.Proofs.Moving

namespace DdlDiagram

open Text

/-- What becomes of a table site. -/
inductive Fate where
  /-- Its body is read into a table. -/
  | table (body : TableBody)
  /-- A closed site of its name opens in front of it. -/
  | repeated
  /-- Its bracket is never closed. -/
  | unclosed
deriving DecidableEq, Repr

namespace Fate

/-- What is read of a site that becomes a table. -/
def body? : Fate → Option TableBody
  | table body => some body
  | _ => none

/-- What is reported about a site and its body. -/
def notices (site : TableSite) : Fate → List Notice
  | table body => body.notices
  | repeated => [.repeatedTable site.name]
  | unclosed => [.unclosedBody site.name site.opening]

end Fate

namespace Notice

def isRepeatedTable : Notice → Bool
  | repeatedTable _ => true
  | _ => false

def isUnclosedBody : Notice → Bool
  | unclosedBody _ _ => true
  | _ => false

end Notice

namespace TableSite

/-- Whether a closed site of the same name opens in front of a site. -/
def isRepeated (sites : List TableSite) (site : TableSite) : Bool :=
  sites.any fun other => other.closing.isSome &&
    decide (other.opening < site.opening) && sameName other.name site.name

/-- What becomes of a site among the sites of a text. -/
def fate (dialect : Dialect) (text : Text) (sites : List TableSite)
    (site : TableSite) : Fate :=
  match site.closing with
  | none => .unclosed
  | some closing =>
      if isRepeated sites site then .repeated
      else .table (TableBody.read dialect site.name
        (body text site.opening closing))

section sites

variable {dialect : Dialect} {text : Text} {front rest : List TableSite}
  {site : TableSite} {schema : Schema}

/-- Among ascending sites only those in front are repeated. -/
theorem isRepeated_append (h : (front ++ site :: rest).Pairwise
    fun left right => left.opening < right.opening) :
    isRepeated (front ++ site :: rest) site =
      front.any fun other =>
        other.closing.isSome && sameName other.name site.name := by
  obtain ⟨_, hbehind, hfront⟩ := List.pairwise_append.mp h
  have hrest := (List.pairwise_cons.mp hbehind).1
  rw [isRepeated, List.any_append, Bool.eq_iff_iff, Bool.or_eq_true,
    List.any_eq_true, List.any_eq_true, List.any_eq_true]
  constructor
  · rintro (⟨other, hother, hsame⟩ | ⟨other, hother, hsame⟩)
    · simp only [Bool.and_eq_true] at hsame
      exact ⟨other, hother, by simp [hsame]⟩
    · have hle : site.opening ≤ other.opening := by
        rcases List.mem_cons.mp hother with rfl | hother
        · exact Nat.le_refl _
        · exact Nat.le_of_lt (hrest other hother)
      simp only [Bool.and_eq_true, decide_eq_true_eq] at hsame
      exact absurd hsame.1.2 (Nat.not_lt_of_ge hle)
  · rintro ⟨other, hother, hsame⟩
    have hlt := hfront other hother site List.mem_cons_self
    simp only [Bool.and_eq_true] at hsame
    exact Or.inl ⟨other, hother, by simp [hsame, hlt]⟩

/-- A schema that has the names of the closed sites among those given. -/
def Covers (schema : Schema) (sites : List TableSite) : Prop :=
  ∀ name, schema.lacks name =
    !sites.any fun site => site.closing.isSome && sameName site.name name

theorem covers_empty : Covers Schema.empty [] :=
  fun _ => rfl

theorem Covers.unclosed (h : Covers schema front) (hclosing : site.closing = none) :
    Covers schema (front ++ [site]) := by
  intro name
  simp [h name, hclosing]

theorem Covers.repeated (h : Covers schema front)
    (hlacks : schema.lacks site.name = false) :
    Covers schema (front ++ [site]) := by
  intro name
  by_cases hname : sameName site.name name = true
  · have hfront := h name
    rw [← Schema.lacks_congr hname, hlacks] at hfront ⊢
    rw [List.any_append, Bool.not_or, ← hfront, Bool.false_and]
  · simp [h name, hname]

theorem Covers.table (h : Covers schema front) {closing : Nat}
    (hclosing : site.closing = some closing) {table : Table}
    (htable : table.name = site.name) (links : List Relationship) :
    Covers ⟨schema.tables ++ [table], links⟩ (front ++ [site]) := by
  intro name
  have hfront := h name
  rw [Bool.eq_iff_iff, Schema.lacks_iff] at hfront ⊢
  simp_all [or_imp, forall_and]

end sites

end TableSite

namespace Extraction

variable {dialect : Dialect} {text : Text}

theorem addTable_repeated {schema : Schema} {name : Text}
    (h : schema.lacks name = false) (body : Text) :
    schema.addTable dialect name body =
      ⟨schema, false, [.repeatedTable name]⟩ := by
  have hsome : (schema.table? name).isSome := by
    rw [← Option.not_isNone, ← Schema.lacks, h]
    rfl
  rw [Schema.addTable, if_pos hsome]

theorem addTable_new {schema : Schema} {name : Text}
    (h : schema.lacks name = true) (body : Text) :
    schema.addTable dialect name body =
      let read := TableBody.read dialect name body
      ⟨⟨schema.tables ++ [read.table],
        schema.relationships ++ read.relationships⟩, true, read.notices⟩ := by
  rw [Schema.lacks, Option.isNone_iff_eq_none] at h
  simp [Schema.addTable, h]

/-- Extraction gives each of the ascending sites its fate. -/
theorem ofSites_fates {sites front rest : List TableSite} {schema : Schema}
    (hascending : sites.Pairwise fun left right => left.opening < right.opening)
    (hsites : sites = front ++ rest) (hcovers : TableSite.Covers schema front) :
    let fate := TableSite.fate dialect text sites
    let bodies := rest.filterMap fun site => (fate site).body?
    ofSites dialect text schema rest =
      ⟨⟨schema.tables ++ bodies.map TableBody.table,
          schema.relationships ++ bodies.flatMap TableBody.relationships⟩,
        rest.flatMap fun site => (fate site).notices site⟩ := by
  induction rest generalizing front schema with
  | nil => simp [ofSites]
  | cons site rest ih =>
      have hshape : sites = (front ++ [site]) ++ rest := by simp [hsites]
      have hrepeated : TableSite.isRepeated sites site = !schema.lacks site.name := by
        rw [hcovers site.name, Bool.not_not, hsites]
        exact TableSite.isRepeated_append (hsites ▸ hascending)
      cases hclosing : site.closing with
      | none =>
          have hfate : TableSite.fate dialect text sites site = .unclosed := by
            rw [TableSite.fate, hclosing]
          have hrest := ih hshape (hcovers.unclosed hclosing)
          simp [ofSites, hclosing, hrest, hfate, Fate.body?, Fate.notices]
      | some closing =>
          cases hlacks : schema.lacks site.name with
          | false =>
              have hfate : TableSite.fate dialect text sites site = .repeated := by
                simp [TableSite.fate, hclosing, hrepeated, hlacks]
              have hrest := ih hshape (hcovers.repeated hlacks)
              simp [ofSites, hclosing, addTable_repeated hlacks, hrest, hfate,
                Fate.body?, Fate.notices]
          | true =>
              obtain ⟨body, hbody⟩ : ∃ body, TableBody.read dialect site.name
                  (TableSite.body text site.opening closing) = body := ⟨_, rfl⟩
              have hfate : TableSite.fate dialect text sites site = .table body := by
                simp [TableSite.fate, hclosing, hrepeated, hlacks, hbody]
              have hname : body.table.name = site.name := by
                rw [← hbody]
                rfl
              have hrest := ih hshape (hcovers.table hclosing hname
                (schema.relationships ++ body.relationships))
              simp [ofSites, hclosing, addTable_new hlacks, hrest, hfate, hbody,
                Fate.body?, Fate.notices]

/-- Extraction gives each site of a text its fate. -/
theorem ofText_fates (dialect : Dialect) (text : Text) :
    let sites := TableSite.all dialect.lexis text
    let fate := TableSite.fate dialect text sites
    let bodies := sites.filterMap fun site => (fate site).body?
    ofText dialect text =
      ⟨⟨bodies.map TableBody.table, bodies.flatMap TableBody.relationships⟩,
        sites.flatMap fun site => (fate site).notices site⟩ :=
  ofSites_fates (TableSite.ascending_all dialect.lexis text) rfl
    TableSite.covers_empty

end Extraction

namespace TableBody

/-- Reading a body reports neither a repeated table nor an unclosed one. -/
theorem read_notices {dialect : Dialect} {name body : Text} {notice : Notice}
    (h : notice ∈ (read dialect name body).notices) :
    notice.isRepeatedTable = false ∧ notice.isUnclosedBody = false := by
  obtain ⟨outcome, _, hnotice⟩ := List.mem_flatMap.mp h
  cases outcome with
  | links | keys | passed => simp [Outcome.notices] at hnotice
  | repeated | discarded =>
      rw [List.mem_singleton.mp hnotice]
      exact ⟨rfl, rfl⟩
  | column declaration =>
      simp only [Outcome.notices] at hnotice
      split at hnotice
      · rw [List.mem_singleton.mp hnotice]
        exact ⟨rfl, rfl⟩
      · simp at hnotice

end TableBody

namespace TableSite

variable {dialect : Dialect} {text : Text} {site : TableSite}

/-- A site counts once: as a table, a repetition or an unclosed body. -/
theorem fate_count (dialect : Dialect) (text : Text) (sites : List TableSite)
    (site : TableSite) :
    let fate := fate dialect text sites site
    fate.body?.toList.length + (fate.notices site).countP Notice.isRepeatedTable +
      (fate.notices site).countP Notice.isUnclosedBody = 1 := by
  cases hclosing : site.closing with
  | none => simp [fate, hclosing, Fate.body?, Fate.notices, Notice.isRepeatedTable,
      Notice.isUnclosedBody]
  | some closing =>
      by_cases hcase : isRepeated sites site = true
      · simp [fate, hclosing, hcase, Fate.body?, Fate.notices,
          Notice.isRepeatedTable, Notice.isUnclosedBody]
      · have hread : ∀ notice ∈ (TableBody.read dialect site.name
            (body text site.opening closing)).notices,
              notice.isRepeatedTable = false ∧ notice.isUnclosedBody = false :=
          fun _ => TableBody.read_notices
        have hrepeated : (TableBody.read dialect site.name
            (body text site.opening closing)).notices.countP
              Notice.isRepeatedTable = 0 := by
          rw [List.countP_eq_zero]
          exact fun notice hnotice => by simp [(hread notice hnotice).1]
        have hunclosed : (TableBody.read dialect site.name
            (body text site.opening closing)).notices.countP
              Notice.isUnclosedBody = 0 := by
          rw [List.countP_eq_zero]
          exact fun notice hnotice => by simp [(hread notice hnotice).2]
        simp [fate, hclosing, hcase, Fate.body?, Fate.notices, hrepeated, hunclosed]

/-- Sites are as many as the tables, repetitions and unclosed bodies that come of
them. -/
theorem length_eq_count (dialect : Dialect) (text : Text)
    (sites among : List TableSite) :
    let fate := fate dialect text among
    let notices := sites.flatMap fun site => (fate site).notices site
    sites.length =
      ((sites.filterMap fun site => (fate site).body?).map TableBody.table).length +
        notices.countP Notice.isRepeatedTable +
        notices.countP Notice.isUnclosedBody := by
  induction sites with
  | nil => rfl
  | cons site rest ih =>
      have hsite := fate_count dialect text among site
      have hbody : ((site :: rest).filterMap fun site =>
          (fate dialect text among site).body?).length =
            (fate dialect text among site).body?.toList.length +
              (rest.filterMap fun site =>
                (fate dialect text among site).body?).length := by
        rw [List.filterMap_cons]
        cases (fate dialect text among site).body? <;> simp [Nat.add_comm]
      simp only [List.length_map] at ih ⊢
      rw [hbody, List.length_cons, ih, List.flatMap_cons, List.countP_append,
        List.countP_append]
      dsimp only at hsite
      omega

/-- A header is a site when its bracket is code. -/
theorem ofHeader?_eq_some_iff {header : Header} :
    ofHeader? (dialect.lexis.bracketPairs text) header = some site ↔
      ⟨header.opening, .opening⟩ ∈ dialect.structural text ∧
        site = ⟨header.name, header.opening,
          dialect.lexis.closing? text header.opening⟩ := by
  rw [← Dialect.mem_openings_iff, ofHeader?, Lexis.closing?]
  cases hfound : (dialect.lexis.bracketPairs text).find?
      (·.opening == header.opening) with
  | none =>
      have hnot : header.opening ∉
          (dialect.lexis.bracketPairs text).map BracketPair.opening := by
        intro hmem
        obtain ⟨pair, hpair, heq⟩ := List.mem_map.mp hmem
        exact List.find?_eq_none.mp hfound pair hpair (by simp [heq])
      simp [hnot]
  | some pair =>
      have hmem : header.opening ∈
          (dialect.lexis.bracketPairs text).map BracketPair.opening := by
        have heq : pair.opening = header.opening := by
          simpa using List.find?_some hfound
        rw [← heq]
        exact List.mem_map_of_mem (List.mem_of_find?_eq_some hfound)
      simp only [hmem, Option.map_some, Option.bind_some, true_and,
        Option.some.injEq]
      exact eq_comm

/-- The sites of a text are its headers in front of a bracket of code. -/
theorem mem_all_iff_standsAt : site ∈ all dialect.lexis text ↔
    ∃ start header, Header.StandsAt text start header ∧
      ⟨header.opening, .opening⟩ ∈ dialect.structural text ∧
      site = ⟨header.name, header.opening,
        dialect.lexis.closing? text header.opening⟩ := by
  rw [all, List.mem_filterMap]
  constructor
  · rintro ⟨header, hheader, hsite⟩
    obtain ⟨start, hstands⟩ := Header.mem_all_iff.mp hheader
    exact ⟨start, header, hstands, ofHeader?_eq_some_iff.mp hsite⟩
  · rintro ⟨start, header, hstands, hsite⟩
    exact ⟨header, Header.mem_all_iff.mpr ⟨start, hstands⟩,
      ofHeader?_eq_some_iff.mpr hsite⟩

end TableSite

/-- No header of a text is lost.  Headers that stand in it do not overlap, and one at
most stands at a place.  The sites ascend, and there is one for every header in front
of a bracket of code.  Extraction gives each site its fate: the tables are those of
the closed sites that repeat no name, in order, and what is reported are the notices
of the sites, so sites are as many as tables, repetitions and unclosed bodies
together. -/
theorem headers_accounted (dialect : Dialect) (text : Text) :
    let sites := TableSite.all dialect.lexis text
    let fate := TableSite.fate dialect text sites
    let bodies := sites.filterMap fun site => (fate site).body?
    let extraction := Extraction.ofText dialect text
    (∀ start start' header header', Header.StandsAt text start header →
      Header.StandsAt text start' header' →
        (start = start' → header = header') ∧
          (start < start' → header.opening < start')) ∧
    (∀ site, site ∈ sites ↔ ∃ start header, Header.StandsAt text start header ∧
      ⟨header.opening, .opening⟩ ∈ dialect.structural text ∧
      site = ⟨header.name, header.opening,
        dialect.lexis.closing? text header.opening⟩) ∧
    sites.Pairwise (fun left right => left.opening < right.opening) ∧
    extraction.schema.tables = bodies.map TableBody.table ∧
    extraction.schema.relationships = bodies.flatMap TableBody.relationships ∧
    extraction.notices = sites.flatMap (fun site => (fate site).notices site) ∧
    sites.length = extraction.schema.tables.length +
      extraction.notices.countP Notice.isRepeatedTable +
      extraction.notices.countP Notice.isUnclosedBody := by
  have hfates := Extraction.ofText_fates dialect text
  dsimp only at hfates ⊢
  rw [hfates]
  refine ⟨?_, fun site => TableSite.mem_all_iff_standsAt,
    TableSite.ascending_all dialect.lexis text, rfl, rfl, rfl, ?_⟩
  · intro start start' header header' hstands hstands'
    refine ⟨?_, hstands.opening_lt hstands'⟩
    rintro rfl
    exact hstands.eq hstands'
  · exact TableSite.length_eq_count dialect text _ _

/-- Three headers, of which one becomes a table, one repeats it and one is never
closed. -/
theorem headers_accounted_mixed :
    let text := "CREATE TABLE t.a(i INT);create temp table A (j INT);CREATE TABLE b(".toList
    let first : Header := ⟨"a".toList, 16⟩
    let second : Header := ⟨"A".toList, 44⟩
    (Extraction.ofText .generic text).notices =
        [.repeatedTable "A".toList, .unclosedBody "b".toList 66] ∧
      (TableSite.all Dialect.generic.lexis text).length =
        (Extraction.ofText .generic text).schema.tables.length + 1 + 1 ∧
      Header.StandsAt text 0 first ∧ Header.StandsAt text 24 second ∧
      first.opening < 24 := by
  intro text first second
  obtain ⟨hapart, _, _, _, _, hnotices, hcount⟩ := headers_accounted .generic text
  have hread : (Extraction.ofText .generic text).notices =
      [.repeatedTable "A".toList, .unclosedBody "b".toList 66] := by
    rw [hnotices]
    decide +kernel
  have hfirst : Header.StandsAt text 0 first :=
    ⟨[], "CREATE TABLE t.a".toList,
      "i INT);create temp table A (j INT);CREATE TABLE b(".toList,
      by decide, by decide, by decide +kernel, by decide, by decide⟩
  have hsecond : Header.StandsAt text 24 second :=
    ⟨"CREATE TABLE t.a(i INT);".toList, "create temp table A ".toList,
      "j INT);CREATE TABLE b(".toList,
      by decide, by decide, by decide +kernel, by decide, by decide⟩
  rw [hread] at hcount
  exact ⟨hread, hcount, hfirst, hsecond,
    (hapart 0 24 first second hfirst hsecond).2 (by decide)⟩

end DdlDiagram
