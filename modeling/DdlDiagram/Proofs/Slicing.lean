/-
Checked slices.  Cutting a text at an offset fails when the offset is past the end
or inside a character, and a slice fails when its ends are out of order as well.  The
programs are written down once more with the index of bytes and with every cut
checked; they give what the programs give, so no cut ever fails.
-/
import DdlDiagram.Conversion
import DdlDiagram.Proofs.Accounting
import DdlDiagram.Proofs.ByteIndex
import DdlDiagram.Proofs.Terminating
import Mathlib.Data.List.Nodup

namespace DdlDiagram

open Text

namespace Text

/-- The text in front of an offset and the text behind it, unless the offset is past
the end or inside a character. -/
def splitBytes? : Nat → Text → Option (Text × Text)
  | 0, text => some ([], text)
  | _ + 1, [] => none
  | count + 1, c :: rest =>
      if c.utf8Size ≤ count + 1 then
        (splitBytes? (count + 1 - c.utf8Size) rest).map fun (left, right) =>
          (c :: left, right)
      else none

/-- The text from an offset on, if it can be cut there. -/
def sliceFrom? (start : Nat) (text : Text) : Option Text :=
  (splitBytes? start text).map Prod.snd

/-- The text between two offsets, if it can be cut at both and they are in order. -/
def slice? (start stop : Nat) (text : Text) : Option Text :=
  if start ≤ stop then
    (sliceFrom? start text).bind fun rest =>
      (splitBytes? (stop - start) rest).map Prod.fst
  else none

/-- A character stands at an offset. -/
def HasAt (text : Text) (offset : Nat) (c : Char) : Prop :=
  ∃ front back, text = front ++ c :: back ∧ offset = byteLength front

/-- A text is cut exactly at the lengths of its prefixes. -/
theorem splitBytes?_eq_some_iff {count : Nat} {text left right : Text} :
    splitBytes? count text = some (left, right) ↔
      text = left ++ right ∧ byteLength left = count := by
  fun_induction splitBytes? count text generalizing left with
  | case1 text =>
      constructor
      · intro h
        obtain ⟨rfl, rfl⟩ := Prod.mk.inj (Option.some.inj h)
        exact ⟨rfl, rfl⟩
      · rintro ⟨rfl, hlength⟩
        cases left with
        | nil => rfl
        | cons c left =>
            have := c.utf8Size_pos
            rw [byteLength_cons] at hlength
            omega
  | case2 count =>
      constructor
      · intro h
        contradiction
      · rintro ⟨hnil, hlength⟩
        rw [(List.append_eq_nil_iff.mp hnil.symm).1] at hlength
        contradiction
  | case3 count c rest hsize ih =>
      constructor
      · intro h
        obtain ⟨⟨front, back⟩, hrest, heq⟩ := Option.map_eq_some_iff.mp h
        obtain ⟨rfl, rfl⟩ := Prod.mk.inj heq
        obtain ⟨rfl, hlength⟩ := ih.mp hrest
        refine ⟨rfl, ?_⟩
        rw [byteLength_cons]
        omega
      · rintro ⟨hsplit, hlength⟩
        cases left with
        | nil => contradiction
        | cons c' left =>
            obtain ⟨rfl, rfl⟩ := List.cons.inj hsplit
            rw [byteLength_cons] at hlength
            rw [ih.mpr ⟨rfl, by omega⟩]
            rfl
  | case4 count c rest hsize =>
      constructor
      · intro h
        contradiction
      · rintro ⟨hsplit, hlength⟩
        cases left with
        | nil => contradiction
        | cons c' left =>
            obtain ⟨rfl, _⟩ := List.cons.inj hsplit
            rw [byteLength_cons] at hlength
            omega

/-- What can be cut off is what stands behind a prefix. -/
theorem sliceFrom?_eq_some_iff {start : Nat} {text back : Text} :
    sliceFrom? start text = some back ↔
      ∃ front, text = front ++ back ∧ start = byteLength front := by
  rw [sliceFrom?, Option.map_eq_some_iff]
  constructor
  · rintro ⟨⟨front, _⟩, hsplit, rfl⟩
    obtain ⟨htext, hstart⟩ := splitBytes?_eq_some_iff.mp hsplit
    exact ⟨front, htext, hstart.symm⟩
  · rintro ⟨front, htext, hstart⟩
    exact ⟨(front, back), splitBytes?_eq_some_iff.mpr ⟨htext, hstart.symm⟩, rfl⟩

/-- A slice is there exactly between two places of its text in order. -/
theorem slice?_eq_some_iff {start stop : Nat} {text inner : Text} :
    slice? start stop text = some inner ↔
      ∃ front back, text = front ++ (inner ++ back) ∧ start = byteLength front ∧
        stop = start + byteLength inner := by
  rw [slice?, sliceFrom?]
  constructor
  · intro h
    split at h
    · next hle =>
        obtain ⟨rest, hrest, hinner⟩ := Option.bind_eq_some_iff.mp h
        obtain ⟨⟨front, _⟩, hfront, rfl⟩ := Option.map_eq_some_iff.mp hrest
        obtain ⟨⟨part, back⟩, hback, rfl⟩ := Option.map_eq_some_iff.mp hinner
        obtain ⟨rfl, hstart⟩ := splitBytes?_eq_some_iff.mp hfront
        obtain ⟨hrest, hstop⟩ := splitBytes?_eq_some_iff.mp hback
        exact ⟨front, back, congrArg (front ++ ·) hrest, hstart.symm,
          by dsimp only; omega⟩
    · contradiction
  · rintro ⟨front, back, rfl, rfl, rfl⟩
    have hfront : splitBytes? (byteLength front) (front ++ (inner ++ back)) =
        some (front, inner ++ back) := splitBytes?_eq_some_iff.mpr ⟨rfl, rfl⟩
    have hinner : splitBytes? (byteLength inner) (inner ++ back) =
        some (inner, back) := splitBytes?_eq_some_iff.mpr ⟨rfl, rfl⟩
    rw [if_pos (Nat.le_add_right _ _), hfront, Nat.add_sub_cancel_left]
    simp [hinner]

end Text

/-- The table sites that the index of bytes gives. -/
def TableSite.ofBytes (dialect : Dialect) (text : Text) : List TableSite :=
  (Header.all text).filterMap
    (ofHeader? (ByteIndex.index dialect.backslashEscapes text.bytes))

namespace Extraction

/-- Add the tables at the given sites to a schema, with every slice checked. -/
def ofSites? (dialect : Dialect) (text : Text) :
    Schema → List TableSite → Option Extraction
  | schema, [] => some ⟨schema, []⟩
  | schema, site :: rest =>
      match site.closing with
      | none =>
          (ofSites? dialect text schema rest).map fun later =>
            ⟨later.schema, .unclosedBody site.name site.opening :: later.notices⟩
      | some closing => do
          let body ← slice? (site.opening + 1) closing text
          let addition := schema.addTable dialect site.name body
          let later ← ofSites? dialect text addition.schema rest
          some ⟨later.schema, addition.notices ++ later.notices⟩

/-- The schema of a clean text, with every slice checked. -/
def ofText? (dialect : Dialect) (text : Text) : Option Extraction :=
  ofSites? dialect text Schema.empty (TableSite.ofBytes dialect text)

end Extraction

namespace CleanText

/-- End the table definitions at the given sites, with every slice checked.  The
text is cut anew at each site, from where the last one left off. -/
def terminateSites? (text : Text) (cursor : Nat) : List TableSite → Option Text
  | [] => sliceFrom? cursor text
  | site :: rest =>
      match site.closing with
      | none => terminateSites? text cursor rest
      | some closing =>
          if closing < cursor then terminateSites? text cursor rest
          else do
            let copied ← slice? cursor (closing + 1) text
            let tail ← sliceFrom? (closing + 1) text
            let size := byteLength tail - byteLength (TableOption.afterAll tail)
            let remaining ← sliceFrom? (closing + 1 + size) text
            let later ← terminateSites? text (closing + 1 + size) rest
            some (copied ++ (ending remaining ++ later))

/-- The text with every table definition ended, with every slice checked. -/
def terminateTables? (dialect : Dialect) (text : Text) : Option Text :=
  terminateSites? text 0 (TableSite.ofBytes dialect text)

/-- The clean form of a text, with every slice checked. -/
def ofText? (dialect : Dialect) (text : Text) : Option Text :=
  if dialect.isCleaned then terminateTables? dialect (unquoteNames dialect text)
  else some text

end CleanText

/-- The schema of a SQL text, with every slice checked. -/
def Extraction.ofSql? (dialect : Dialect) (sql : Text) : Option Extraction :=
  (CleanText.ofText? dialect sql).bind (ofText? dialect)

section sites

variable {dialect : Dialect} {text : Text} {site : TableSite}

theorem TableSite.ofBytes_eq_all (dialect : Dialect) (text : Text) :
    ofBytes dialect text = all dialect.lexis text := by
  rw [ofBytes, ByteIndex.index_bytes, all]

/-- Brackets that pair stand in their text in order. -/
theorem Dialect.hasAt_of_closing? {opening closing : Nat}
    (h : dialect.lexis.closing? text opening = some closing) :
    HasAt text opening '(' ∧ HasAt text closing ')' ∧ opening < closing := by
  obtain ⟨front, body, back, rfl, rfl, rfl, _⟩ := exists_pieces h
  refine ⟨⟨front, _, rfl, rfl⟩, ⟨front ++ '(' :: body, back, by simp, ?_⟩, by omega⟩
  rw [byteLength_append, byteLength_cons]
  change _ = _ + (1 + _)
  omega

/-- A structural opening bracket stands in its text. -/
theorem Dialect.hasAt_of_mem {offset : Nat} {side : Side}
    (h : ⟨offset, side⟩ ∈ dialect.structural text) :
    HasAt text offset side.char := by
  rw [← brackets_eq_structural] at h
  obtain ⟨left, right, hsplit⟩ := List.append_of_mem h
  obtain ⟨front, back, htext, hoffset, _⟩ := Lexis.exists_of_ofGlyphs_eq hsplit
  exact ⟨front, back, htext, by rw [hoffset, Nat.zero_add]⟩

/-- The entry of an opening bracket holds the bracket that closes it. -/
theorem Dialect.closing?_of_mem_pairs {pair : BracketPair}
    (h : pair ∈ dialect.lexis.bracketPairs text) :
    dialect.lexis.closing? text pair.opening = pair.closing := by
  have hnodup := nodup_openings dialect text
  obtain ⟨other, hother⟩ : ∃ other, (dialect.lexis.bracketPairs text).find?
      (·.opening == pair.opening) = some other := by
    rw [← Option.isSome_iff_exists, List.find?_isSome]
    exact ⟨pair, h, by simp⟩
  obtain rfl : other = pair := by
    refine List.inj_on_of_nodup_map hnodup (List.mem_of_find?_eq_some hother) h ?_
    simpa using List.find?_some hother
  rw [Lexis.closing?, hother]
  rfl

/-- The slice between the brackets of a site is its body. -/
theorem TableSite.slice?_body {opening closing : Nat}
    (h : dialect.lexis.closing? text opening = some closing) :
    slice? (opening + 1) closing text = some (body text opening closing) := by
  obtain ⟨front, inside, back, rfl, rfl, rfl, _⟩ := Dialect.exists_pieces h
  rw [body_append]
  refine slice?_eq_some_iff.mpr ⟨front ++ ['('], ')' :: back, by simp, ?_, rfl⟩
  rw [byteLength_append]
  rfl

theorem Extraction.ofSites?_eq_some {sites : List TableSite} (schema : Schema)
    (hsites : ∀ site ∈ sites,
      dialect.lexis.closing? text site.opening = site.closing) :
    ofSites? dialect text schema sites =
      some (ofSites dialect text schema sites) := by
  induction sites generalizing schema with
  | nil => rfl
  | cons site rest ih =>
      have hrest := fun schema => ih schema fun other hother =>
        hsites other (List.mem_cons_of_mem site hother)
      have hsite := hsites site List.mem_cons_self
      cases hclosing : site.closing with
      | none => simp [ofSites?, ofSites, hclosing, hrest]
      | some closing =>
          rw [hclosing] at hsite
          simp [ofSites?, ofSites, hclosing, TableSite.slice?_body hsite, hrest]

/-- A closing bracket at or behind a place of a text stands in the rest of it. -/
theorem Dialect.exists_of_closing?_le {used rest : Text} {opening closing : Nat}
    (h : dialect.lexis.closing? (used ++ rest) opening = some closing)
    (hle : byteLength used ≤ closing) :
    ∃ inner back, rest = inner ++ ')' :: back ∧
      closing = byteLength (used ++ inner) := by
  obtain ⟨_, ⟨front, back, htext, rfl⟩, _⟩ := hasAt_of_closing? h
  obtain ⟨inner, rfl, rfl⟩ := exists_of_byteLength_le htext hle
  exact ⟨inner, back, rfl, rfl⟩

/-- At a site that is not passed every slice of the loop is there. -/
theorem CleanText.terminateSites?_cut {used inner options back : Text}
    {closing : Nat} (others : List TableSite) (hclosing : site.closing = some closing)
    (hplace : closing = byteLength (used ++ inner))
    (hback : back = options ++ TableOption.afterAll back) :
    terminateSites? (used ++ (inner ++ ')' :: back)) (byteLength used)
        (site :: others) =
      (terminateSites? (used ++ (inner ++ ')' :: back))
        (closing + 1 + byteLength options) others).map fun later =>
          inner ++ ')' :: (ending (TableOption.afterAll back) ++ later) := by
  have hnot : ¬ closing < byteLength used := by
    rw [hplace, byteLength_append]
    omega
  have hend : closing + 1 = byteLength (used ++ (inner ++ [')'])) := by
    rw [hplace, ← List.append_assoc, byteLength_append (used ++ inner)]
    rfl
  have hcopied : slice? (byteLength used) (closing + 1)
      (used ++ (inner ++ ')' :: back)) = some (inner ++ [')']) :=
    slice?_eq_some_iff.mpr ⟨used, back, by simp, rfl, by
      rw [hend, byteLength_append]⟩
  have htail : sliceFrom? (closing + 1) (used ++ (inner ++ ')' :: back)) =
      some back :=
    sliceFrom?_eq_some_iff.mpr ⟨used ++ (inner ++ [')']), by simp, hend⟩
  have hsize : byteLength back - byteLength (TableOption.afterAll back) =
      byteLength options := by
    have hbytes := congrArg byteLength hback
    rw [byteLength_append] at hbytes
    omega
  have hremaining : sliceFrom? (closing + 1 + byteLength options)
      (used ++ (inner ++ ')' :: back)) = some (TableOption.afterAll back) := by
    refine sliceFrom?_eq_some_iff.mpr ⟨used ++ (inner ++ ')' :: options), ?_, ?_⟩
    · conv_lhs => rw [hback]
      simp
    · rw [hend, ← byteLength_append]
      simp
  rw [terminateSites?]
  simp only [hclosing, hnot, ↓reduceIte, hcopied, htail, hsize, hremaining,
    Option.bind_eq_bind, Option.bind_some]
  cases terminateSites? (used ++ (inner ++ ')' :: back))
    (closing + 1 + byteLength options) others <;> simp

theorem CleanText.terminateSites?_eq_some {used rest : Text}
    {sites : List TableSite} (hsites : ∀ site ∈ sites,
      dialect.lexis.closing? (used ++ rest) site.opening = site.closing) :
    terminateSites? (used ++ rest) (byteLength used) sites =
      some (terminateSites (byteLength used) rest sites) := by
  induction sites generalizing used rest with
  | nil => exact sliceFrom?_eq_some_iff.mpr ⟨used, rfl, rfl⟩
  | cons site others ih =>
      have hsite := hsites site List.mem_cons_self
      have hothers := fun other hother =>
        hsites other (List.mem_cons_of_mem site hother)
      cases hclosing : site.closing with
      | none =>
          simp only [terminateSites?, terminateSites, hclosing]
          exact ih hothers
      | some closing =>
          by_cases hlt : closing < byteLength used
          · simp only [terminateSites?, terminateSites, hclosing, hlt, ↓reduceIte]
            exact ih hothers
          · rw [hclosing] at hsite
            obtain ⟨inner, back, rfl, hplace⟩ :=
              Dialect.exists_of_closing?_le hsite (Nat.le_of_not_lt hlt)
            obtain ⟨options, hback, _⟩ :=
              TableOption.afterAll_split dialect.lexis back
            have hlength : closing + 1 = byteLength used + byteLength (inner ++ [')']) := by
              rw [hplace, byteLength_append, byteLength_append inner]
              rfl
            have hshape : used ++ (inner ++ ')' :: back) =
                (used ++ (inner ++ ')' :: options)) ++ TableOption.afterAll back := by
              conv_lhs => rw [hback]
              simp
            have hcursor : closing + 1 + byteLength options =
                byteLength (used ++ (inner ++ ')' :: options)) := by
              rw [hlength]
              simp only [byteLength_append, byteLength_cons, byteLength_nil]
              omega
            rw [terminateSites?_cut others hclosing hplace hback,
              (terminateSites_cut others hclosing hlength hback).1, hcursor]
            rw [hshape] at hothers ⊢
            rw [ih hothers]
            rfl

end sites

/-- No slice fails.  The index of bytes is that of the characters; every bracket it
holds, and every bracket of a table site, stands in the text at its offset, and a
closing one behind its opening one.  The programs with every slice checked return,
and what they return is what the programs without checks give: for the text between
the brackets of a site, and from the place one site was left at to the next bracket,
behind the bracket, behind the options and to the end of the text. -/
theorem slices_succeed (dialect : Dialect) (text : Text) :
    ByteIndex.index dialect.backslashEscapes text.bytes =
        dialect.lexis.bracketPairs text ∧
    (∀ pair ∈ ByteIndex.index dialect.backslashEscapes text.bytes,
      HasAt text pair.opening '(' ∧ ∀ closing, pair.closing = some closing →
        HasAt text closing ')' ∧ pair.opening < closing) ∧
    (∀ site ∈ TableSite.ofBytes dialect text,
      HasAt text site.opening '(' ∧ ∀ closing, site.closing = some closing →
        HasAt text closing ')' ∧ site.opening < closing) ∧
    Extraction.ofText? dialect text = some (Extraction.ofText dialect text) ∧
    CleanText.terminateTables? dialect text =
      some (CleanText.terminateTables dialect text) ∧
    CleanText.ofText? dialect text = some (CleanText.ofText dialect text) ∧
    Extraction.ofSql? dialect text = some (Extraction.ofSql dialect text) := by
  have hextract : ∀ text, Extraction.ofText? dialect text =
      some (Extraction.ofText dialect text) := by
    intro text
    rw [Extraction.ofText?, TableSite.ofBytes_eq_all]
    exact Extraction.ofSites?_eq_some _ fun site => TableSite.closing?_of_mem
  have hterminate : ∀ text, CleanText.terminateTables? dialect text =
      some (CleanText.terminateTables dialect text) := by
    intro text
    rw [CleanText.terminateTables?, TableSite.ofBytes_eq_all]
    have hsites : ∀ site ∈ TableSite.all dialect.lexis text,
        dialect.lexis.closing? ([] ++ text) site.opening = site.closing :=
      fun _ => TableSite.closing?_of_mem
    exact CleanText.terminateSites?_eq_some hsites
  have hclean : CleanText.ofText? dialect text =
      some (CleanText.ofText dialect text) := by
    rw [CleanText.ofText?, CleanText.ofText, hterminate]
    split <;> rfl
  refine ⟨ByteIndex.index_bytes dialect text, ?_, ?_, hextract text, hterminate text,
    hclean, ?_⟩
  · rw [ByteIndex.index_bytes]
    intro pair hpair
    have hopening := Dialect.mem_openings_iff.mp (List.mem_map_of_mem hpair)
    refine ⟨Dialect.hasAt_of_mem hopening, fun closing hclosing => ?_⟩
    rw [← Dialect.closing?_of_mem_pairs hpair] at hclosing
    exact (Dialect.hasAt_of_closing? hclosing).2
  · rw [TableSite.ofBytes_eq_all]
    intro site hsite
    obtain ⟨header, _, hheader⟩ := List.mem_filterMap.mp hsite
    obtain ⟨hopening, rfl⟩ := TableSite.ofHeader?_eq_some_iff.mp hheader
    refine ⟨Dialect.hasAt_of_mem hopening, fun closing hclosing => ?_⟩
    exact (Dialect.hasAt_of_closing? hclosing).2
  · rw [Extraction.ofSql?, hclean, Option.bind_some, hextract]
    rfl

/-- An option's literal that takes in the header of another table, in front of a
table that is never closed. -/
theorem slices_succeed_overtaken :
    let sql := "CREATE TABLE a (é INT) COMMENT='\\';" ++
      "CREATE TABLE b (i INT DEFAULT '1');CREATE TABLE c ("
    CleanText.terminateTables? .postgres sql.toList =
      some "CREATE TABLE a (é INT);1');CREATE TABLE c (".toList := by
  intro sql
  obtain ⟨_, _, _, _, hterminate, _⟩ := slices_succeed .postgres sql.toList
  rw [hterminate]
  decide +kernel

end DdlDiagram
