/-
Ending the table definitions of a text.  Behind the body of each definition the
options are dropped and a semicolon is put where none follows.  As long as what is
dropped is read as the dialect reads it, and no header begins in it, this defines
the same tables.  The argument follows the text from cut to cut: what is already
edited stands in front, and each site of the edited text is a site of the original
one whose closing bracket was passed or stands at the same place of the rest.
-/
import DdlDiagram.CleanText
import DdlDiagram.Proofs.Inserting
import Mathlib.Data.List.Forall2
import Mathlib.Data.List.Infix

namespace DdlDiagram

open Text
open TableOption (SameEscapes)

namespace CleanText

/-- What is dropped behind the body of a definition, and the text behind it. -/
structure Cut where
  options : Text
  rest : Text
deriving DecidableEq, Repr

/-- The cuts that ending the definitions at the given sites makes. -/
def cutsAt (offset : Nat) (text : Text) : List TableSite → List Cut
  | [] => []
  | site :: rest =>
      match site.closing with
      | none => cutsAt offset text rest
      | some closing =>
          if closing < offset then cutsAt offset text rest
          else
            let tail := dropBytes (closing + 1 - offset) text
            let remaining := TableOption.afterAll tail
            let size := byteLength tail - byteLength remaining
            ⟨takeBytes size tail, remaining⟩ ::
              cutsAt (closing + 1 + size) remaining rest

/-- The cuts that ending the definitions of a text makes. -/
def cuts (dialect : Dialect) (text : Text) : List Cut :=
  cutsAt 0 text (TableSite.all dialect.lexis text)

/-- A cut that takes nothing but options: as the dialect reads it, it is words and
whole literals without a bracket of code, and it does not take the beginning of a
header from the text behind it.  The first is in question only where the dialect
reads a backslash otherwise than the reader of options. -/
structure Cut.Harmless (dialect : Dialect) (cut : Cut) : Prop where
  read : SameEscapes dialect.lexis cut.options ∨ dialect.lexis.Bare cut.options
  not_crosses : ¬ Header.Crosses cut.options cut.rest

/-- What is put behind a body. -/
def ending (rest : Text) : Text :=
  if isTerminated rest then [] else [';']

theorem unnoticed_ending (lexis : Lexis) (rest : Text) :
    lexis.Unnoticed (ending rest) rest := by
  rw [ending]
  split
  · exact lexis.unnoticed_nil rest
  · refine ⟨Lexis.bare_separator (Or.inr rfl), Or.inl (by decide), ?_⟩
    rintro ⟨front, phrase, back, name, body, hsplit, hne, _, _, hread⟩
    obtain rfl : phrase = [';'] := by
      cases front with
      | nil => exact hsplit.symm
      | cons c front =>
          have hempty := (List.cons.inj hsplit).2
          exact absurd (List.append_eq_nil_iff.mp hempty.symm).2 hne
    have hnone : Header.read? ([] ++ ';' :: rest) = none :=
      Header.read?_eq_none unmarked_nil (by decide) (Or.inl (by decide))
    rw [List.nil_append] at hnone
    rw [List.singleton_append, hnone] at hread
    contradiction

/-- What is dropped by a harmless cut is not noticed. -/
theorem Cut.Harmless.unnoticed {dialect : Dialect} {options rest : Text}
    (h : Cut.Harmless dialect ⟨options, rest⟩)
    (hdropped : TableOption.Dropped dialect.lexis options rest) :
    dialect.lexis.Unnoticed options rest :=
  ⟨h.read.elim hdropped.bare id, hdropped.parted, h.not_crosses⟩

section step

variable {offset closing : Nat} {site : TableSite} (rest : List TableSite)
  {used options back : Text}

/-- At a site that is passed or never closed nothing is done. -/
theorem terminateSites_skip (text : Text)
    (h : ∀ closing, site.closing = some closing → closing < offset) :
    terminateSites offset text (site :: rest) = terminateSites offset text rest ∧
      cutsAt offset text (site :: rest) = cutsAt offset text rest := by
  cases hclosing : site.closing with
  | none => simp [terminateSites, cutsAt, hclosing]
  | some closing => simp [terminateSites, cutsAt, hclosing, h closing hclosing]

/-- At any other site the options behind its closing bracket are cut. -/
theorem terminateSites_cut (hclosing : site.closing = some closing)
    (hlength : closing + 1 = offset + byteLength (used ++ [')']))
    (hback : back = options ++ TableOption.afterAll back) :
    terminateSites offset (used ++ ')' :: back) (site :: rest) =
        used ++ ')' :: (ending (TableOption.afterAll back) ++
          terminateSites (closing + 1 + byteLength options)
            (TableOption.afterAll back) rest) ∧
      cutsAt offset (used ++ ')' :: back) (site :: rest) =
        ⟨options, TableOption.afterAll back⟩ ::
          cutsAt (closing + 1 + byteLength options)
            (TableOption.afterAll back) rest := by
  have hnot : ¬ closing < offset := by
    rw [byteLength_append] at hlength
    change closing + 1 = offset + (_ + 1) at hlength
    omega
  have hcut : closing + 1 - offset = byteLength (used ++ [')']) := by omega
  have hsize : byteLength back - byteLength (TableOption.afterAll back) =
      byteLength options := by
    have hbytes := congrArg byteLength hback
    rw [byteLength_append] at hbytes
    omega
  have htake : takeBytes (byteLength options) back = options := by
    conv_lhs => rw [hback]
    exact takeBytes_append options _
  rw [List.append_cons]
  simp only [terminateSites, cutsAt, hclosing, hnot, ↓reduceIte, hcut,
    dropBytes_append, takeBytes_append, hsize, htake, and_true]
  rw [ending, List.append_assoc, List.append_assoc, List.singleton_append]

end step

/-- How the closing bracket of a site of the edited text stands to that of the
original site: both were passed, or both stand equally far into the text that is
left. -/
def Matches (offset size : Nat) (edited original : TableSite) : Prop :=
  Option.Rel (fun closing source => closing < size ∧ source < offset ∨
    size ≤ closing ∧ closing + offset = source + size)
      edited.closing original.closing

theorem Matches.exists_of_le {offset size source : Nat}
    {edited original : TableSite} (h : Matches offset size edited original)
    (hsource : original.closing = some source) (hle : offset ≤ source) :
    ∃ closing, edited.closing = some closing ∧ size ≤ closing ∧
      closing + offset = source + size := by
  rw [Matches, hsource] at h
  cases hclosing : edited.closing with
  | none =>
      rw [hclosing] at h
      cases h
  | some closing =>
      rw [hclosing] at h
      cases h with
      | some hrel => exact ⟨closing, rfl, by omega, by omega⟩

theorem Matches.lt_of_lt {offset size closing : Nat}
    {edited original : TableSite} (h : Matches offset size edited original)
    (hpassed : ∀ source, original.closing = some source → source < offset)
    (hclosing : edited.closing = some closing) : closing < size := by
  rw [Matches, hclosing] at h
  cases hsource : original.closing with
  | none =>
      rw [hsource] at h
      cases h
  | some source =>
      have hlt := hpassed source hsource
      rw [hsource] at h
      cases h with
      | some hrel => omega

/-- Sites match on behind a cut, where text of one size is removed and text of
another is put in. -/
theorem Matches.insert {offset size bound source removed inserted : Nat}
    {edited original : TableSite} (hsize : size ≤ bound)
    (hsource : bound + offset = source + size)
    (h : Matches offset size (edited.moved (past bound removed)) original) :
    Matches (source + 1 + removed) (bound + 1 + inserted)
      (edited.moved (past bound inserted)) original := by
  rw [Matches, TableSite.moved] at h ⊢
  cases hclosing : edited.closing with
  | none =>
      rw [hclosing] at h
      cases hother : original.closing with
      | none => exact .none
      | some other =>
          rw [hother] at h
          cases h
  | some closing =>
      rw [hclosing] at h
      cases hother : original.closing with
      | none =>
          rw [hother] at h
          cases h
      | some other =>
          rw [hother] at h
          cases h with
          | some hrel =>
              refine .some ?_
              by_cases hle : closing ≤ bound
              · rw [past_of_le hle] at hrel ⊢
                omega
              · rw [past_of_lt (by omega)] at hrel ⊢
                omega

/-- The closing bracket that a cut is made behind. -/
theorem Matches.closing_eq {offset size used : Nat}
    {edited original : TableSite} (h : Matches offset size edited original)
    (hsource : original.closing = some (offset + used)) :
    edited.closing = some (size + used) := by
  obtain ⟨closing, hclosing, _, heq⟩ := h.exists_of_le hsource (by omega)
  rw [hclosing]
  congr 1
  omega

/-- A site that is closed up to a bound stays when text is put in behind it. -/
theorem moved_eq_self {site : TableSite} {bound size : Nat}
    (hopening : site.opening ≤ bound)
    (hclosing : ∀ closing, site.closing = some closing → closing ≤ bound) :
    site.moved (past bound size) = site := by
  obtain ⟨name, opening, closing⟩ := site
  cases closing with
  | none => simp [TableSite.moved, past_of_le hopening]
  | some closing =>
      simp [TableSite.moved, past_of_le hopening,
        past_of_le (hclosing closing rfl)]

theorem le_of_past_le {bound size offset : Nat}
    (h : past bound size offset ≤ bound) : offset ≤ bound := by
  by_contra hnot
  rw [past_of_lt (Nat.lt_of_not_le hnot)] at h
  omega

/-- The sites of a text whose first ones are closed up to a bracket, where one is
closed, when what stands behind the bracket is replaced: the first ones stay, and the
later ones move. -/
theorem sites_cut {dialect : Dialect} {front options inner remaining : Text}
    {done others : List TableSite} {first : TableSite}
    (hcode : (dialect.lexis.run .code front).inCode = true)
    (hoptions : dialect.lexis.Unnoticed options remaining)
    (hinner : dialect.lexis.Unnoticed inner remaining)
    (hall : TableSite.all dialect.lexis (front ++ ')' :: (options ++ remaining)) =
      done ++ first :: others)
    (hfirst : first.closing = some (byteLength front))
    (hdone : ∀ site ∈ done, ∀ closing, site.closing = some closing →
      closing ≤ byteLength front) :
    ∃ later, others = later.map
        (TableSite.moved (past (byteLength front) (byteLength options))) ∧
      TableSite.all dialect.lexis (front ++ ')' :: remaining) =
        done ++ first :: later ∧
      TableSite.all dialect.lexis (front ++ ')' :: (inner ++ remaining)) =
        done ++ first :: later.map
          (TableSite.moved (past (byteLength front) (byteLength inner))) := by
  -- The first sites open in front of the one that the bracket closes.
  have hascending := TableSite.ascending_all dialect.lexis
    (front ++ ')' :: (options ++ remaining))
  have hmem : first ∈ TableSite.all dialect.lexis
      (front ++ ')' :: (options ++ remaining)) := by
    rw [hall]
    simp
  have hpair := TableSite.closing?_of_mem hmem
  rw [hfirst] at hpair
  have hopen := Dialect.lt_of_closing? hpair
  rw [hall] at hascending
  have hstays : ∀ site ∈ done ++ [first], site.opening ≤ byteLength front ∧
      ∀ closing, site.closing = some closing → closing ≤ byteLength front := by
    intro site hsite
    rcases List.mem_append.mp hsite with hsite | hsite
    · have hlt := (List.pairwise_append.mp hascending).2.2 site hsite first
        List.mem_cons_self
      exact ⟨by omega, hdone site hsite⟩
    · rw [List.mem_singleton.mp hsite]
      refine ⟨Nat.le_of_lt hopen, fun closing hclosing => ?_⟩
      exact Nat.le_of_eq (Option.some.inj (hclosing.symm.trans hfirst))
  have hshape : ∀ tail : List TableSite,
      done ++ first :: tail = (done ++ [first]) ++ tail := by simp
  rw [TableSite.all_insert hcode hoptions, hshape] at hall
  obtain ⟨before, later, hplain, hbefore, hlater⟩ := List.map_eq_append_iff.mp hall
  have hkept : ∀ size, before.map (TableSite.moved (past (byteLength front) size)) =
      before := by
    intro size
    refine (List.map_congr_left fun site hsite => ?_).trans (List.map_id _)
    obtain ⟨hopening, hclosing⟩ := hstays _ (hbefore ▸ List.mem_map_of_mem hsite)
    refine moved_eq_self (le_of_past_le hopening) fun closing hsome => ?_
    exact le_of_past_le (hclosing _ (by rw [TableSite.moved, hsome]; rfl))
  rw [hkept] at hbefore
  refine ⟨later, hlater.symm, by rw [hplain, hbefore, ← hshape], ?_⟩
  rw [TableSite.all_insert hcode hinner, hplain, List.map_append, hkept, hbefore,
    ← hshape]

/-- What holds between two cuts: the text is edited up to a place and left as it was
from there on.  Of its sites the first are closed in the edited part, or never, and
the others match those that are still to be ended. -/
structure Editing (dialect : Dialect) (offset : Nat) (pre text : Text)
    (todo : List TableSite) : Prop where
  sites : ∃ done edited,
    TableSite.all dialect.lexis (pre ++ text) = done ++ edited ∧
      (∀ site ∈ done, ∀ closing, site.closing = some closing →
        closing < byteLength pre) ∧
      List.Forall₂ (Matches offset (byteLength pre)) edited todo

section editing

variable {dialect : Dialect} {offset closing : Nat} {pre text used : Text}
  {site : TableSite} {rest : List TableSite}

/-- Nothing is edited yet, and the first sites are passed. -/
theorem editing_of_passed {done todo : List TableSite}
    (hall : TableSite.all dialect.lexis (pre ++ text) = done ++ todo)
    (hdone : ∀ site ∈ done, ∀ closing, site.closing = some closing →
      closing < byteLength pre) :
    Editing dialect (byteLength pre) pre text todo where
  sites := by
    refine ⟨done, todo, hall, hdone, List.forall₂_same.mpr ?_⟩
    intro site _
    cases hclosing : site.closing with
    | none =>
        rw [Matches, hclosing]
        exact .none
    | some closing =>
        rw [Matches, hclosing]
        exact .some (by omega)

theorem editing_start (dialect : Dialect) (text : Text) :
    Editing dialect 0 [] text (TableSite.all dialect.lexis text) := by
  have hall : TableSite.all dialect.lexis ([] ++ text) =
      [] ++ TableSite.all dialect.lexis text := rfl
  exact editing_of_passed hall (by simp)

/-- A site at which nothing is done. -/
theorem Editing.skip (h : Editing dialect offset pre text (site :: rest))
    (hsite : ∀ closing, site.closing = some closing → closing < offset) :
    Editing dialect offset pre text rest where
  sites := by
    obtain ⟨done, edited, hall, hdone, hmatch⟩ := h.sites
    cases hmatch with
    | @cons first _ others _ hfirst hothers =>
        refine ⟨done ++ [first], others, by rw [hall]; simp, ?_, hothers⟩
        intro other hother closing hclosing
        rcases List.mem_append.mp hother with hother | hother
        · exact hdone other hother closing hclosing
        · obtain rfl := List.mem_singleton.mp hother
          exact hfirst.lt_of_lt hsite hclosing

/-- At any other site stands a closing bracket of code. -/
theorem Editing.exists_bracket
    (h : Editing dialect offset pre text (site :: rest))
    (hclosing : site.closing = some closing) (hle : offset ≤ closing) :
    ∃ used back, text = used ++ ')' :: back ∧
      closing + 1 = offset + byteLength (used ++ [')']) ∧
      (dialect.lexis.run .code (pre ++ used)).inCode = true := by
  obtain ⟨done, edited, hall, _, hmatch⟩ := h.sites
  cases hmatch with
  | @cons first _ others _ hfirst _ =>
      obtain ⟨place, hplace, hsize, heq⟩ :=
        hfirst.exists_of_le hclosing hle
      have hmem : first ∈ TableSite.all dialect.lexis (pre ++ text) := by
        rw [hall]
        simp
      have hpair := TableSite.closing?_of_mem hmem
      rw [hplace] at hpair
      have hbracket := (Dialect.closing?_eq_some_iff.mp hpair).2.1.1
      rw [← Dialect.brackets_eq_structural] at hbracket
      obtain ⟨left, right, hsplit⟩ := List.append_of_mem hbracket
      obtain ⟨front, back, htext, hfront, hcode, _⟩ :=
        Lexis.exists_of_ofGlyphs_eq hsplit
      obtain ⟨used, rfl, rfl⟩ := exists_of_byteLength_le htext (by omega)
      refine ⟨used, back, rfl, ?_, hcode⟩
      rw [byteLength_append] at hfront ⊢
      change closing + 1 = offset + (byteLength used + 1)
      omega

/-- What ending the definition at the first of some sites does: the text is used up
to the bracket that closes it, and the options behind the bracket are cut. -/
structure Ends (dialect : Dialect) (offset : Nat) (pre text : Text)
    (site : TableSite) (rest : List TableSite) (used options remaining : Text) :
    Prop where
  split : text = used ++ ')' :: (options ++ remaining)
  closing : site.closing = some (offset + byteLength used)
  code : (dialect.lexis.run .code (pre ++ used)).inCode = true
  dropped : ∀ lexis, TableOption.Dropped lexis options remaining
  left : remaining = TableOption.afterAll (options ++ remaining)
  terminated : terminateSites offset text (site :: rest) =
    used ++ ')' :: (ending remaining ++
      terminateSites (offset + byteLength used + 1 + byteLength options)
        remaining rest)
  cuts : cutsAt offset text (site :: rest) = ⟨options, remaining⟩ ::
    cutsAt (offset + byteLength used + 1 + byteLength options) remaining rest

/-- A site is passed, or its definition is ended. -/
theorem Editing.skip_or_ends
    (h : Editing dialect offset pre text (site :: rest)) :
    ((∀ closing, site.closing = some closing → closing < offset) ∧
        terminateSites offset text (site :: rest) =
          terminateSites offset text rest ∧
        cutsAt offset text (site :: rest) = cutsAt offset text rest) ∨
      ∃ used options remaining,
        Ends dialect offset pre text site rest used options remaining := by
  by_cases hpassed : ∀ closing, site.closing = some closing → closing < offset
  · exact Or.inl ⟨hpassed, terminateSites_skip rest text hpassed⟩
  · obtain ⟨closing, hclosing, hle⟩ : ∃ closing,
        site.closing = some closing ∧ offset ≤ closing := by
      simpa using hpassed
    obtain ⟨used, back, rfl, hlength, hcode⟩ := h.exists_bracket hclosing hle
    obtain ⟨options, hback, _⟩ := TableOption.afterAll_split dialect.lexis back
    have hplace : closing = offset + byteLength used := by
      rw [byteLength_append] at hlength
      change closing + 1 = offset + (byteLength used + 1) at hlength
      omega
    obtain ⟨hterminated, hcuts⟩ := terminateSites_cut rest hclosing hlength hback
    rw [hplace] at hclosing hterminated hcuts
    refine Or.inr ⟨used, options, TableOption.afterAll back, ?_, hclosing, hcode,
      fun lexis => ?_, ?_, hterminated, hcuts⟩
    · rw [← hback]
    · obtain ⟨other, hother, hdropped⟩ := TableOption.afterAll_split lexis back
      rwa [List.append_cancel_right (hback.symm.trans hother)]
    · rw [← hback]

/-- The sites around a cut in a text that is edited up to a size: some that were
passed or are never closed, the one whose definition is ended, and the later ones,
which move with the text behind the cut. -/
structure AtCut (dialect : Dialect) (offset size : Nat)
    (front options inner remaining : Text) (rest done : List TableSite)
    (first : TableSite) (later : List TableSite) : Prop where
  closed : first.closing = some (byteLength front)
  passed : ∀ site ∈ done, ∀ closing, site.closing = some closing → closing < size
  before : TableSite.all dialect.lexis (front ++ ')' :: (options ++ remaining)) =
    done ++ first :: later.map
      (TableSite.moved (past (byteLength front) (byteLength options)))
  plain : TableSite.all dialect.lexis (front ++ ')' :: remaining) =
    done ++ first :: later
  behind : TableSite.all dialect.lexis (front ++ ')' :: (inner ++ remaining)) =
    done ++ first :: later.map
      (TableSite.moved (past (byteLength front) (byteLength inner)))
  following : List.Forall₂ (fun edited original => Matches offset size
    (edited.moved (past (byteLength front) (byteLength options))) original) later rest

section cut

variable {options inner remaining : Text}
  (h : Editing dialect offset pre (used ++ ')' :: (options ++ remaining))
    (site :: rest))
  (hclosing : site.closing = some (offset + byteLength used))
  (hcode : (dialect.lexis.run .code (pre ++ used)).inCode = true)
  (hoptions : dialect.lexis.Unnoticed options remaining)
  (hinner : dialect.lexis.Unnoticed inner remaining)
include h hclosing hcode hoptions hinner

theorem Editing.exists_atCut :
    ∃ done first later, AtCut dialect offset (byteLength pre) (pre ++ used) options
      inner remaining rest done first later := by
  obtain ⟨done, edited, hall, hdone, hmatch⟩ := h.sites
  rw [← List.append_assoc] at hall
  cases hmatch with
  | @cons first _ others _ hfirst hothers =>
      have hfirstClosing : first.closing = some (byteLength (pre ++ used)) := by
        rw [byteLength_append]
        exact hfirst.closing_eq hclosing
      have hbefore : ∀ other ∈ done, ∀ stop,
          other.closing = some stop → stop ≤ byteLength (pre ++ used) := by
        intro other hother stop hstop
        have hlt := hdone other hother stop hstop
        rw [byteLength_append]
        omega
      obtain ⟨later, rfl, hplain, hedited⟩ :=
        sites_cut hcode hoptions hinner hall hfirstClosing hbefore
      exact ⟨done, first, later, hfirstClosing, hdone, hall, hplain, hedited,
        List.forall₂_map_left_iff.mp hothers⟩

/-- After a cut the next part of the text is edited, and the same tables are
defined. -/
theorem Editing.cut :
    Editing dialect (offset + byteLength used + 1 + byteLength options)
        (pre ++ (used ++ ')' :: inner)) remaining rest ∧
      TableSite.defined dialect (pre ++ (used ++ ')' :: inner) ++ remaining) =
        TableSite.defined dialect
          (pre ++ (used ++ ')' :: (options ++ remaining))) := by
  obtain ⟨done, first, later, hcut⟩ :=
    h.exists_atCut hclosing hcode hoptions hinner
  have hshape : ∀ more, pre ++ (used ++ ')' :: more) =
      (pre ++ used) ++ ')' :: more := by simp
  have hshape' : pre ++ (used ++ ')' :: inner) ++ remaining =
      (pre ++ used) ++ ')' :: (inner ++ remaining) := by simp
  have hpre : byteLength (pre ++ (used ++ ')' :: inner)) =
      byteLength (pre ++ used) + 1 + byteLength inner := by
    simp only [byteLength_append, byteLength_cons, utf8Size_signs.2.2.2.1]
    omega
  have hbound : byteLength (pre ++ used) = byteLength pre + byteLength used :=
    byteLength_append pre used
  have hbefore : ∀ other ∈ done, ∀ stop,
      other.closing = some stop → stop ≤ byteLength (pre ++ used) := by
    intro other hother stop hstop
    have hlt := hcut.passed other hother stop hstop
    omega
  have hspan := TableSite.closed_or_behind hcut.plain hcut.closed hbefore
  constructor
  · refine ⟨done ++ [first], later.map (TableSite.moved
      (past (byteLength (pre ++ used)) (byteLength inner))), ?_, ?_, ?_⟩
    · rw [hshape', hcut.behind]
      simp
    · intro other hother stop hstop
      have hle : stop ≤ byteLength (pre ++ used) := by
        rcases List.mem_append.mp hother with hmem | hmem
        · exact hbefore other hmem stop hstop
        · rw [List.mem_singleton.mp hmem, hcut.closed] at hstop
          exact Nat.le_of_eq (Option.some.inj hstop).symm
      rw [hpre]
      omega
    · rw [List.forall₂_map_left_iff, hpre]
      exact hcut.following.imp fun _ _ hrel => hrel.insert (by omega) (by omega)
  · rw [hshape', hshape, TableSite.defined_insert hcode hinner hspan,
      TableSite.defined_insert hcode hoptions hspan]

end cut

/-- Ending the definitions at the sites that are left defines the same tables. -/
theorem Editing.defined_terminateSites {todo : List TableSite}
    (h : Editing dialect offset pre text todo)
    (hcuts : ∀ cut ∈ cutsAt offset text todo, cut.Harmless dialect) :
    TableSite.defined dialect (pre ++ terminateSites offset text todo) =
      TableSite.defined dialect (pre ++ text) := by
  induction todo generalizing offset pre text with
  | nil => rfl
  | cons site rest ih =>
      rcases h.skip_or_ends with
        ⟨hpassed, hterminated, hsame⟩ | ⟨used, options, remaining, hends⟩
      · rw [hsame] at hcuts
        rw [hterminated]
        exact ih (h.skip hpassed) hcuts
      · obtain rfl := hends.split
        rw [hends.cuts] at hcuts
        have hoptions := (hcuts _ List.mem_cons_self).unnoticed
          (hends.dropped dialect.lexis)
        obtain ⟨hnext, hdefined⟩ := h.cut hends.closing hends.code hoptions
          (unnoticed_ending dialect.lexis remaining)
        have hrest := ih hnext fun cut hmem =>
          hcuts cut (List.mem_cons_of_mem _ hmem)
        rw [hends.terminated, ← hdefined, ← hrest]
        simp only [List.append_assoc, List.cons_append]

end editing

/-- Ending the table definitions of a text leaves its schema as it is, when every
cut takes nothing but options. -/
theorem terminateTables_schema (dialect : Dialect) (text : Text)
    (h : ∀ cut ∈ cuts dialect text, cut.Harmless dialect) :
    (Extraction.ofText dialect (terminateTables dialect text)).schema =
      (Extraction.ofText dialect text).schema := by
  have hdefined := (editing_start dialect text).defined_terminateSites h
  rw [List.nil_append, List.nil_append] at hdefined
  rw [Extraction.ofText_schema, Extraction.ofText_schema, terminateTables,
    hdefined]

/-- A header that crosses from options begins at one of their characters. -/
theorem not_crosses_of_tails {options rest : Text}
    (h : ∀ phrase ∈ options.tails, phrase ≠ [] →
      Header.read? (phrase ++ rest) = none) :
    ¬ Header.Crosses options rest := by
  rintro ⟨front, phrase, _, name, body, hsplit, hne, _, _, hread⟩
  rw [h phrase ((List.mem_tails _ _).mpr ⟨front, hsplit.symm⟩) hne] at hread
  contradiction

/-- Options with an escaped quote, a bracket and a semicolon in their literal. -/
theorem terminateTables_schema_escaped :
    let text := "CREATE TABLE a (i INT) COMMENT='\\'(;'\nCREATE TABLE b (i INT)".toList
    (∀ cut ∈ cuts .mysql text, cut.Harmless .mysql) ∧
      (Extraction.ofText .mysql (terminateTables .mysql text)).schema =
        (Extraction.ofText .mysql text).schema := by
  intro text
  have hcuts : cuts .mysql text =
      [⟨" COMMENT='\\'(;'".toList, "\nCREATE TABLE b (i INT)".toList⟩, ⟨[], []⟩] := by
    decide +kernel
  have hharmless : ∀ cut ∈ cuts .mysql text, cut.Harmless .mysql := by
    rw [hcuts]
    intro cut hcut
    refine ⟨Or.inl (Or.inl rfl), not_crosses_of_tails ?_⟩
    revert cut
    decide +kernel
  exact ⟨hharmless, terminateTables_schema .mysql text hharmless⟩

/-- Tables are lost where the word `CREATE` is taken for the value of an option, and
where a literal ends for the dialect at a quote that the reader of options takes for
an escaped one. -/
theorem terminateTables_schema_ne :
    let word := "CREATE TABLE a (i INT) ENGINE=CREATE TABLE b (i INT);".toList
    let literal := "CREATE TABLE a (i INT) COMMENT='\\';".toList ++
      "CREATE TABLE b (i INT DEFAULT '1');".toList
    (Extraction.ofText .mysql (terminateTables .mysql word)).schema ≠
        (Extraction.ofText .mysql word).schema ∧
      (Extraction.ofText .postgres (terminateTables .postgres literal)).schema ≠
        (Extraction.ofText .postgres literal).schema := by
  constructor <;> decide +kernel

end CleanText

end DdlDiagram
