/-
Cleaning a text twice.  A clean text has no name quotes outside literals, and every
definition of it that is closed outside the bodies of others is followed by a
semicolon.  Such a text is left as it is; so cleaning once is enough wherever what it
drops is options, as the dialect and the reader of quotes read them too.
-/
import DdlDiagram.Proofs.Unquoting

namespace DdlDiagram

open Text

/-- A site that is closed in the body of another one. -/
def TableSite.Inside (site other : TableSite) : Prop :=
  ∃ closing stop, site.closing = some closing ∧ other.closing = some stop ∧
    other.opening < site.opening ∧ closing < stop

namespace CleanText

variable {dialect : Dialect} {offset size : Nat} {front pre text used : Text}
  {site : TableSite} {rest : List TableSite}

/-- Whether a text goes on with a semicolon is decided by its first character that is
not blank. -/
theorem isTerminated_append_bracket (left right other : Text) :
    isTerminated (left ++ ')' :: right) = isTerminated (left ++ ')' :: other) := by
  simp only [isTerminated, trimStart]
  induction left with
  | nil => rfl
  | cons c rest ih =>
      rw [List.cons_append, List.cons_append, List.dropWhile_cons,
        List.dropWhile_cons]
      split
      · exact ih
      · rfl

/-- Nothing is dropped in front of a semicolon. -/
theorem afterAll_eq_self (h : isTerminated text = true) :
    TableOption.afterAll text = text := by
  have hnone : TableOption.after? text = none := by
    obtain ⟨rest, hrest⟩ : ∃ rest, trimStart text = ';' :: rest := by
      rw [isTerminated, beq_iff_eq, List.head?_eq_some_iff] at h
      exact h
    have hsame : TableOption.after? text = TableOption.after? (';' :: rest) := by
      rw [TableOption.after?, TableOption.after?, hrest, trimStart_of_solid (by decide)]
    rw [hsame, after?_semicolon]
  rw [TableOption.afterAll]
  split
  · rfl
  · next behind hsome =>
      rw [hnone] at hsome
      contradiction

/-- A semicolon follows where a definition is ended. -/
theorem isTerminated_ending (rest : Text) :
    isTerminated (ending rest ++ rest) = true := by
  rw [ending]
  split
  · next h => exact h
  · rfl

/-- Every definition that is closed in front of a place is followed by a semicolon or
stands inside another one. -/
def Ended (dialect : Dialect) (size : Nat) (text : Text) : Prop :=
  ∀ site ∈ TableSite.all dialect.lexis text, ∀ closing,
    site.closing = some closing → closing < size →
      isTerminated (dropBytes (closing + 1) text) = true ∨
        ∃ other ∈ TableSite.all dialect.lexis text, site.Inside other

theorem ended_zero (dialect : Dialect) (text : Text) : Ended dialect 0 text :=
  fun _ _ closing _ hlt => absurd hlt (Nat.not_lt_zero closing)

/-- When one more definition is ended, the definitions up to it are. -/
theorem Ended.cut {options inner remaining : Text} {done later : List TableSite}
    {first : TableSite}
    (h : Ended dialect size (front ++ ')' :: (options ++ remaining)))
    (hsize : size ≤ byteLength front)
    (hcut : AtCut dialect offset size front options inner remaining rest done first
      later)
    (hterminated : isTerminated (inner ++ remaining) = true) :
    Ended dialect (byteLength front + 1 + byteLength inner)
      (front ++ ')' :: (inner ++ remaining)) := by
  intro site hsite closing hclosing hlt
  have hpair := TableSite.closing?_of_mem hsite
  rw [hclosing] at hpair
  have hmem : first ∈ TableSite.all dialect.lexis
      (front ++ ')' :: (inner ++ remaining)) := by
    rw [hcut.behind]
    simp
  have hpairFirst := TableSite.closing?_of_mem hmem
  rw [hcut.closed] at hpairFirst
  have hascending := TableSite.ascending_all dialect.lexis
    (front ++ ')' :: (inner ++ remaining))
  rw [hcut.behind] at hsite hascending
  have hbehind := (List.pairwise_append.mp hascending).2.2
  rcases List.mem_append.mp hsite with hdone | hsite
  · -- It was ended already, or stands inside one that stands in front of it.
    have hpassed := hcut.passed site hdone closing hclosing
    have hold : ∀ other ∈ done, other ∈ TableSite.all dialect.lexis
        (front ++ ')' :: (options ++ remaining)) := by
      intro other hother
      rw [hcut.before]
      exact List.mem_append_left _ hother
    rcases h site (hold site hdone) closing hclosing hpassed with
      hended | ⟨other, hother, hinside⟩
    · left
      rw [dropBytes_append_of_le (by omega)] at hended ⊢
      rw [isTerminated_append_bracket, hended]
    · right
      refine ⟨other, ?_, hinside⟩
      obtain ⟨_, _, _, _, hopening, _⟩ := hinside
      have hlater := TableSite.ascending_all dialect.lexis
        (front ++ ')' :: (options ++ remaining))
      rw [hcut.before] at hother hlater
      rcases List.mem_append.mp hother with hother | hother
      · rw [hcut.behind]
        exact List.mem_append_left _ hother
      · have := (List.pairwise_append.mp hlater).2.2 site hdone other hother
        omega
  · rcases List.mem_cons.mp hsite with rfl | hlater
    · left
      have hplace : closing + 1 = byteLength (front ++ [')']) := by
        rw [byteLength_append]
        exact congrArg (· + 1) (Option.some.inj (hclosing.symm.trans hcut.closed))
      rw [List.append_cons front, hplace, dropBytes_append, hterminated]
    · -- It is closed in front of the cut, so the site that is ended holds it.
      right
      have hopening : first.opening < site.opening :=
        (List.pairwise_cons.mp (List.pairwise_append.mp hascending).2.1).1 site hlater
      have hne : closing ≠ byteLength front := by
        rintro rfl
        exact absurd (Dialect.closing?_injective hpairFirst hpair)
          (Nat.ne_of_lt hopening)
      have hle : closing ≤ byteLength front := by
        obtain ⟨other, _, rfl⟩ := List.mem_map.mp hlater
        obtain ⟨place, _, rfl⟩ := Option.map_eq_some_iff.mp hclosing
        by_contra hnot
        by_cases hplace : place ≤ byteLength front
        · rw [past_of_le hplace] at hnot
          contradiction
        · rw [past_of_lt (by omega)] at hlt
          omega
      exact ⟨first, hmem, closing, _, hclosing, hcut.closed, hopening, by omega⟩

/-- When the definitions at the sites that are left are ended, all are. -/
theorem Editing.ended_terminateSites {todo : List TableSite}
    (h : Editing dialect offset pre text todo)
    (hcuts : ∀ cut ∈ cutsAt offset text todo, cut.Harmless dialect)
    (hended : Ended dialect (byteLength pre) (pre ++ text)) (size : Nat) :
    Ended dialect size (pre ++ terminateSites offset text todo) := by
  induction todo generalizing offset pre text with
  | nil =>
      obtain ⟨done, edited, hall, hdone, hmatch⟩ := h.sites
      obtain rfl := List.forall₂_nil_right_iff.mp hmatch
      intro site hsite closing hclosing _
      rw [List.append_nil] at hall
      exact hended site hsite closing hclosing
        (hdone site (hall ▸ hsite) closing hclosing)
  | cons site rest ih =>
      rcases h.skip_or_ends with
        ⟨hpassed, hterminated, hsame⟩ | ⟨used, options, remaining, hends⟩
      · rw [hsame] at hcuts
        rw [hterminated]
        exact ih (h.skip hpassed) hcuts hended
      · obtain rfl := hends.split
        rw [hends.cuts] at hcuts
        have hoptions := (hcuts _ List.mem_cons_self).unnoticed
          (hends.dropped dialect.lexis)
        have hinner := unnoticed_ending dialect.lexis remaining
        have hnext := (h.cut hends.closing hends.code hoptions hinner).1
        obtain ⟨done, first, later, hcut⟩ :=
          h.exists_atCut hends.closing hends.code hoptions hinner
        rw [← List.append_assoc] at hended
        have hnow := hended.cut (by simp) hcut (isTerminated_ending remaining)
        have hpre : byteLength (pre ++ used) + 1 + byteLength (ending remaining) =
            byteLength (pre ++ (used ++ ')' :: ending remaining)) := by
          simp only [byteLength_append, byteLength_cons, utf8Size_signs.2.2.2.1]
          omega
        rw [hpre] at hnow
        have hrest := ih hnext (fun cut hmem => hcuts cut (List.mem_cons_of_mem _ hmem))
          (by simpa only [List.append_assoc, List.cons_append] using hnow)
        rw [hends.terminated]
        simpa only [List.append_assoc, List.cons_append] using hrest

section ended

variable {todo done : List TableSite}
  (h : ∀ size, Ended dialect size (front ++ text))
  (hdone : ∀ site ∈ done, ∀ closing, site.closing = some closing →
    closing < byteLength front)
include h hdone

/-- Where every definition is ended a semicolon follows the next one.  A site around
it would have been passed, and it with that site. -/
theorem isTerminated_of_ended {options remaining : Text}
    (hall : TableSite.all dialect.lexis (front ++ text) = done ++ site :: rest)
    (hends : Ends dialect (byteLength front) front text site rest used options
      remaining) :
    isTerminated (options ++ remaining) = true := by
  obtain rfl := hends.split
  have hmem : site ∈ TableSite.all dialect.lexis
      (front ++ (used ++ ')' :: (options ++ remaining))) := by
    rw [hall]
    simp
  rcases h _ site hmem _ hends.closing (Nat.lt_succ_self _) with
    hended | ⟨other, hother, closing, stop, hclosing, hstop, hopening, hlt⟩
  · have hshape : front ++ (used ++ ')' :: (options ++ remaining)) =
        (front ++ used ++ [')']) ++ (options ++ remaining) := by simp
    have hplace : byteLength front + byteLength used + 1 =
        byteLength (front ++ used ++ [')']) := by
      rw [byteLength_append, byteLength_append]
      rfl
    rwa [hshape, hplace, dropBytes_append] at hended
  · have hascending := TableSite.ascending_all dialect.lexis
      (front ++ (used ++ ')' :: (options ++ remaining)))
    rw [hall] at hother hascending
    obtain ⟨_, hbehind, _⟩ := List.pairwise_append.mp hascending
    have hpassed : other ∈ done := by
      rcases List.mem_append.mp hother with hother | hother
      · exact hother
      · rcases List.mem_cons.mp hother with rfl | hother
        · omega
        · have := (List.pairwise_cons.mp hbehind).1 other hother
          omega
    have hbefore := hdone other hpassed stop hstop
    obtain rfl := Option.some.inj (hends.closing.symm.trans hclosing)
    omega

/-- A text in which every definition is ended stays as it is. -/
theorem terminateSites_eq_self
    (hall : TableSite.all dialect.lexis (front ++ text) = done ++ todo) :
    terminateSites (byteLength front) text todo = text := by
  induction todo generalizing front text done with
  | nil => rfl
  | cons site rest ih =>
      have hnext : TableSite.all dialect.lexis (front ++ text) =
          (done ++ [site]) ++ rest := by
        rw [hall, List.append_assoc, List.singleton_append]
      rcases (editing_of_passed hall hdone).skip_or_ends with
        ⟨hpassed, hterminated, _⟩ | ⟨used, options, remaining, hends⟩
      · rw [hterminated]
        refine ih h (fun other hother => ?_) hnext
        rcases List.mem_append.mp hother with hother | hother
        · exact hdone other hother
        · exact List.mem_singleton.mp hother ▸ hpassed
      · have hended := isTerminated_of_ended h hdone hall hends
        have hleft := hends.left
        rw [afterAll_eq_self hended] at hleft
        obtain rfl : options = [] := by simpa using hleft
        have hplace : byteLength front + byteLength used + 1 =
            byteLength (front ++ used ++ [')']) := by
          rw [byteLength_append, byteLength_append]
          rfl
        have hshape : front ++ text = (front ++ used ++ [')']) ++ remaining := by
          rw [hends.split]
          simp
        rw [List.nil_append] at hended
        rw [hshape] at h hnext
        rw [hends.terminated, hends.split, hplace, byteLength_nil, Nat.add_zero,
          ending, if_pos hended, List.nil_append, List.nil_append]
        refine congrArg (used ++ ')' :: ·) (ih h (fun other hother stop hstop => ?_)
          hnext)
        rw [← hplace]
        rcases List.mem_append.mp hother with hother | hother
        · have := hdone other hother stop hstop
          omega
        · rw [List.mem_singleton.mp hother, hends.closing] at hstop
          have := Option.some.inj hstop
          omega

end ended

/-- A text without name quotes in which every definition is ended is clean. -/
theorem ofText_eq_self
    (hquotes : dialect.literalLexis.Unquoted dialect.nameQuotes .code text)
    (h : ∀ size, Ended dialect size text) : ofText dialect text = text := by
  rw [ofText, unquoteNames_eq_self hquotes, terminateTables]
  split
  · have hall : TableSite.all dialect.lexis ([] ++ text) =
        [] ++ TableSite.all dialect.lexis text := rfl
    exact terminateSites_eq_self h (by simp) hall
  · rfl

/-- A dialect that is not cleaned writes no quotes around names. -/
theorem unquoted_of_not_isCleaned (h : dialect.isCleaned = false) (text : Text) :
    dialect.literalLexis.Unquoted dialect.nameQuotes .code text := by
  have hnone : dialect.nameQuotes = [] := by simpa [Dialect.isCleaned] using h
  simp [Lexis.Unquoted, hnone]

/-- Cleaning a text twice is cleaning it once, when every cut takes nothing but
options and leaves the quotes as they are read: no name quote is left, and a
semicolon follows every definition that is closed outside the bodies of others. -/
theorem ofText_idempotent (dialect : Dialect) (text : Text)
    (h : dialect.isCleaned = true →
      ∀ cut ∈ cuts dialect (unquoteNames dialect text), cut.Harmless dialect ∧
        cut.KeepsQuotes dialect (unquoteNames dialect text)) :
    let cleaned := ofText dialect text
    ofText dialect cleaned = cleaned ∧
      unquoteNames dialect cleaned = cleaned ∧
      (dialect.isCleaned = true →
        ∀ site ∈ TableSite.all dialect.lexis cleaned, ∀ closing,
          site.closing = some closing →
            (∀ other ∈ TableSite.all dialect.lexis cleaned, ¬ site.Inside other) →
              isTerminated (dropBytes (closing + 1) cleaned) = true) := by
  intro cleaned
  cases hcleaned : dialect.isCleaned with
  | false =>
      have hsame : cleaned = text := by simp [cleaned, ofText, hcleaned]
      rw [hsame]
      refine ⟨?_, unquoteNames_eq_self (unquoted_of_not_isCleaned hcleaned text), ?_⟩
      · rw [← hsame]
        simp [cleaned, ofText, hcleaned]
      · intro hnot
        contradiction
  | true =>
      have hcuts := h hcleaned
      have hsame : cleaned = terminateTables dialect (unquoteNames dialect text) := by
        simp [cleaned, ofText, hcleaned]
      have hquotes : dialect.literalLexis.Unquoted dialect.nameQuotes .code cleaned := by
        rw [hsame]
        exact unquoted_terminateTables dialect _ hcuts
          (unquoted_unquoteNames dialect text)
      have hended : ∀ size, Ended dialect size cleaned := by
        intro size
        have hstart := editing_start dialect (unquoteNames dialect text)
        rw [hsame]
        exact hstart.ended_terminateSites (fun cut hcut => (hcuts cut hcut).1)
          (ended_zero dialect _) size
      refine ⟨ofText_eq_self hquotes hended, unquoteNames_eq_self hquotes, ?_⟩
      intro _ site hsite closing hclosing hfree
      rcases hended _ site hsite closing hclosing (Nat.lt_succ_self closing) with
        hterminated | ⟨other, hother, hinside⟩
      · exact hterminated
      · exact absurd hinside (hfree other hother)

/-- Quotes are kept when they are read on alike behind one place of the text. -/
theorem keepsQuotes_of_front (front : Text) {cut : Cut}
    (htext : text = front ++ (cut.options ++ cut.rest))
    (h : (dialect.literalLexis.run .code (front ++ cut.options)).settled =
      (dialect.literalLexis.run .code front).settled) :
    cut.KeepsQuotes dialect text := by
  intro _ other hother
  obtain rfl := List.append_cancel_right (htext.symm.trans hother)
  exact h

/-- A definition inside another one, an escaped quote in an option, and a comment
whose apostrophe turns what stands behind it into a literal for the reader of
quotes. -/
theorem ofText_idempotent_escaped :
    let text := "CREATE TABLE `a` (i INT, CREATE TABLE b (j INT)) COMMENT='\\'(;'".toList ++
      "\n-- it's\nCREATE TABLE c (k INT) ENGINE='x'".toList
    (∀ cut ∈ cuts .mysql (unquoteNames .mysql text), cut.Harmless .mysql ∧
        cut.KeepsQuotes .mysql (unquoteNames .mysql text)) ∧
      ofText .mysql (ofText .mysql text) = ofText .mysql text := by
  intro text
  have hcuts : cuts .mysql (unquoteNames .mysql text) =
      [⟨" COMMENT='\\'(;'".toList,
          "\n-- it's\nCREATE TABLE c (k INT) ENGINE='x'".toList⟩,
        ⟨" ENGINE='x'".toList, []⟩] := by
    decide +kernel
  have hall : ∀ cut ∈ cuts .mysql (unquoteNames .mysql text), cut.Harmless .mysql ∧
      cut.KeepsQuotes .mysql (unquoteNames .mysql text) := by
    have hcrosses : ∀ cut ∈ cuts .mysql (unquoteNames .mysql text),
        ¬ Header.Crosses cut.options cut.rest := by
      rw [hcuts]
      intro cut hcut
      apply not_crosses_of_tails
      revert cut
      decide +kernel
    intro cut hcut
    refine ⟨⟨Or.inl (Or.inl rfl), hcrosses cut hcut⟩, ?_⟩
    rw [hcuts] at hcut
    rcases List.mem_pair.mp hcut with rfl | rfl
    · apply keepsQuotes_of_front
        "CREATE TABLE a (i INT, CREATE TABLE b (j INT))".toList
      · decide +kernel
      · decide +kernel
    · intro hescape
      exact absurd hescape (by decide)
  exact ⟨hall, (ofText_idempotent .mysql text fun _ => hall).1⟩

/-- A second cleaning ends a definition that stood in the body of one whose header
was taken for an option, and takes quotes out of literals that an escape of a
dropped option leaves unbalanced, be it read as one by the options only or where an
apostrophe of a comment counts.  A dialect that is not cleaned gets no semicolons. -/
theorem ofText_not_idempotent :
    let word := "CREATE TABLE a (i INT) ENGINE=CREATE TABLE b (x INT, ".toList ++
      "CREATE TABLE c (y INT) ENGINE=z, w INT);".toList
    let literal := "CREATE TABLE a (i INT) COMMENT='\\' , 'x' , ".toList ++
      "DEFAULT '\"q\"');".toList
    let comment := "-- it's\nCREATE TABLE a (i INT) COMMENT='\\'x';\n".toList ++
      "CREATE TABLE b (j INT DEFAULT '`q`');".toList
    ofText .mysql (ofText .mysql word) ≠ ofText .mysql word ∧
      ofText .postgres (ofText .postgres literal) ≠ ofText .postgres literal ∧
      ofText .mysql (ofText .mysql comment) ≠ ofText .mysql comment ∧
      TableSite.all Dialect.generic.lexis "CREATE TABLE a (i INT)".toList =
        [⟨"a".toList, 15, some 21⟩] ∧
      ¬ isTerminated (dropBytes 22
        (ofText .generic "CREATE TABLE a (i INT)".toList)) = true := by
  decide +kernel

end CleanText

end DdlDiagram
