/-
Text put in behind a closing bracket.  When it reads as code and whole literals
without a bracket, no word of it runs on and no header begins in it that ends behind
it, then the sites of the text are as before, only moved; and when no body spans the
place, the same tables are defined.
-/
import DdlDiagram.Proofs.LiteralReading
import DdlDiagram.Proofs.OptionReading

namespace DdlDiagram

open Text
open Lexis (Outside)
open TableOption (Parted)

/-- The offset that comes of one when text of a size is put in behind a bound. -/
def past (bound size offset : Nat) : Nat :=
  if offset ≤ bound then offset else offset + size

theorem past_of_le {bound size offset : Nat} (h : offset ≤ bound) :
    past bound size offset = offset :=
  if_pos h

theorem past_of_lt {bound size offset : Nat} (h : bound < offset) :
    past bound size offset = offset + size :=
  if_neg (Nat.not_le_of_lt h)

theorem past_behind (bound size offset : Nat) :
    past bound size (bound + 1 + offset) = bound + 1 + size + offset := by
  rw [past_of_lt (by omega)]
  omega

theorem past_injective {bound size left right : Nat}
    (h : past bound size left = past bound size right) : left = right := by
  simp only [past] at h
  split_ifs at h <;> omega

/-- A header begins in the first text, where no word runs into it, and has its
bracket in the second. -/
def Header.Crosses (left right : Text) : Prop :=
  ∃ front phrase back name body, left = front ++ phrase ∧ phrase ≠ [] ∧
    front.getLast?.any isWordChar = false ∧ right = back ++ '(' :: body ∧
    read? (phrase ++ right) = some (name, body)

/-- Text that is not noticed in front of another one: neither its brackets, nor its
words, nor its headers change how the other text is read. -/
structure Lexis.Unnoticed (lexis : Lexis) (inner rest : Text) : Prop where
  bare : lexis.Bare inner
  parted : Parted inner rest
  not_crosses : ¬ Header.Crosses inner rest

namespace Header

/-- The search passes over text in which no useful header begins. -/
theorem Finds.filterMap_of_not_crosses {α : Type} (use : Header → Option α)
    {previous : Option Char} {offset : Nat} {text inner rest : Text}
    {found : List Header} (h : Finds previous offset text found)
    (htext : text = inner ++ rest)
    (huse : ∀ left right name, inner = left ++ '(' :: right →
      use ⟨name, offset + byteLength left⟩ = none)
    (hcross : ∀ front phrase back name body, inner = front ++ phrase →
      phrase ≠ [] → (front.getLast?.or previous).any isWordChar = false →
      rest = back ++ '(' :: body → read? (phrase ++ rest) ≠ some (name, body)) :
    found.filterMap use = (searchFrom (inner.getLast?.or previous)
      (offset + byteLength inner) 0 rest).filterMap use := by
  induction h generalizing inner with
  | done =>
      obtain ⟨rfl, rfl⟩ := List.append_eq_nil_iff.mp htext.symm
      rfl
  | @pass previous offset c tail found hnone later ih =>
      cases inner with
      | nil =>
          obtain rfl : rest = c :: tail := htext.symm
          rw [← (Finds.pass hnone later).eq_searchFrom]
          rfl
      | cons c' inner =>
          obtain ⟨rfl, rfl⟩ := List.cons.inj htext
          rw [getLast?_cons_or, byteLength_cons, ← Nat.add_assoc]
          refine ih rfl ?_ ?_
          · rintro left right name rfl
            rw [Nat.add_assoc]
            exact huse (c :: left) right name rfl
          · rintro front phrase back name body rfl hne hlast
            refine hcross (c :: front) phrase back name body rfl hne ?_
            rw [getLast?_cons_or]
            exact hlast
  | @found previous offset phrase name body found hprevious hphrase hne hread
      later ih =>
      rcases List.append_eq_append_iff.mp htext with
        ⟨middle, hinner, hmiddle⟩ | ⟨middle, hheader, hrest⟩
      · cases middle with
        | nil =>
            rw [List.append_nil] at hinner
            obtain rfl : rest = '(' :: body := hmiddle.symm
            exact absurd (hinner ▸ hread) (hcross [] inner [] name body rfl
              (hinner ▸ hne) hprevious rfl)
        | cons c middle =>
            obtain ⟨rfl, rfl⟩ := List.cons.inj hmiddle
            subst hinner
            rw [List.filterMap_cons_none (huse phrase middle name rfl),
              getLast?_append_cons_or, add_byteLength_bracket]
            refine ih rfl ?_ ?_
            · rintro left right name' rfl
              have hnone := huse (phrase ++ '(' :: left) right name' (by simp)
              rwa [add_byteLength_bracket] at hnone
            · rintro front other back name' body rfl hne' hlast
              refine hcross (phrase ++ '(' :: front) other back name' body
                (by simp) hne' ?_
              rw [getLast?_append_cons_or]
              exact hlast
      · cases inner with
        | nil =>
            obtain rfl : phrase = middle := hheader
            rw [hrest, ← (Finds.found hprevious hphrase hne hread
              later).eq_searchFrom]
            rfl
        | cons c inner =>
            rw [hheader, List.append_assoc, ← hrest] at hread
            exact absurd hread (hcross [] _ middle name body rfl (by simp)
              hprevious hrest)

/-- A header does not begin in the middle of a word. -/
theorem searchFrom_of_parted {inner rest : Text} {mark : Char}
    (h : Parted inner rest) (hmark : isWordChar mark = false) (offset : Nat) :
    searchFrom (inner.getLast?.or (some mark)) offset 0 rest =
      searchFrom none offset 0 rest := by
  rcases h with hlast | hhead
  · apply searchFrom_congr
    cases hinner : inner.getLast? with
    | none => simp [hmark]
    | some c => simpa [hinner] using hlast
  · cases rest with
    | nil => rfl
    | cons c rest =>
        have hnone : read? (c :: rest) = none := by
          apply opensWith_read?
          apply Phrase.afterSpacedKeyword?_of_ne
          intro hfold
          have hword : isWordChar c = true := isWordChar_of_foldCapital (by rw [hfold]; decide)
          rw [Option.any_some.symm.trans hhead] at hword
          contradiction
        rw [searchFrom_of_none fun _ => hnone, searchFrom_of_none fun _ => hnone]

end Header

/-- Headers up to a closing bracket stay, those behind it move. -/
theorem Header.map_moved_past (front rest : Text) (size : Nat) :
    all (front ++ [')']) ++
        (all rest).map (moved (byteLength front + 1 + size + ·)) =
      (all (front ++ [')']) ++
        (all rest).map (moved (byteLength front + 1 + ·))).map
          (moved (past (byteLength front) size)) := by
  have hkept : (all (front ++ [')'])).map (moved (past (byteLength front) size)) =
      all (front ++ [')']) := by
    refine (List.map_congr_left fun header hheader => ?_).trans (List.map_id _)
    have hlt := opening_lt_of_mem hheader
    rw [byteLength_append] at hlt
    rw [moved, past_of_le (Nat.le_of_lt_succ hlt)]
    rfl
  rw [List.map_append, List.map_map, hkept]
  congr 1
  apply List.map_congr_left
  intro header _
  simp only [Function.comp_apply, moved, past_behind]

theorem Lexis.unnoticed_nil (lexis : Lexis) (rest : Text) :
    lexis.Unnoticed [] rest where
  bare := bare_nil
  parted := Or.inl rfl
  not_crosses := by
    rintro ⟨front, phrase, _, _, _, hsplit, hne, _⟩
    exact hne (List.append_eq_nil_iff.mp hsplit.symm).2

/-- Where one site is closed by a bracket, and those in front of it at the latest
there, no body spans that bracket. -/
theorem TableSite.closed_or_behind {dialect : Dialect} {text : Text} {bound : Nat}
    {before later : List TableSite} {last : TableSite}
    (hall : all dialect.lexis text = before ++ last :: later)
    (hlast : last.closing = some bound)
    (hbefore : ∀ site ∈ before, ∀ closing, site.closing = some closing →
      closing ≤ bound) :
    ∀ site ∈ all dialect.lexis text, ∀ closing, site.closing = some closing →
      closing ≤ bound ∨ bound < site.opening := by
  intro site hsite closing hclosing
  have hpair := closing?_of_mem hsite
  have hmemLast : last ∈ all dialect.lexis text := by
    rw [hall]
    simp
  have hpairLast := closing?_of_mem hmemLast
  have hascending := ascending_all dialect.lexis text
  rw [hclosing] at hpair
  rw [hlast] at hpairLast
  rw [hall] at hsite hascending
  rcases List.mem_append.mp hsite with hfront | hmem
  · exact Or.inl (hbefore site hfront closing hclosing)
  · rcases List.mem_cons.mp hmem with rfl | hbehind
    · exact Or.inl (Nat.le_of_eq (Option.some.inj (hclosing.symm.trans hlast)))
    · have hlt := (List.pairwise_cons.mp
        (List.pairwise_append.mp hascending).2.1).1 site hbehind
      rcases Dialect.closing?_nested hpairLast hpair hlt with hapart | hinside
      · exact Or.inr hapart
      · exact Or.inl (Nat.le_of_lt hinside)

section insertion

variable {dialect : Dialect} {front inner rest : Text}

section behind

variable (hfront : (dialect.lexis.run .code front).inCode = true)
  (hinner : dialect.lexis.Unnoticed inner rest)
include hfront hinner

/-- The brackets of a text with a closing bracket of code and unnoticed text behind
it. -/
theorem Lexis.brackets_behind :
    dialect.lexis.brackets (front ++ ')' :: (inner ++ rest)) =
      dialect.lexis.brackets front ++ ⟨byteLength front, .closing⟩ ::
        (dialect.lexis.brackets rest).map
          (Bracket.moved (byteLength front + 1 + byteLength inner + ·)) := by
  have hrest := Bracket.ofGlyphs_add (byteLength front + 1 + byteLength inner) 0
    (dialect.lexis.trace .code rest)
  rw [Nat.add_zero] at hrest
  rw [brackets, trace_append, Bracket.ofGlyphs_append, map_char_trace,
    Nat.zero_add, trace_cons, step_eq_code hfront (Or.inr (Or.inl rfl)),
    Bracket.ofGlyphs_cons, trace_append, Bracket.ofGlyphs_append,
    map_char_trace, hinner.bare.ofGlyphs (Or.inl rfl),
    ofGlyphs_of_outside hinner.bare.outside, List.nil_append]
  rw [utf8Size_signs.2.2.2.1, hrest]
  simp [Bracket.ofGlyphs, Glyph.isCode, hfront, brackets]

/-- No header in unnoticed text is a site. -/
theorem TableSite.ofHeader?_inner {left right name : Text}
    (hsplit : inner = left ++ '(' :: right) :
    ofHeader? (dialect.lexis.bracketPairs (front ++ ')' :: (inner ++ rest)))
      ⟨name, byteLength front + 1 + byteLength left⟩ = none := by
  have hcode : (dialect.lexis.run .code left).inCode = false := by
    have hmem := Lexis.mem_brackets_iff dialect.lexis left right .opening
    rw [Side.char, ← hsplit, hinner.bare.brackets] at hmem
    rw [← Bool.not_eq_true, ← hmem]
    exact List.not_mem_nil
  have hshape : front ++ ')' :: (inner ++ rest) =
      (front ++ ')' :: left) ++ '(' :: (right ++ rest) := by
    rw [hsplit]
    simp
  have hlength : byteLength front + 1 + byteLength left =
      byteLength (front ++ ')' :: left) := by
    rw [byteLength_append, byteLength_cons, utf8Size_signs.2.2.2.1]
    omega
  rw [hshape, hlength]
  apply ofHeader?_eq_none
  rw [Lexis.run_append, Lexis.run_cons,
    Lexis.step_eq_code hfront (Or.inr (Or.inl rfl))]
  exact hcode

/-- The sites of a text with a closing bracket of code and unnoticed text behind it
are among the headers up to the bracket and those of the rest. -/
theorem TableSite.all_behind :
    all dialect.lexis (front ++ ')' :: (inner ++ rest)) =
      (Header.all (front ++ [')']) ++ (Header.all rest).map
        (Header.moved (byteLength front + 1 + byteLength inner + ·))).filterMap
          (ofHeader?
            (dialect.lexis.bracketPairs (front ++ ')' :: (inner ++ rest)))) := by
  have hstart : 0 + byteLength front + ')'.utf8Size = byteLength front + 1 := by
    rw [Nat.zero_add]
    rfl
  have hpass := (Header.finds_searchFrom (some ')') (byteLength front + 1)
    (inner ++ rest)).filterMap_of_not_crosses (ofHeader?
      (dialect.lexis.bracketPairs (front ++ ')' :: (inner ++ rest)))) rfl
        (fun left right name hsplit => ofHeader?_inner hfront hinner hsplit)
        (by
          rintro before phrase back name body hsplit hne hlast hrest hread
          refine hinner.not_crosses ⟨before, phrase, back, name, body, hsplit, hne,
            ?_, hrest, hread⟩
          cases hbefore : before.getLast? with
          | none => rfl
          | some c => simpa [hbefore] using hlast)
  have hadd := Header.searchFrom_add (byteLength front + 1 + byteLength inner) 0
    none rest
  rw [Header.searchFrom_of_parted hinner.parted (by decide)] at hpass
  rw [Nat.add_zero] at hadd
  rw [all, Header.all, Header.searchFrom_append_mark (by decide) (by decide),
    hstart, List.filterMap_append, hpass, hadd, List.filterMap_append]
  rfl

/-- Putting unnoticed text in behind a closing bracket of code moves the brackets
behind it. -/
theorem Lexis.brackets_insert :
    dialect.lexis.brackets (front ++ ')' :: (inner ++ rest)) =
      (dialect.lexis.brackets (front ++ ')' :: rest)).map
        (Bracket.moved (past (byteLength front) (byteLength inner))) := by
  have hkept : (dialect.lexis.brackets front).map
      (Bracket.moved (past (byteLength front) (byteLength inner))) =
        dialect.lexis.brackets front := by
    refine (List.map_congr_left fun bracket hbracket => ?_).trans (List.map_id _)
    rw [Bracket.moved, past_of_le]
    · rfl
    · exact Nat.le_of_lt (offset_lt_of_mem_brackets hbracket)
  have hplain := brackets_behind hfront (dialect.lexis.unnoticed_nil rest)
  rw [List.nil_append, byteLength_nil, Nat.add_zero] at hplain
  rw [brackets_behind hfront hinner, hplain, List.map_append, hkept,
    List.map_cons, List.map_map]
  congr 2
  · rw [Bracket.moved, past_of_le (Nat.le_refl _)]
  · apply List.map_congr_left
    intro bracket _
    simp only [Function.comp_apply, Bracket.moved, past_behind]

/-- Putting unnoticed text in behind a closing bracket of code moves the sites. -/
theorem TableSite.all_insert :
    all dialect.lexis (front ++ ')' :: (inner ++ rest)) =
      (all dialect.lexis (front ++ ')' :: rest)).map
        (moved (past (byteLength front) (byteLength inner))) := by
  have hplain := all_behind hfront (dialect.lexis.unnoticed_nil rest)
  rw [List.nil_append, byteLength_nil, Nat.add_zero] at hplain
  rw [all_behind hfront hinner, hplain, Header.map_moved_past,
    Lexis.bracketPairs, Lexis.brackets_insert hfront hinner,
    Bracket.pairUp_map, List.filterMap_map, List.map_filterMap]
  apply List.filterMap_congr
  intro header _
  exact ofHeader?_moved fun _ _ => past_injective

/-- Where no body spans the bracket, putting unnoticed text in behind it leaves the
tables that are defined as they are. -/
theorem TableSite.defined_insert
    (hspan : ∀ site ∈ all dialect.lexis (front ++ ')' :: rest), ∀ closing,
      site.closing = some closing →
        closing ≤ byteLength front ∨ byteLength front < site.opening) :
    defined dialect (front ++ ')' :: (inner ++ rest)) =
      defined dialect (front ++ ')' :: rest) := by
  rw [defined, all_insert hfront hinner]
  apply definitions_moved
  intro site hsite closing hclosing
  have hpair := closing?_of_mem hsite
  rw [hclosing] at hpair
  obtain ⟨before, inside, behind, hsplit, hopening, hlength, _⟩ :=
    Dialect.exists_pieces hpair
  rw [hopening] at hlength
  have hplain : body (front ++ ')' :: rest) site.opening closing = inside := by
    rw [hsplit, hopening, hlength, body_inside]
  rw [hplain]
  rcases hspan site hsite closing hclosing with hle | hlt
  · have hshape : (before ++ '(' :: inside) ++ ')' :: behind =
        front ++ ')' :: rest := by
      rw [hsplit]
      simp
    have hinside : byteLength (before ++ '(' :: inside) = closing := by
      rw [byteLength_append, byteLength_cons, utf8Size_signs.2.2.1, hlength]
      omega
    obtain ⟨middle, rfl, _⟩ := exists_of_byteLength_le hshape (by omega)
    rw [past_of_le hle, past_of_le (by omega), hopening, hlength,
      List.append_assoc, List.append_assoc, List.cons_append, body_inside]
  · have hshape : (front ++ [')']) ++ rest =
        before ++ '(' :: (inside ++ ')' :: behind) := by
      rw [← hsplit]
      simp
    have hbracket : byteLength (front ++ [')']) = byteLength front + 1 := by
      rw [byteLength_append]
      rfl
    obtain ⟨middle, rfl, rfl⟩ := exists_of_byteLength_le hshape (by omega)
    have hmoved : site.opening + byteLength inner =
        byteLength (front ++ ')' :: (inner ++ middle)) := by
      simp only [hopening, byteLength_append, byteLength_cons, byteLength_nil]
      omega
    have hend : closing + byteLength inner =
        byteLength (front ++ ')' :: (inner ++ middle)) + 1 +
          byteLength inside := by
      rw [← hmoved, hlength, hopening]
      omega
    have hshape' : front ++ ')' :: (inner ++
        (middle ++ '(' :: (inside ++ ')' :: behind))) =
        (front ++ ')' :: (inner ++ middle)) ++
          '(' :: (inside ++ ')' :: behind) := by simp
    rw [past_of_lt hlt, past_of_lt (by omega), hmoved, hend, hshape', body_inside]

end behind

end insertion

end DdlDiagram
