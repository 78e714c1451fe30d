/-
The bracket index as it is built from bytes, by one scan with a stack of open
brackets.  The scan passes the lexemes of the text one by one, and its index is that
of the reader of characters.
-/
import DdlDiagram.Proofs.ByteReading
import DdlDiagram.Proofs.Pairing

namespace DdlDiagram

open Text

namespace ByteIndex

/-- What a scan has found: the brackets that are open, the innermost one first, and
an entry for every opening bracket. -/
structure Scan where
  opened : List Nat
  pairs : List BracketPair
deriving DecidableEq, Repr

/-- The pair with its closing bracket, if it is the one to be closed. -/
def closed (opening closing : Nat) (pair : BracketPair) : BracketPair :=
  if pair.opening = opening then ⟨opening, some closing⟩ else pair

namespace Scan

def start : Scan := ⟨[], []⟩

/-- What an opening bracket adds. -/
def push (place : Nat) (scan : Scan) : Scan :=
  ⟨place :: scan.opened, scan.pairs ++ [⟨place, none⟩]⟩

/-- What a closing bracket adds; with nothing open it is passed over. -/
def pop (place : Nat) (scan : Scan) : Scan :=
  match scan.opened with
  | [] => scan
  | opening :: others => ⟨others, scan.pairs.map (closed opening place)⟩

/-- What a bracket adds. -/
def note (scan : Scan) (bracket : Bracket) : Scan :=
  match bracket.side with
  | .opening => scan.push bracket.offset
  | .closing => scan.pop bracket.offset

end Scan

section ends

variable (escapes : Bool) (bytes : List UInt8) (place : Nat)

theorem min_le_literalEnd :
    min place bytes.length ≤ literalEnd escapes bytes place := by
  fun_induction literalEnd escapes bytes place <;> omega

theorem min_le_lineEnd : min place bytes.length ≤ lineEnd bytes place := by
  fun_induction lineEnd bytes place <;> omega

theorem min_le_blockEnd : min place bytes.length ≤ blockEnd bytes place := by
  fun_induction blockEnd bytes place <;> omega

/-- A line goes on behind a byte that is not a newline. -/
theorem lt_lineEnd {bytes : List UInt8} {place : Nat} (h : place < bytes.length)
    (hne : holds bytes place '\n' = false) : place < lineEnd bytes place := by
  have hmin := min_le_lineEnd bytes (place + 1)
  rw [lineEnd, if_pos h, hne]
  simp only [Bool.false_eq_true, ↓reduceIte]
  omega

end ends

theorem holds_newline_of_dash {bytes : List UInt8} {place : Nat}
    (h : holds bytes place '-' = true) : holds bytes place '\n' = false := by
  simp only [holds, beq_iff_eq, beq_eq_false_iff_ne] at h ⊢
  rw [h]
  decide

/-- The scan from a place on. -/
def scanFrom (escapes : Bool) (bytes : List UInt8) (place : Nat) (scan : Scan) :
    Scan :=
  if _hplace : place < bytes.length then
    if holds bytes place '\'' then
      scanFrom escapes bytes (literalEnd escapes bytes (place + 1)) scan
    else if _hline : holds bytes place '-' && holds bytes (place + 1) '-' then
      scanFrom escapes bytes (lineEnd bytes place) scan
    else if holds bytes place '/' && holds bytes (place + 1) '*' then
      scanFrom escapes bytes (blockEnd bytes (place + 2)) scan
    else if holds bytes place '(' then
      scanFrom escapes bytes (place + 1) (scan.push place)
    else if holds bytes place ')' then
      scanFrom escapes bytes (place + 1) (scan.pop place)
    else scanFrom escapes bytes (place + 1) scan
  else scan
termination_by bytes.length - place
decreasing_by
  · have := min_le_literalEnd escapes bytes (place + 1)
    omega
  · have := lt_lineEnd _hplace
      (holds_newline_of_dash (Bool.and_eq_true_iff.mp _hline).1)
    omega
  · have := min_le_blockEnd bytes (place + 2)
    omega
  · omega
  · omega
  · omega

/-- The index of the brackets of some bytes. -/
def index (escapes : Bool) (bytes : List UInt8) : List BracketPair :=
  (scanFrom escapes bytes 0 Scan.start).pairs

/-- The brackets that the scan stops at from a place on. -/
def foundFrom (escapes : Bool) (bytes : List UInt8) (place : Nat) : List Bracket :=
  if _hplace : place < bytes.length then
    if holds bytes place '\'' then
      foundFrom escapes bytes (literalEnd escapes bytes (place + 1))
    else if _hline : holds bytes place '-' && holds bytes (place + 1) '-' then
      foundFrom escapes bytes (lineEnd bytes place)
    else if holds bytes place '/' && holds bytes (place + 1) '*' then
      foundFrom escapes bytes (blockEnd bytes (place + 2))
    else if holds bytes place '(' then
      ⟨place, .opening⟩ :: foundFrom escapes bytes (place + 1)
    else if holds bytes place ')' then
      ⟨place, .closing⟩ :: foundFrom escapes bytes (place + 1)
    else foundFrom escapes bytes (place + 1)
  else []
termination_by bytes.length - place
decreasing_by
  · have := min_le_literalEnd escapes bytes (place + 1)
    omega
  · have := lt_lineEnd _hplace
      (holds_newline_of_dash (Bool.and_eq_true_iff.mp _hline).1)
    omega
  · have := min_le_blockEnd bytes (place + 2)
    omega
  · omega
  · omega
  · omega

/-- The brackets that a scan of some bytes stops at. -/
def found (escapes : Bool) (bytes : List UInt8) : List Bracket :=
  foundFrom escapes bytes 0

/-- What a scan has found is what the brackets it stopped at make of it. -/
theorem scanFrom_eq_foldl (escapes : Bool) (bytes : List UInt8) (place : Nat) (scan : Scan) :
    scanFrom escapes bytes place scan =
      (foundFrom escapes bytes place).foldl Scan.note scan := by
  fun_induction scanFrom escapes bytes place scan with
  | case1 place scan hplace hquote ih => rw [foundFrom, dif_pos hplace, if_pos hquote, ih]
  | case2 place scan hplace hquote hline ih =>
      rw [foundFrom, dif_pos hplace, if_neg hquote, dif_pos hline, ih]
  | case3 place scan hplace hquote hline hblock ih =>
      rw [foundFrom, dif_pos hplace, if_neg hquote, dif_neg hline, if_pos hblock, ih]
  | case4 place scan hplace hquote hline hblock hopening ih =>
      rw [foundFrom, dif_pos hplace, if_neg hquote, dif_neg hline, if_neg hblock,
        if_pos hopening, ih]
      rfl
  | case5 place scan hplace hquote hline hblock hopening hclosing ih =>
      rw [foundFrom, dif_pos hplace, if_neg hquote, dif_neg hline, if_neg hblock,
        if_neg hopening, if_pos hclosing, ih]
      rfl
  | case6 place scan hplace hquote hline hblock hopening hclosing ih =>
      rw [foundFrom, dif_pos hplace, if_neg hquote, dif_neg hline, if_neg hblock,
        if_neg hopening, if_neg hclosing, ih]
  | case7 place scan hplace =>
      rw [foundFrom, dif_neg hplace]
      rfl

section scan

variable (escapes : Bool) (pre : Text) (c : Char) (rest : Text)

theorem passes_foundFrom (bytes : List UInt8) : Passes bytes (foundFrom escapes bytes) := by
  intro place hlt hinside
  rw [foundFrom, dif_pos hlt, hinside '\'' (by decide), hinside '-' (by decide),
    hinside '/' (by decide), hinside '(' (by decide), hinside ')' (by decide)]
  simp

/-- The scan stops at the bracket that the first lexeme is, and passes the lexeme. -/
theorem foundFrom_first :
    foundFrom escapes (bytes (pre ++ c :: rest)) (byteLength pre) =
      Lexeme.brackets (byteLength pre) [(Lexeme.first escapes c rest).1] ++
        foundFrom escapes (bytes (pre ++ c :: rest))
          (byteLength (pre ++ (Lexeme.first escapes c rest).1.text)) := by
  have hat := fun (sign : Char) (hsign : sign.toNat < 128) => holds_first pre c rest hsign
  rw [foundFrom, dif_pos (lt_length_bytes pre c rest)]
  simp only [hat _ (show '\''.toNat < 128 by decide),
    hat _ (show '-'.toNat < 128 by decide), hat _ (show '/'.toNat < 128 by decide),
    hat _ (show '('.toNat < 128 by decide), hat _ (show ')'.toNat < 128 by decide)]
  unfold Lexeme.first
  by_cases hquote : c = '\''
  · subst hquote
    have hend := literalEnd_bytes escapes (pre ++ ['\'']) rest
    simp only [List.append_assoc, List.cons_append, List.nil_append,
      byteLength_concat] at hend
    simp only [decide_true, ↓reduceIte]
    exact congrArg (foundFrom _ _) hend
  · have hdash : (decide (c = '-') && holds (bytes (pre ++ c :: rest))
        (byteLength pre + 1) '-') = decide (c = '-' ∧ rest.head? = some '-') := by
      by_cases hc : c = '-'
      · subst hc
        rw [holds_second pre rest (by decide) (by decide)]
        simp
      · simp [hc]
    have hslash : (decide (c = '/') && holds (bytes (pre ++ c :: rest))
        (byteLength pre + 1) '*') = decide (c = '/' ∧ rest.head? = some '*') := by
      by_cases hc : c = '/'
      · subst hc
        rw [holds_second pre rest (by decide) (by decide)]
        simp
      · simp [hc]
    simp only [hquote, hdash, hslash, decide_false, ↓reduceIte, decide_eq_true_eq]
    by_cases hline : c = '-' ∧ rest.head? = some '-'
    · have hend := lineEnd_bytes pre (c :: rest)
      have hcut : Lexeme.cutLine (c :: rest) =
          (c :: (Lexeme.cutLine rest).1, (Lexeme.cutLine rest).2) := by
        simp [Lexeme.cutLine, hline.1]
      rw [hcut] at hend
      simp only [hline, and_self, ↓reduceIte, ↓reduceDIte]
      rw [hline.1] at hend
      exact congrArg (foundFrom _ _) hend
    · by_cases hblock : c = '/' ∧ rest.head? = some '*'
      · obtain ⟨rfl, hnext⟩ := hblock
        obtain ⟨tail, rfl⟩ := List.head?_eq_some_iff.mp hnext
        have hend := blockEnd_bytes (pre ++ ['/', '*']) tail
        simp only [List.append_assoc, List.cons_append, List.nil_append,
          byteLength_append pre ['/', '*']] at hend
        simp only [hnext, and_self, ↓reduceIte, List.tail_cons]
        exact congrArg (foundFrom _ _) hend
      · have hpass : foundFrom escapes (bytes (pre ++ c :: rest)) (byteLength pre + 1) =
            foundFrom escapes (bytes (pre ++ c :: rest)) (byteLength (pre ++ [c])) :=
          (passes_foundFrom escapes _).inside pre c rest Nat.one_pos c.utf8Size_pos
        simp only [hline, hblock, Bool.false_eq_true, ↓reduceIte, ↓reduceDIte, hpass,
          Lexeme.text, Lexeme.brackets, Lexeme.code.injEq]
        split_ifs <;> rfl

/-- The scan stops at the brackets of all lexemes. -/
theorem foundFrom_bytes (pre text : Text) :
    foundFrom escapes (bytes (pre ++ text)) (byteLength pre) =
      Lexeme.brackets (byteLength pre) (Lexeme.all escapes text) := by
  fun_induction Lexeme.all escapes text generalizing pre with
  | case1 =>
      rw [foundFrom, dif_neg (by simp)]
      rfl
  | case2 c rest ih =>
      have hnext := ih (pre ++ (Lexeme.first escapes c rest).1.text)
      rw [List.append_assoc, Lexeme.first_append] at hnext
      rw [foundFrom_first, hnext, byteLength_append, ← Lexeme.brackets_cons]

end scan

/-- The scan stops at the structural brackets. -/
theorem found_bytes (dialect : Dialect) (text : Text) :
    found dialect.backslashEscapes text.bytes = dialect.structural text :=
  foundFrom_bytes dialect.backslashEscapes [] text

section pairs

/-- The entries after brackets that were open have been closed by brackets that
waited for a partner. -/
def closeAll (pairs : List BracketPair) : List (Nat × Nat) → List BracketPair
  | [] => pairs
  | (opening, closing) :: rest => closeAll (pairs.map (closed opening closing)) rest

theorem map_closed {opening closing : Nat} {pairs : List BracketPair}
    (h : ∀ pair ∈ pairs, pair.opening < opening) :
    pairs.map (closed opening closing) = pairs := by
  refine (List.map_congr_left fun pair hpair => ?_).trans (List.map_id pairs)
  rw [closed, if_neg (Nat.ne_of_lt (h pair hpair))]
  rfl

/-- An entry behind those of the open brackets stays as it is. -/
theorem closeAll_append {pairs : List BracketPair} {pair : BracketPair}
    {matched : List (Nat × Nat)} (h : ∀ entry ∈ matched, entry.1 < pair.opening) :
    closeAll (pairs ++ [pair]) matched = closeAll pairs matched ++ [pair] := by
  induction matched generalizing pairs with
  | nil => rfl
  | cons entry rest ih =>
      have hne : closed entry.1 entry.2 pair = pair := by
        rw [closed, if_neg (Nat.ne_of_gt (h entry List.mem_cons_self))]
      rw [closeAll, closeAll, List.map_append, List.map_singleton, hne]
      exact ih fun other hother => h other (List.mem_cons_of_mem entry hother)

/-- A scan all of whose entries are for places in front of the given brackets. -/
structure Scan.InFront (scan : Scan) (brackets : List Bracket) : Prop where
  opened : ∀ opening ∈ scan.opened, ∀ bracket ∈ brackets, opening < bracket.offset
  pairs : ∀ pair ∈ scan.pairs, ∀ bracket ∈ brackets, pair.opening < bracket.offset

theorem Scan.InFront.tail {scan : Scan} {bracket : Bracket} {rest : List Bracket}
    (h : scan.InFront (bracket :: rest)) : scan.InFront rest where
  opened opening hopening other hother :=
    h.opened opening hopening other (List.mem_cons_of_mem bracket hother)
  pairs pair hpair other hother :=
    h.pairs pair hpair other (List.mem_cons_of_mem bracket hother)

theorem Scan.InFront.push {scan : Scan} {place : Nat} {rest : List Bracket}
    (h : scan.InFront rest) (hplace : ∀ other ∈ rest, place < other.offset) :
    (scan.push place).InFront rest where
  opened opening hopening := by
    rcases List.mem_cons.mp hopening with rfl | hopening
    · exact hplace
    · exact h.opened opening hopening
  pairs pair hpair := by
    rcases List.mem_append.mp hpair with hpair | hpair
    · exact h.pairs pair hpair
    · rw [List.mem_singleton.mp hpair]
      exact hplace

theorem closed_opening (opening closing : Nat) (pair : BracketPair) :
    (closed opening closing pair).opening = pair.opening := by
  rw [closed]
  split
  · next h => exact h.symm
  · rfl

theorem Scan.InFront.pop {scan : Scan} {rest : List Bracket} (h : scan.InFront rest)
    (place : Nat) : (scan.pop place).InFront rest := by
  obtain ⟨opened, pairs⟩ := scan
  cases opened with
  | nil => exact h
  | cons opening others =>
      refine ⟨fun other hother => h.opened other (List.mem_cons_of_mem _ hother), ?_⟩
      intro pair hpair
      obtain ⟨pair, hmem, rfl⟩ := List.mem_map.mp hpair
      rw [closed_opening]
      exact h.pairs pair hmem

theorem Scan.InFront.note {scan : Scan} {bracket : Bracket} {rest : List Bracket}
    (h : scan.InFront (bracket :: rest))
    (hbehind : ∀ other ∈ rest, bracket.offset < other.offset) :
    (scan.note bracket).InFront rest := by
  obtain ⟨offset, side⟩ := bracket
  cases side with
  | opening => exact h.tail.push hbehind
  | closing => exact h.tail.pop offset

/-- Noting brackets one by one pairs them: those that close nothing noted here close
what was open before. -/
theorem pairs_foldl_note {brackets : List Bracket} {scan : Scan}
    (hascending : Bracket.Ascending brackets) (hscan : scan.InFront brackets) :
    (brackets.foldl Scan.note scan).pairs =
      closeAll scan.pairs (scan.opened.zip (Bracket.pairUp brackets).2) ++
        (Bracket.pairUp brackets).1 := by
  induction brackets generalizing scan with
  | nil => simp [Bracket.pairUp, closeAll]
  | cons bracket rest ih =>
      obtain ⟨hbehind, hrest⟩ := List.pairwise_cons.mp hascending
      rw [List.foldl_cons, ih hrest (hscan.note hbehind)]
      obtain ⟨offset, side⟩ := bracket
      obtain ⟨opened, pairs⟩ := scan
      cases side with
      | closing =>
          cases opened with
          | nil => simp [Scan.note, Scan.pop, Bracket.pairUp]
          | cons opening others =>
              simp [Scan.note, Scan.pop, Bracket.pairUp, closeAll]
      | opening =>
          cases hwaiting : (Bracket.pairUp rest).2 with
          | nil => simp [Scan.note, Scan.push, Bracket.pairUp, hwaiting, closeAll]
          | cons nearest others =>
              have hpairs : pairs.map (closed offset nearest) = pairs :=
                map_closed fun pair hpair =>
                  hscan.pairs pair hpair _ List.mem_cons_self
              have hopened : ∀ entry ∈ opened.zip others, entry.1 < offset := by
                intro entry hentry
                exact hscan.opened _ (List.of_mem_zip hentry).1 _ List.mem_cons_self
              have hlast : closed offset nearest ⟨offset, none⟩ =
                  ⟨offset, some nearest⟩ := if_pos rfl
              simp only [Scan.note, Scan.push, Bracket.pairUp, hwaiting,
                List.zip_cons_cons, closeAll, List.map_append, List.map_singleton,
                hpairs, hlast]
              rw [closeAll_append hopened]
              simp

end pairs

/-- The index of bytes is that of the reader of characters. -/
theorem index_bytes (dialect : Dialect) (text : Text) :
    index dialect.backslashEscapes text.bytes = dialect.lexis.bracketPairs text := by
  have hfront : Scan.start.InFront (dialect.structural text) :=
    ⟨by simp [Scan.start], by simp [Scan.start]⟩
  have hpairs := pairs_foldl_note (Dialect.ascending_structural dialect text) hfront
  rw [Lexis.bracketPairs, Dialect.brackets_eq_structural, index, scanFrom_eq_foldl]
  exact (congrArg (fun brackets => (brackets.foldl Scan.note Scan.start).pairs)
    (found_bytes dialect text)).trans hpairs

end ByteIndex

end DdlDiagram
