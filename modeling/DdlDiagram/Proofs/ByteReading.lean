/-
Text as bytes.  A reader of bytes looks at one place at a time and compares what it
finds with ASCII signs only; behind a backslash it passes two bytes, whatever they
are.  No byte inside a longer character is that of a sign, so such a reader comes back
to the beginning of a character before it finds a sign again, and it ends a literal or
a comment where the reader of characters does.
-/
import DdlDiagram.Proofs.Lexeme
import Mathlib.Tactic.SplitIfs

namespace DdlDiagram

open Text

/-- The UTF-8 bytes of a text. -/
def Text.bytes (text : Text) : List UInt8 :=
  text.flatMap String.utf8EncodeChar

namespace ByteIndex

/-- Whether the byte at a place is that of a sign. -/
def holds (bytes : List UInt8) (place : Nat) (sign : Char) : Bool :=
  bytes[place]? == some sign.toUInt8

/-- The place behind the literal whose contents are read from a place on. -/
def literalEnd (escapes : Bool) (bytes : List UInt8) (place : Nat) : Nat :=
  if place < bytes.length then
    if escapes && holds bytes place '\\' then literalEnd escapes bytes (place + 2)
    else if holds bytes place '\'' then
      if holds bytes (place + 1) '\'' then literalEnd escapes bytes (place + 2)
      else place + 1
    else literalEnd escapes bytes (place + 1)
  else bytes.length
termination_by bytes.length - place

/-- The place of the first newline from a place on. -/
def lineEnd (bytes : List UInt8) (place : Nat) : Nat :=
  if place < bytes.length then
    if holds bytes place '\n' then place else lineEnd bytes (place + 1)
  else bytes.length
termination_by bytes.length - place

/-- The place behind the block comment that is read from a place on. -/
def blockEnd (bytes : List UInt8) (place : Nat) : Nat :=
  if place + 1 < bytes.length then
    if holds bytes place '*' && holds bytes (place + 1) '/' then place + 2
    else blockEnd bytes (place + 1)
  else bytes.length
termination_by bytes.length - place

end ByteIndex

namespace Text

theorem bytes_append (left right : Text) :
    bytes (left ++ right) = bytes left ++ bytes right :=
  List.flatMap_append

@[simp] theorem length_bytes (text : Text) : text.bytes.length = byteLength text := by
  induction text with
  | nil => rfl
  | cons c rest ih =>
      rw [bytes, List.flatMap_cons, List.length_append,
        String.length_utf8EncodeChar, byteLength_cons, ← ih, bytes]

end Text

namespace ByteIndex

theorem le_toNat_ofNat {n : Nat} (hlow : 128 ≤ n) (hhigh : n < 256) :
    128 ≤ (UInt8.ofNat n).toNat := by
  rw [UInt8.toNat_ofNat']
  omega

/-- No byte of a longer character is that of an ASCII character. -/
theorem le_of_mem_utf8EncodeChar {c : Char} (h : c.utf8Size ≠ 1) :
    ∀ byte ∈ String.utf8EncodeChar c, 128 ≤ byte.toNat := by
  have hlow : ¬ c.val.toNat ≤ 127 := by
    intro hle
    exact h (Char.utf8Size_eq_one_iff.mpr (UInt32.le_iff_toNat_le.mpr hle))
  simp only [String.utf8EncodeChar, hlow, ↓reduceIte]
  split_ifs <;> simp only [List.forall_mem_cons, List.not_mem_nil, false_implies,
    implies_true, and_true]
  · exact ⟨le_toNat_ofNat (by omega) (by omega), le_toNat_ofNat (by omega) (by omega)⟩
  · exact ⟨le_toNat_ofNat (by omega) (by omega), le_toNat_ofNat (by omega) (by omega),
      le_toNat_ofNat (by omega) (by omega)⟩
  · exact ⟨le_toNat_ofNat (by omega) (by omega), le_toNat_ofNat (by omega) (by omega),
      le_toNat_ofNat (by omega) (by omega), le_toNat_ofNat (by omega) (by omega)⟩

theorem toNat_toUInt8 {c : Char} (h : c.toNat < 128) :
    c.toUInt8.toNat = c.toNat := by
  have hmod : c.toUInt8.toNat = c.toNat % 256 := rfl
  omega

theorem toNat_lt_of_utf8Size {c : Char} (h : c.utf8Size = 1) : c.toNat < 128 := by
  rw [Char.utf8Size_eq_one_iff, UInt32.le_iff_toNat_le] at h
  exact Nat.lt_succ_of_le h

/-- Only the first byte of a character can be that of a sign, and only if the
character is the sign. -/
theorem getElem?_utf8EncodeChar {sign : Char} (hsign : sign.toNat < 128) (c : Char)
    (place : Nat) :
    (String.utf8EncodeChar c)[place]? = some sign.toUInt8 ↔
      place = 0 ∧ c = sign := by
  have hcode := toNat_toUInt8 hsign
  by_cases hc : c.utf8Size = 1
  · have hascii := toNat_toUInt8 (toNat_lt_of_utf8Size hc)
    rw [String.utf8EncodeChar_eq_singleton hc, List.getElem?_singleton]
    constructor
    · intro h
      split at h
      · next hplace =>
          refine ⟨hplace, Char.toNat_inj.mp ?_⟩
          rw [← hascii, ← hcode]
          exact congrArg UInt8.toNat (Option.some.inj h)
      · contradiction
    · rintro ⟨rfl, rfl⟩
      rfl
  · constructor
    · intro h
      have hle := le_of_mem_utf8EncodeChar hc _ (List.mem_of_getElem? h)
      omega
    · rintro ⟨_, rfl⟩
      exact absurd (Char.utf8Size_eq_one_iff.mpr
        (UInt32.le_iff_toNat_le.mpr (Nat.le_of_lt_succ hsign))) hc

section places

variable (pre : Text) (c : Char) (rest : Text) {sign : Char}

/-- A sign is found at the first byte of the character that it is, and nowhere
inside a character. -/
theorem holds_bytes (hsign : sign.toNat < 128) {place : Nat}
    (hplace : place < c.utf8Size) :
    holds (bytes (pre ++ c :: rest)) (byteLength pre + place) sign =
      decide (place = 0 ∧ c = sign) := by
  have hinside : (bytes (pre ++ c :: rest))[byteLength pre + place]? =
      (String.utf8EncodeChar c)[place]? := by
    rw [bytes_append, List.getElem?_append_right (by simp), length_bytes,
      Nat.add_sub_cancel_left, bytes, List.flatMap_cons,
      List.getElem?_append_left (by rwa [String.length_utf8EncodeChar])]
  rw [holds, hinside, Bool.eq_iff_iff, beq_iff_eq, decide_eq_true_eq,
    getElem?_utf8EncodeChar hsign]

theorem holds_first (hsign : sign.toNat < 128) :
    holds (bytes (pre ++ c :: rest)) (byteLength pre) sign = decide (c = sign) := by
  have h := holds_bytes pre c rest hsign c.utf8Size_pos
  simpa using h

theorem holds_end (sign : Char) : holds (bytes pre) (byteLength pre) sign = false := by
  rw [holds, List.getElem?_eq_none (by simp)]
  rfl

/-- What is found behind a sign is what the rest begins with. -/
theorem holds_second {first : Char} (hfirst : first.utf8Size = 1)
    (hsign : sign.toNat < 128) :
    holds (bytes (pre ++ first :: rest)) (byteLength pre + 1) sign =
      decide (rest.head? = some sign) := by
  have hplace : byteLength pre + 1 = byteLength (pre ++ [first]) := by
    rw [byteLength_append, byteLength_cons, hfirst]
    rfl
  rw [hplace, List.append_cons]
  cases rest with
  | nil =>
      rw [List.append_nil, holds_end]
      rfl
  | cons next rest =>
      rw [holds_first _ next rest hsign]
      simp

/-- A byte that is that of no sign. -/
def Inside (bytes : List UInt8) (place : Nat) : Prop :=
  ∀ sign : Char, sign.toNat < 128 → holds bytes place sign = false

/-- A function of places that passes every byte that is no sign. -/
def Passes {α : Type} (bytes : List UInt8) (f : Nat → α) : Prop :=
  ∀ place < bytes.length, Inside bytes place → f place = f (place + 1)

/-- What passes the bytes inside a character comes to its end. -/
theorem Passes.inside {α : Type} {f : Nat → α}
    (hf : Passes (bytes (pre ++ c :: rest)) f) {place : Nat} (hpos : 0 < place)
    (hle : place ≤ c.utf8Size) :
    f (byteLength pre + place) = f (byteLength (pre ++ [c])) := by
  induction hleft : c.utf8Size - place generalizing place with
  | zero =>
      rw [byteLength_append, byteLength_cons, byteLength_nil]
      congr 1
      omega
  | succ left ih =>
      rw [hf _ (by simp; omega), Nat.add_assoc]
      · exact ih (Nat.succ_pos place) (by omega) (by omega)
      · intro sign hsign
        rw [holds_bytes pre c rest hsign (by omega)]
        simp [Nat.ne_of_gt hpos]

theorem lt_length_bytes : byteLength pre < (bytes (pre ++ c :: rest)).length := by
  have := c.utf8Size_pos
  simp
  omega

theorem byteLength_concat : byteLength (pre ++ [c]) = byteLength pre + c.utf8Size := by
  simp

end places

section literal

variable (escapes : Bool) (pre : Text) (c : Char) (rest : Text)

theorem passes_literalEnd (bytes : List UInt8) :
    Passes bytes (literalEnd escapes bytes) := by
  intro place hlt hinside
  rw [literalEnd, if_pos hlt, hinside '\\' (by decide), hinside '\'' (by decide)]
  simp

theorem literalEnd_of_le {bytes : List UInt8} {place : Nat}
    (h : bytes.length ≤ place) : literalEnd escapes bytes place = bytes.length := by
  rw [literalEnd, if_neg (Nat.not_lt_of_ge h)]

/-- A character of a literal that is read by itself. -/
theorem literalEnd_char (hquote : c ≠ '\'') (hescape : ¬ (escapes && c == '\\')) :
    literalEnd escapes (bytes (pre ++ c :: rest)) (byteLength pre) =
      literalEnd escapes (bytes (pre ++ c :: rest)) (byteLength (pre ++ [c])) := by
  rw [← (passes_literalEnd escapes _).inside pre c rest Nat.one_pos c.utf8Size_pos,
    literalEnd, if_pos (lt_length_bytes pre c rest),
    holds_first pre c rest (by decide), holds_first pre c rest (by decide)]
  simp_all

/-- Behind a backslash two bytes are passed. -/
theorem literalEnd_backslash (hescape : (escapes && c == '\\') = true) :
    literalEnd escapes (bytes (pre ++ c :: rest)) (byteLength pre) =
      literalEnd escapes (bytes (pre ++ c :: rest)) (byteLength pre + 2) := by
  rw [literalEnd, if_pos (lt_length_bytes pre c rest),
    holds_first pre c rest (by decide)]
  simp_all

/-- At a quote the byte behind it is looked at. -/
theorem literalEnd_quote :
    literalEnd escapes (bytes (pre ++ '\'' :: rest)) (byteLength pre) =
      if holds (bytes (pre ++ '\'' :: rest)) (byteLength pre + 1) '\'' then
        literalEnd escapes (bytes (pre ++ '\'' :: rest)) (byteLength pre + 2)
      else byteLength pre + 1 := by
  rw [literalEnd, if_pos (lt_length_bytes pre _ rest),
    holds_first pre _ rest (by decide), holds_first pre _ rest (by decide)]
  simp

/-- The end of a literal is where the reader of characters cuts behind it. -/
theorem literalEnd_bytes (pre text : Text) :
    literalEnd escapes (bytes (pre ++ text)) (byteLength pre) =
      byteLength (pre ++ (Lexeme.cutLiteral escapes text).1) := by
  fun_induction Lexeme.cutLiteral escapes text generalizing pre with
  | case1 =>
      rw [literalEnd_of_le escapes (by simp)]
      simp
  | case2 c =>
      by_cases hescape : (escapes && c == '\\') = true
      · obtain rfl : c = '\\' := by simp_all
        rw [literalEnd_backslash escapes pre _ [] hescape,
          literalEnd_of_le escapes (by simp; decide), length_bytes]
      · by_cases hc : c = '\''
        · subst hc
          rw [literalEnd_quote, holds_second pre [] (by decide) (by decide),
            byteLength_concat]
          rfl
        · rw [literalEnd_char escapes pre c [] hc hescape,
            literalEnd_of_le escapes (by simp), length_bytes]
  | case3 rest cut ih =>
      have hnext := ih (pre ++ ['\'', '\''])
      simp only [List.append_assoc, List.cons_append, List.nil_append,
        byteLength_append pre ['\'', '\'']] at hnext
      rw [literalEnd_quote, holds_second pre _ (by decide) (by decide)]
      exact hnext
  | case4 next rest hnext =>
      rw [literalEnd_quote, holds_second pre _ (by decide) (by decide),
        byteLength_concat]
      simp [hnext]
      rfl
  | case5 c next rest hc hescape cut ih =>
      obtain rfl : c = '\\' := by simp_all
      have hnext := ih (pre ++ ['\\', next])
      have hinside := (passes_literalEnd escapes _).inside (pre ++ ['\\']) next rest
        Nat.one_pos next.utf8Size_pos
      simp only [List.append_assoc, List.cons_append, List.nil_append] at hnext hinside
      rw [literalEnd_backslash escapes pre _ _ hescape, ← hnext, ← hinside,
        byteLength_concat]
      rfl
  | case6 c next rest hc hescape cut ih =>
      have hnext := ih (pre ++ [c])
      simp only [List.append_assoc, List.cons_append, List.nil_append] at hnext
      rw [literalEnd_char escapes pre c _ hc hescape, hnext]

end literal

section comments

variable (pre : Text) (c : Char) (rest : Text)

theorem passes_lineEnd (bytes : List UInt8) : Passes bytes (lineEnd bytes) := by
  intro place hlt hinside
  rw [lineEnd, if_pos hlt, hinside '\n' (by decide)]
  simp

/-- A line ends where the reader of characters cuts in front of its newline. -/
theorem lineEnd_bytes (pre text : Text) :
    lineEnd (bytes (pre ++ text)) (byteLength pre) =
      byteLength (pre ++ (Lexeme.cutLine text).1) := by
  induction text generalizing pre with
  | nil =>
      rw [lineEnd, if_neg (by simp)]
      simp [Lexeme.cutLine]
  | cons c rest ih =>
      by_cases hc : c = '\n'
      · subst hc
        rw [lineEnd, if_pos (lt_length_bytes pre _ rest),
          holds_first pre _ rest (by decide)]
        simp [Lexeme.cutLine]
      · have hnext := ih (pre ++ [c])
        simp only [List.append_assoc, List.cons_append, List.nil_append] at hnext
        have hcut : Lexeme.cutLine (c :: rest) =
            (c :: (Lexeme.cutLine rest).1, (Lexeme.cutLine rest).2) := by
          simp [Lexeme.cutLine, hc]
        rw [hcut, ← hnext,
          ← (passes_lineEnd _).inside pre c rest Nat.one_pos c.utf8Size_pos, lineEnd,
          if_pos (lt_length_bytes pre c rest), holds_first pre c rest (by decide)]
        simp [hc]

/-- A comment goes on behind two bytes that do not end it. -/
theorem blockEnd_pass {bytes : List UInt8} {place : Nat}
    (h : (holds bytes place '*' && holds bytes (place + 1) '/') = false) :
    blockEnd bytes place = blockEnd bytes (place + 1) := by
  rw [blockEnd]
  split
  · simp [h]
  · next hend => rw [blockEnd, if_neg (by omega)]

theorem passes_blockEnd (bytes : List UInt8) : Passes bytes (blockEnd bytes) := by
  intro place _ hinside
  exact blockEnd_pass (by rw [hinside '*' (by decide), Bool.false_and])

/-- A block comment ends where the reader of characters cuts behind it. -/
theorem blockEnd_bytes (pre text : Text) :
    blockEnd (bytes (pre ++ text)) (byteLength pre) =
      byteLength (pre ++ (Lexeme.cutBlock text).1) := by
  have hpass : ∀ (pre : Text) c rest,
      (holds (bytes (pre ++ c :: rest)) (byteLength pre) '*' &&
        holds (bytes (pre ++ c :: rest)) (byteLength pre + 1) '/') = false →
      blockEnd (bytes (pre ++ c :: rest)) (byteLength pre) =
        blockEnd (bytes (pre ++ c :: rest)) (byteLength (pre ++ [c])) := by
    intro pre c rest hnone
    rw [blockEnd_pass hnone]
    exact (passes_blockEnd _).inside pre c rest Nat.one_pos c.utf8Size_pos
  fun_induction Lexeme.cutBlock text generalizing pre with
  | case1 =>
      rw [blockEnd, if_neg (by simp)]
      simp
  | case2 c =>
      rw [hpass, blockEnd, if_neg (by simp), length_bytes]
      rw [holds_first pre c [] (by decide)]
      by_cases hc : c = '*'
      · subst hc
        rw [holds_second pre [] (by decide) (by decide)]
        rfl
      · simp [hc]
  | case3 c next rest hend =>
      obtain ⟨rfl, rfl⟩ := hend
      rw [blockEnd, if_pos, holds_first pre _ _ (by decide),
        holds_second pre _ (by decide) (by decide), byteLength_append pre ['*', '/']]
      · rfl
      · rw [length_bytes, byteLength_append]
        change _ + 1 < _ + (1 + (1 + _))
        omega
  | case4 c next rest hend cut ih =>
      have hnext := ih (pre ++ [c])
      simp only [List.append_assoc, List.cons_append, List.nil_append] at hnext
      rw [hpass, hnext]
      rw [holds_first pre c _ (by decide)]
      by_cases hc : c = '*'
      · subst hc
        rw [holds_second pre _ (by decide) (by decide)]
        simpa using hend
      · simp [hc]

end comments

end ByteIndex

end DdlDiagram
