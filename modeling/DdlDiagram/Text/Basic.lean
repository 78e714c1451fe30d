/-
Text as a list of Unicode scalar values, and the byte offsets that reports
are written in.  An offset is the UTF-8 length of a prefix, so cutting at it
splits the text between two characters.
-/
namespace DdlDiagram

/-- Everything read and written is a list of characters, so that laws about it
are laws of lists. -/
abbrev Text := List Char

namespace Text

/-- Number of UTF-8 bytes. -/
def byteLength : Text → Nat
  | [] => 0
  | c :: rest => c.utf8Size + byteLength rest

/-- The text after its first `count` bytes; a character that straddles the cut
is dropped with them. -/
def dropBytes : Nat → Text → Text
  | 0, text => text
  | _ + 1, [] => []
  | count + 1, c :: rest => dropBytes (count + 1 - c.utf8Size) rest

/-- The first `count` bytes of the text; a character that straddles the cut
is kept whole. -/
def takeBytes : Nat → Text → Text
  | 0, _ => []
  | _ + 1, [] => []
  | count + 1, c :: rest => c :: takeBytes (count + 1 - c.utf8Size) rest

@[simp] theorem byteLength_nil : byteLength [] = 0 := rfl

@[simp] theorem byteLength_cons (c : Char) (rest : Text) :
    byteLength (c :: rest) = c.utf8Size + byteLength rest := rfl

@[simp] theorem byteLength_append (left right : Text) :
    byteLength (left ++ right) = byteLength left + byteLength right := by
  induction left with
  | nil => simp
  | cons c rest ih => simp [ih, Nat.add_assoc]

@[simp] theorem dropBytes_zero (text : Text) : dropBytes 0 text = text := by
  cases text <;> rfl

@[simp] theorem takeBytes_zero (text : Text) : takeBytes 0 text = [] := by
  cases text <;> rfl

theorem dropBytes_cons (c : Char) (rest : Text) (count : Nat) :
    dropBytes (c.utf8Size + count) (c :: rest) = dropBytes count rest := by
  obtain ⟨size, hsize⟩ := Nat.exists_eq_succ_of_ne_zero
    (Nat.ne_of_gt c.utf8Size_pos)
  rw [hsize, Nat.succ_add, dropBytes, hsize]
  congr 1
  omega

theorem takeBytes_cons (c : Char) (rest : Text) (count : Nat) :
    takeBytes (c.utf8Size + count) (c :: rest) = c :: takeBytes count rest := by
  obtain ⟨size, hsize⟩ := Nat.exists_eq_succ_of_ne_zero
    (Nat.ne_of_gt c.utf8Size_pos)
  rw [hsize, Nat.succ_add, takeBytes, hsize]
  congr 2
  omega

/-- Cutting at the length of a prefix leaves what follows the prefix. -/
@[simp] theorem dropBytes_append (pre post : Text) :
    dropBytes (byteLength pre) (pre ++ post) = post := by
  induction pre with
  | nil => simp
  | cons c rest ih =>
      rw [byteLength_cons, List.cons_append, dropBytes_cons, ih]

/-- Cutting at the length of a prefix gives back the prefix. -/
@[simp] theorem takeBytes_append (pre post : Text) :
    takeBytes (byteLength pre) (pre ++ post) = pre := by
  induction pre with
  | nil => simp
  | cons c rest ih =>
      rw [byteLength_cons, List.cons_append, takeBytes_cons, ih]

theorem dropBytes_append_of_le {count : Nat} {front : Text}
    (h : count ≤ byteLength front) (back : Text) :
    dropBytes count (front ++ back) = dropBytes count front ++ back := by
  induction front generalizing count with
  | nil =>
      obtain rfl : count = 0 := Nat.le_zero.mp h
      simp
  | cons c rest ih =>
      cases count with
      | zero => simp
      | succ count =>
          rw [byteLength_cons] at h
          exact ih (by omega)

theorem dropBytes_append_add (front back : Text) (count : Nat) :
    dropBytes (byteLength front + count) (front ++ back) = dropBytes count back := by
  induction front with
  | nil => rw [byteLength_nil, Nat.zero_add, List.nil_append]
  | cons c rest ih => rw [byteLength_cons, Nat.add_assoc, List.cons_append, dropBytes_cons, ih]

theorem takeBytes_append_add (front back : Text) (count : Nat) :
    takeBytes (byteLength front + count) (front ++ back) = front ++ takeBytes count back := by
  induction front with
  | nil => rw [byteLength_nil, Nat.zero_add, List.nil_append, List.nil_append]
  | cons c rest ih =>
      rw [byteLength_cons, Nat.add_assoc, List.cons_append, takeBytes_cons, ih, List.cons_append]

/-- The bytes from `start` up to `stop`. -/
def between (start stop : Nat) (text : Text) : Text :=
  takeBytes (stop - start) (dropBytes start text)

theorem between_append (pre inner post : Text) :
    between (byteLength pre) (byteLength pre + byteLength inner)
      (pre ++ (inner ++ post)) = inner := by
  rw [between, dropBytes_append, Nat.add_sub_cancel_left, takeBytes_append]

/-- Decimal digits of a number, without leading zeros. -/
def decimal (n : Nat) : Text :=
  Nat.toDigits 10 n

/-- The parts with a separator between neighbours. -/
def joined (separator : Text) : List Text → Text
  | [] => []
  | [part] => part
  | part :: next :: rest => part ++ separator ++ joined separator (next :: rest)

end Text

end DdlDiagram
