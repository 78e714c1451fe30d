/-
The layout of a document is read back.  At every depth, a value that is laid out reads
as that value, whatever stands behind it, as long as that does not go on with a number;
white space, separators and escapes lose nothing.
-/
import DdlDiagram.Proofs.JsonGrammar
import DdlDiagram.Proofs.Naming
import DdlDiagram.Proofs.Wording
import Mathlib.Data.List.TakeWhile

namespace DdlDiagram.Json

open Text

mutual

/-- What a document that is laid out says. -/
def value : Json → Value
  | bool b => .bool b
  | number n => .number n
  | string text => .string text
  | array items => .array (values items)
  | object fields => .object (fieldValues fields)

def values : List Json → List Value
  | [] => []
  | item :: rest => item.value :: values rest

def fieldValues : List (Text × Json) → List (Text × Value)
  | [] => []
  | (name, item) :: rest => (name, item.value) :: fieldValues rest

end

section spaces

theorem afterSpace_lineStart (depth : Nat) (text : Text) :
    afterSpace (lineStart depth ++ text) = afterSpace text := by
  have hspaces : ∀ c ∈ lineStart depth, isSpace c = true := by
    intro c hc
    rcases List.mem_cons.mp hc with rfl | hc
    · rfl
    · rw [List.eq_of_mem_replicate hc]
      rfl
  exact List.dropWhile_append_of_pos hspaces

/-- A text that does not go on with a number in front of it. -/
def Stops (text : Text) : Prop :=
  ∀ c ∈ text.head?, c.isDigit = false ∧ c ≠ '.' ∧ c ≠ 'e' ∧ c ≠ 'E'

theorem stops_of_isSpace {text : Text} (h : ∀ c ∈ text.head?, isSpace c = true) :
    Stops text := by
  have hall : ∀ c ∈ [' ', '\t', '\n', '\r'],
      c.isDigit = false ∧ c ≠ '.' ∧ c ≠ 'e' ∧ c ≠ 'E' := by
    decide
  exact fun c hc => hall c (mem_of_isSpace (h c hc))

theorem stops_lineStart (depth : Nat) (rest : Text) : Stops (lineStart depth ++ rest) := by
  apply stops_of_isSpace
  rintro c ⟨⟩
  rfl

theorem stops_comma (rest : Text) : Stops (',' :: rest) := by
  rintro c ⟨⟩
  decide

/-- No white space stands in front of a value. -/
theorem Reads.afterSpace_eq {text rest : Text} {value : Value} (h : Reads text value rest) :
    afterSpace text = text := by
  cases h with
  | number hnumber =>
      cases text with
      | nil => rfl
      | cons c tail =>
          have hc : isSpace c ≠ true := by
            intro hspace
            have hstops : Stops [c] := stops_of_isSpace (by rintro d ⟨⟩; exact hspace)
            rcases number?_head hnumber with rfl | hdigit
            · contradiction
            · rw [(hstops c rfl).1] at hdigit
              contradiction
          exact List.dropWhile_cons_of_neg hc
  | null | yes | no | string | noItems | array | noFields | object => rfl

end spaces

section numbers

variable {rest : Text}

theorem decimal_ne_nil (n : Nat) : decimal n ≠ [] :=
  Nat.toDigits_ne_nil

/-- Only zero is written with a zero in front. -/
theorem eq_zero_of_head?_decimal {n : Nat} (h : (decimal n).head? = some '0') : n = 0 := by
  induction n using Nat.strong_induction_on with
  | h n ih =>
      rw [decimal, Nat.toDigits_eq_if (by decide)] at h
      split at h
      · exact Nat.digitChar_eq_zero.mp (Option.some.inj h)
      · next hten =>
          rw [List.head?_append_of_ne_nil _ Nat.toDigits_ne_nil] at h
          have hzero := ih (n / 10) (by omega) h
          omega

theorem whole?_decimal (n : Nat) (hrest : Stops rest) :
    whole? (decimal n ++ rest) = some (decimal n, rest) := by
  have hdigits : ∀ c ∈ decimal n, c.isDigit = true := fun c hc => isDigit_of_mem_decimal hc
  have hends : ∀ c ∈ rest.head?, c.isDigit = false := fun c hc => (hrest c hc).1
  have hread : digits? (decimal n ++ rest) = some (decimal n, rest) := by
    have hne : (decimal n).isEmpty = false := by
      simpa using decimal_ne_nil n
    rw [digits?, takeWhile_solid_append hdigits hends, dropWhile_solid_append hdigits hends,
      hne]
    rfl
  have hzero : ¬ ((decimal n).head? = some '0' ∧ (decimal n).length ≠ 1) := by
    rintro ⟨hhead, hlength⟩
    rw [eq_zero_of_head?_decimal hhead] at hlength
    exact hlength rfl
  rw [whole?, hread]
  exact if_neg hzero

theorem fraction?_of_stops (hrest : Stops rest) : fraction? rest = some ([], rest) := by
  rw [fraction?]
  rintro tail rfl
  exact (hrest '.' rfl).2.1 rfl

theorem exponent?_of_stops (hrest : Stops rest) : exponent? rest = some (0, rest) := by
  cases rest with
  | nil => rfl
  | cons c tail =>
      obtain ⟨_, _, hlower, hupper⟩ := hrest c rfl
      exact if_neg (not_or.mpr ⟨hlower, hupper⟩)

theorem number?_decimal (n : Nat) (hrest : Stops rest) :
    number? (decimal n ++ rest) = some ((n : ℚ), rest) := by
  have hmagnitude : magnitude? (decimal n ++ rest) = some ((n : ℚ), rest) := by
    have hvalue : Nat.ofDigitChars 10 (decimal n) 0 = n :=
      Nat.ofDigitChars_ten_toDigits
    rw [magnitude?, whole?_decimal n hrest]
    simp [fraction?_of_stops hrest, exponent?_of_stops hrest, hvalue]
  rw [number?, hmagnitude]
  rintro tail heq
  obtain ⟨c, digits, hdigits⟩ := List.exists_cons_of_ne_nil (decimal_ne_nil n)
  have hc : c ∈ decimal n := by
    rw [hdigits]
    exact List.mem_cons_self
  rw [hdigits] at heq
  obtain rfl := (List.cons.inj heq).1
  exact absurd (isDigit_of_mem_decimal hc) (by decide)

end numbers

section strings

variable {more content rest : Text}

theorem hexValue?_hexDigit (n : Nat) : hexValue? (hexDigit n) = some (n % 16) := by
  have hall : ∀ digit < 16, hexValue? (Nat.digitChar digit) = some digit := by
    decide
  exact hall (n % 16) (Nat.mod_lt n (by decide))

/-- The escape of a control character is that of its code. -/
theorem codeUnit?_control {code : Nat} (hcode : code < 0x20) (rest : Text) :
    codeUnit? ('0' :: '0' :: hexDigit (code / 16) :: hexDigit code :: rest) =
      some (code, rest) := by
  have hzero : hexValue? '0' = some 0 := by decide
  have hvalue : ((0 * 16 + 0) * 16 + code / 16 % 16) * 16 + code % 16 = code := by omega
  simp only [codeUnit?, hzero, hexValue?_hexDigit, Option.bind_eq_bind, Option.bind_some,
    hvalue, Option.pure_def]

/-- What is written for a character reads as that character. -/
theorem ReadsString.cons_escaped (h : ReadsString more content rest) (c : Char) :
    ReadsString (escaped c ++ more) (c :: content) rest := by
  fun_cases escaped c with
  | case1 | case2 | case3 | case4 | case5 | case6 | case7 => exact .short rfl h
  | case8 c _ _ _ _ _ _ _ hcontrol =>
      have hhigh : isHighSurrogate c.toNat = false := by
        simp only [isHighSurrogate, Bool.and_eq_false_iff, decide_eq_false_iff_not]
        omega
      have hlow : isLowSurrogate c.toNat = false := by
        simp only [isLowSurrogate, Bool.and_eq_false_iff, decide_eq_false_iff_not]
        omega
      have hunit := ReadsString.unit (codeUnit?_control hcontrol more) hhigh hlow h
      rwa [Char.ofNat_toNat] at hunit
  | case9 c hquote hslash _ _ _ _ _ hplain =>
      refine .plain ?_ h
      simp only [isPlain, Bool.and_eq_true, bne_iff_ne, decide_eq_true_eq]
      exact ⟨⟨hquote, hslash⟩, Nat.le_of_not_lt hplain⟩

theorem readsString_flatMap (content rest : Text) :
    ReadsString (content.flatMap escaped ++ '"' :: rest) content rest := by
  induction content with
  | nil => exact .close rest
  | cons c content ih =>
      rw [List.flatMap_cons, List.append_assoc]
      exact ih.cons_escaped c

theorem quoted_append (text rest : Text) :
    quoted text ++ rest = '"' :: (text.flatMap escaped ++ '"' :: rest) := by
  simp [quoted]

end strings

section layouts

variable {rest text : Text} {v : Value}

/-- A value reads the same on a line of its own. -/
theorem Reads.onLine (h : Reads text v rest) (depth : Nat) :
    Reads (afterSpace (lineStart depth ++ text)) v rest := by
  rwa [afterSpace_lineStart, h.afterSpace_eq]

/-- A value reads the same behind the space that follows the name of a field. -/
theorem Reads.afterColon (h : Reads text v rest) : Reads (afterSpace (' ' :: text)) v rest := by
  rwa [show afterSpace (' ' :: text) = afterSpace text from rfl, h.afterSpace_eq]

/-- A field reads from the line that it stands on. -/
theorem readsName_lineStart (depth : Nat) (name rest : Text) :
    ReadsName (afterSpace (lineStart depth ++ (quoted name ++ ':' :: rest))) name rest := by
  rw [afterSpace_lineStart, quoted_append]
  exact .intro (readsString_flatMap name _) rfl

end layouts

mutual

/-- A value that is laid out reads as that value. -/
theorem reads_layoutAt (depth : Nat) (json : Json) {rest : Text} (hrest : Stops rest) :
    Reads (layoutAt depth json ++ rest) json.value rest := by
  cases json with
  | bool b =>
      cases b with
      | true => exact .yes rest
      | false => exact .no rest
  | number n => exact .number (number?_decimal n hrest)
  | string text =>
      rw [layoutAt, quoted_append]
      exact .string (readsString_flatMap text rest)
  | array items =>
      cases items with
      | nil => exact .noItems rfl
      | cons item items =>
          have hread := readsItems_layoutItems (depth + 1) depth (item :: items)
            (List.cons_ne_nil _ _) rest
          simp only [layoutAt, List.cons_append, List.append_assoc, List.nil_append]
          exact .array hread
  | object fields =>
      cases fields with
      | nil => exact .noFields rfl
      | cons field fields =>
          have hread := readsFields_layoutFields (depth + 1) depth (field :: fields)
            (List.cons_ne_nil _ _) rest
          simp only [layoutAt, List.cons_append, List.append_assoc, List.nil_append]
          exact .object hread

theorem readsItems_layoutItems (depth outer : Nat) (items : List Json) (hne : items ≠ [])
    (rest : Text) :
    ReadsItems (layoutItems depth items ++ (lineStart outer ++ ']' :: rest))
      (values items) rest := by
  cases items with
  | nil => contradiction
  | cons item items =>
      cases items with
      | nil =>
          have hitem := reads_layoutAt depth item (stops_lineStart outer (']' :: rest))
          simp only [layoutItems, List.isEmpty_nil, if_true, List.append_nil,
            List.append_assoc]
          exact .last (hitem.onLine depth) (afterSpace_lineStart outer _)
      | cons next items =>
          -- The comma that separates the items also ends a number in front of it.
          have hitem := reads_layoutAt depth item
            (stops_comma (layoutItems depth (next :: items) ++ (lineStart outer ++ ']' :: rest)))
          have hitems := readsItems_layoutItems depth outer (next :: items)
            (List.cons_ne_nil _ _) rest
          rw [layoutItems]
          simp only [List.isEmpty_cons, Bool.false_eq_true, if_false, List.append_assoc,
            List.cons_append, List.nil_append]
          exact .cons (hitem.onLine depth) rfl hitems

theorem readsFields_layoutFields (depth outer : Nat) (fields : List (Text × Json))
    (hne : fields ≠ []) (rest : Text) :
    ReadsFields (layoutFields depth fields ++ (lineStart outer ++ '\x7d' :: rest))
      (fieldValues fields) rest := by
  cases fields with
  | nil => contradiction
  | cons field fields =>
      obtain ⟨name, json⟩ := field
      cases fields with
      | nil =>
          have hvalue := reads_layoutAt depth json (stops_lineStart outer ('\x7d' :: rest))
          simp only [layoutFields, List.isEmpty_nil, if_true, List.append_nil,
            List.append_assoc]
          exact .last (readsName_lineStart depth name _) (hvalue.afterColon)
            (afterSpace_lineStart outer _)
      | cons next fields =>
          have hvalue := reads_layoutAt depth json
            (stops_comma (layoutFields depth (next :: fields) ++
              (lineStart outer ++ '\x7d' :: rest)))
          have hfields := readsFields_layoutFields depth outer (next :: fields)
            (List.cons_ne_nil _ _) rest
          rw [layoutFields]
          simp only [List.isEmpty_cons, Bool.false_eq_true, if_false, List.append_assoc,
            List.cons_append, List.nil_append]
          exact .cons (readsName_lineStart depth name _) hvalue.afterColon rfl hfields

end

/-- A document that is laid out, with white space behind it, says that value and no
other. -/
theorem denotes_layout_iff (json : Json) {space : Text}
    (hspace : ∀ c ∈ space, isSpace c = true) (said : Value) :
    Denotes (json.layout ++ space) said ↔ said = json.value := by
  have hrest : Stops space :=
    stops_of_isSpace fun c hc => hspace c (List.mem_of_mem_head? hc)
  have hread := reads_layoutAt 0 json hrest
  have hdenotes : Denotes (json.layout ++ space) json.value := by
    refine ⟨space, ?_, List.dropWhile_eq_nil_iff.mpr hspace⟩
    rw [layout, hread.afterSpace_eq]
    exact hread
  constructor
  · intro hsaid
    exact hsaid.unique hdenotes
  · rintro rfl
    exact hdenotes

end DdlDiagram.Json
