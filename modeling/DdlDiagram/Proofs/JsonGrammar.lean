/-
The grammar of JSON.  A reading relates a text to what stands at its front and to the
text behind it, with white space between the parts.  No text is read in two ways, so a
document says one thing at most.
-/
import DdlDiagram.Json.Basic
import Mathlib.Algebra.Field.Rat
import Mathlib.Data.Rat.Cast.Order

namespace DdlDiagram.Json

/-- What a document says.  The fields of an object stand as they are written. -/
inductive Value where
  | null
  | bool (value : Bool)
  | number (value : ℚ)
  | string (text : Text)
  | array (items : List Value)
  | object (fields : List (Text × Value))

/-- White space between the parts of a document. -/
def isSpace (c : Char) : Bool :=
  c == ' ' || c == '\t' || c == '\n' || c == '\r'

theorem mem_of_isSpace {c : Char} (h : isSpace c = true) : c ∈ [' ', '\t', '\n', '\r'] := by
  simpa [isSpace, or_assoc] using h

/-- The text behind the white space in front of it. -/
def afterSpace (text : Text) : Text :=
  text.dropWhile isSpace

section numbers

/-- Decimal digits, at least one. -/
def digits? (text : Text) : Option (Text × Text) :=
  let digits := text.takeWhile Char.isDigit
  if digits.isEmpty then none else some (digits, text.dropWhile Char.isDigit)

/-- The digits in front of a decimal point: a zero stands there alone. -/
def whole? (text : Text) : Option (Text × Text) := do
  let (digits, rest) ← digits? text
  if digits.head? = some '0' ∧ digits.length ≠ 1 then none else some (digits, rest)

/-- The digits behind a decimal point, which may be missing. -/
def fraction? : Text → Option (Text × Text)
  | '.' :: rest => digits? rest
  | text => some ([], text)

/-- The power of ten that a number is multiplied by, which may be missing. -/
def exponent? : Text → Option (ℤ × Text)
  | [] => some (0, [])
  | c :: rest =>
      if c = 'e' ∨ c = 'E' then
        match rest with
        | '-' :: rest => (digits? rest).map fun read =>
            (-(Nat.ofDigitChars 10 read.1 0 : ℤ), read.2)
        | '+' :: rest => (digits? rest).map fun read =>
            ((Nat.ofDigitChars 10 read.1 0 : ℤ), read.2)
        | rest => (digits? rest).map fun read =>
            ((Nat.ofDigitChars 10 read.1 0 : ℤ), read.2)
      else some (0, c :: rest)

/-- A number without its sign. -/
def magnitude? (text : Text) : Option (ℚ × Text) := do
  let (whole, text) ← whole? text
  let (fraction, text) ← fraction? text
  let (exponent, rest) ← exponent? text
  return ((Nat.ofDigitChars 10 (whole ++ fraction) 0 : ℚ) *
    10 ^ (exponent - fraction.length), rest)

/-- A number at the front of a text. -/
def number? : Text → Option (ℚ × Text)
  | '-' :: rest => (magnitude? rest).map fun read => (-read.1, read.2)
  | text => magnitude? text

example : number? "-12.50e+1]".toList = some (-125, "]".toList) := by
  decide +kernel

end numbers

section strings

/-- A character that stands for itself in a string. -/
def isPlain (c : Char) : Bool :=
  c != '"' && c != '\\' && 0x20 ≤ c.toNat

/-- The character that a letter behind a backslash stands for. -/
def shortEscape? : Char → Option Char
  | '"' => some '"'
  | '\\' => some '\\'
  | '/' => some '/'
  | 'b' => some '\x08'
  | 'f' => some '\x0c'
  | 'n' => some '\n'
  | 'r' => some '\r'
  | 't' => some '\t'
  | _ => none

/-- The value of a hexadecimal digit, in either case. -/
def hexValue? (c : Char) : Option Nat :=
  if c.isDigit then some (c.toNat - '0'.toNat)
  else if 'a' ≤ c ∧ c ≤ 'f' then some (c.toNat - 'a'.toNat + 10)
  else if 'A' ≤ c ∧ c ≤ 'F' then some (c.toNat - 'A'.toNat + 10)
  else none

/-- A code unit of four hexadecimal digits. -/
def codeUnit? : Text → Option (Nat × Text)
  | a :: b :: c :: d :: rest => do
      let a ← hexValue? a
      let b ← hexValue? b
      let c ← hexValue? c
      let d ← hexValue? d
      return (((a * 16 + b) * 16 + c) * 16 + d, rest)
  | _ => none

def isHighSurrogate (code : Nat) : Bool :=
  0xd800 ≤ code && code < 0xdc00

def isLowSurrogate (code : Nat) : Bool :=
  0xdc00 ≤ code && code < 0xe000

/-- The characters of a string behind the quote that opens it, up to the one that closes
it.  Two surrogates stand for one character, and one alone for none. -/
inductive ReadsString : Text → Text → Text → Prop
  | close (rest : Text) : ReadsString ('"' :: rest) [] rest
  | plain {c : Char} {text content rest : Text} (hc : isPlain c = true)
      (h : ReadsString text content rest) :
      ReadsString (c :: text) (c :: content) rest
  | short {mark c : Char} {text content rest : Text} (hmark : shortEscape? mark = some c)
      (h : ReadsString text content rest) :
      ReadsString ('\\' :: mark :: text) (c :: content) rest
  | unit {code : Nat} {text behind content rest : Text}
      (hunit : codeUnit? text = some (code, behind)) (hhigh : isHighSurrogate code = false)
      (hlow : isLowSurrogate code = false) (h : ReadsString behind content rest) :
      ReadsString ('\\' :: 'u' :: text) (Char.ofNat code :: content) rest
  | pair {high low : Nat} {text middle behind content rest : Text}
      (hunit : codeUnit? text = some (high, '\\' :: 'u' :: middle))
      (hunit' : codeUnit? middle = some (low, behind)) (hhigh : isHighSurrogate high = true)
      (hlow : isLowSurrogate low = true) (h : ReadsString behind content rest) :
      ReadsString ('\\' :: 'u' :: text)
        (Char.ofNat (0x10000 + (high - 0xd800) * 0x400 + (low - 0xdc00)) :: content) rest

/-- The name of a field with the colon behind it. -/
inductive ReadsName : Text → Text → Text → Prop
  | intro {text name behind rest : Text} (h : ReadsString text name behind)
      (hcolon : afterSpace behind = ':' :: rest) : ReadsName ('"' :: text) name rest

end strings

mutual

/-- A value at the front of a text, and the text behind it. -/
inductive Reads : Text → Value → Text → Prop
  | null (rest : Text) : Reads ('n' :: 'u' :: 'l' :: 'l' :: rest) .null rest
  | yes (rest : Text) : Reads ('t' :: 'r' :: 'u' :: 'e' :: rest) (.bool true) rest
  | no (rest : Text) : Reads ('f' :: 'a' :: 'l' :: 's' :: 'e' :: rest) (.bool false) rest
  | number {value : ℚ} {text rest : Text} (h : number? text = some (value, rest)) :
      Reads text (.number value) rest
  | string {text content rest : Text} (h : ReadsString text content rest) :
      Reads ('"' :: text) (.string content) rest
  | noItems {text rest : Text} (h : afterSpace text = ']' :: rest) :
      Reads ('[' :: text) (.array []) rest
  | array {items : List Value} {text rest : Text} (h : ReadsItems text items rest) :
      Reads ('[' :: text) (.array items) rest
  | noFields {text rest : Text} (h : afterSpace text = '\x7d' :: rest) :
      Reads ('\x7b' :: text) (.object []) rest
  | object {fields : List (Text × Value)} {text rest : Text}
      (h : ReadsFields text fields rest) : Reads ('\x7b' :: text) (.object fields) rest

/-- The items of an array, at least one, up to the bracket that closes it. -/
inductive ReadsItems : Text → List Value → Text → Prop
  | last {item : Value} {text behind rest : Text}
      (hitem : Reads (afterSpace text) item behind)
      (hclose : afterSpace behind = ']' :: rest) : ReadsItems text [item] rest
  | cons {item : Value} {items : List Value} {text behind more rest : Text}
      (hitem : Reads (afterSpace text) item behind)
      (hcomma : afterSpace behind = ',' :: more) (hitems : ReadsItems more items rest) :
      ReadsItems text (item :: items) rest

/-- The fields of an object, at least one, up to the bracket that closes it. -/
inductive ReadsFields : Text → List (Text × Value) → Text → Prop
  | last {name : Text} {value : Value} {text named behind rest : Text}
      (hname : ReadsName (afterSpace text) name named)
      (hvalue : Reads (afterSpace named) value behind)
      (hclose : afterSpace behind = '\x7d' :: rest) : ReadsFields text [(name, value)] rest
  | cons {name : Text} {value : Value} {fields : List (Text × Value)}
      {text named behind more rest : Text}
      (hname : ReadsName (afterSpace text) name named)
      (hvalue : Reads (afterSpace named) value behind)
      (hcomma : afterSpace behind = ',' :: more) (hfields : ReadsFields more fields rest) :
      ReadsFields text ((name, value) :: fields) rest

end

/-- A document that says a value: nothing else but white space stands around it. -/
def Denotes (text : Text) (value : Value) : Prop :=
  ∃ rest, Reads (afterSpace text) value rest ∧ afterSpace rest = []

section uniqueness

variable {text rest rest' : Text}

theorem ReadsString.unique {content content' : Text} (h : ReadsString text content rest)
    (h' : ReadsString text content' rest') : content = content' ∧ rest = rest' := by
  induction h generalizing content' rest' with
  | close rest =>
      cases h' with
      | close => exact ⟨rfl, rfl⟩
      | plain hc => contradiction
  | plain hc _ ih =>
      cases h' with
      | plain _ h' =>
          obtain ⟨rfl, rfl⟩ := ih h'
          exact ⟨rfl, rfl⟩
      | close | short | unit | pair => contradiction
  | short hmark _ ih =>
      cases h' with
      | short hmark' h' =>
          obtain rfl := Option.some.inj (hmark.symm.trans hmark')
          obtain ⟨rfl, rfl⟩ := ih h'
          exact ⟨rfl, rfl⟩
      | plain | unit | pair => contradiction
  | unit hunit hhigh _ _ ih =>
      cases h' with
      | unit hunit' _ _ h' =>
          obtain ⟨rfl, rfl⟩ := Prod.mk.inj (Option.some.inj (hunit.symm.trans hunit'))
          obtain ⟨rfl, rfl⟩ := ih h'
          exact ⟨rfl, rfl⟩
      | pair hunit' _ hhigh' =>
          obtain ⟨rfl, rfl⟩ := Prod.mk.inj (Option.some.inj (hunit.symm.trans hunit'))
          rw [hhigh] at hhigh'
          contradiction
      | plain | short => contradiction
  | pair hunit hlowUnit hhigh _ _ ih =>
      cases h' with
      | pair hunit' hlowUnit' _ _ h' =>
          obtain ⟨rfl, htext⟩ := Prod.mk.inj (Option.some.inj (hunit.symm.trans hunit'))
          cases htext
          obtain ⟨rfl, rfl⟩ := Prod.mk.inj (Option.some.inj (hlowUnit.symm.trans hlowUnit'))
          obtain ⟨rfl, rfl⟩ := ih h'
          exact ⟨rfl, rfl⟩
      | unit hunit' hhigh' =>
          obtain ⟨rfl, htext⟩ := Prod.mk.inj (Option.some.inj (hunit.symm.trans hunit'))
          rw [hhigh] at hhigh'
          contradiction
      | plain | short => contradiction

theorem ReadsName.unique {name name' : Text} (h : ReadsName text name rest)
    (h' : ReadsName text name' rest') : name = name' ∧ rest = rest' := by
  cases h with
  | intro hname hcolon =>
      cases h' with
      | intro hname' hcolon' =>
          obtain ⟨rfl, rfl⟩ := hname.unique hname'
          exact ⟨rfl, (List.cons.inj (hcolon.symm.trans hcolon')).2⟩

/-- A number begins with its sign or a digit. -/
theorem number?_head {c : Char} {read : ℚ × Text} (h : number? (c :: text) = some read) :
    c = '-' ∨ c.isDigit = true := by
  by_cases hsign : c = '-'
  · exact Or.inl hsign
  · right
    have hmagnitude : magnitude? (c :: text) = some read := by
      rw [← h, number?]
      rintro rest heq
      exact hsign (List.cons.inj heq).1
    obtain ⟨⟨whole, behind⟩, hwhole, _⟩ := Option.bind_eq_some_iff.mp hmagnitude
    obtain ⟨⟨digits, behind⟩, hdigits, _⟩ := Option.bind_eq_some_iff.mp hwhole
    by_contra hc
    rw [Bool.not_eq_true] at hc
    simp [digits?, hc] at hdigits

/-- No value begins with the bracket that closes an array. -/
theorem ReadsItems.not_close {items : List Value} (h : ReadsItems text items rest) :
    afterSpace text ≠ ']' :: rest' := by
  have hvalue : ∀ {item : Value} {behind : Text},
      ¬ Reads (']' :: rest') item behind := by
    intro item behind hitem
    cases hitem with
    | number hnumber => exact absurd (number?_head hnumber) (by decide)
  intro hclose
  cases h with
  | last hitem | cons hitem =>
      rw [hclose] at hitem
      exact hvalue hitem

/-- No name begins with the bracket that closes an object. -/
theorem ReadsFields.not_close {fields : List (Text × Value)}
    (h : ReadsFields text fields rest) : afterSpace text ≠ '\x7d' :: rest' := by
  intro hclose
  cases h with
  | last hname | cons hname =>
      rw [hclose] at hname
      contradiction

mutual

/-- A text is read in one way. -/
theorem Reads.unique {text rest rest' : Text} {value value' : Value}
    (h : Reads text value rest) (h' : Reads text value' rest') :
    value = value' ∧ rest = rest' := by
  -- Each rule but that of numbers begins with a character of its own, so two rules that
  -- read one text are the same one, unless a number is read.
  cases h with
  | null =>
      cases h' with
      | null => exact ⟨rfl, rfl⟩
      | number hnumber => exact absurd (number?_head hnumber) (by decide)
  | yes =>
      cases h' with
      | yes => exact ⟨rfl, rfl⟩
      | number hnumber => exact absurd (number?_head hnumber) (by decide)
  | no =>
      cases h' with
      | no => exact ⟨rfl, rfl⟩
      | number hnumber => exact absurd (number?_head hnumber) (by decide)
  | number hnumber =>
      cases h' with
      | number hnumber' =>
          obtain ⟨rfl, rfl⟩ := Prod.mk.inj (Option.some.inj (hnumber.symm.trans hnumber'))
          exact ⟨rfl, rfl⟩
      | null | yes | no | string | noItems | array | noFields | object =>
          exact absurd (number?_head hnumber) (by decide)
  | string hcontent =>
      cases h' with
      | string hcontent' =>
          obtain ⟨rfl, rfl⟩ := hcontent.unique hcontent'
          exact ⟨rfl, rfl⟩
      | number hnumber => exact absurd (number?_head hnumber) (by decide)
  | noItems hclose =>
      cases h' with
      | noItems hclose' => exact ⟨rfl, (List.cons.inj (hclose.symm.trans hclose')).2⟩
      | array hitems => exact absurd hclose hitems.not_close
      | number hnumber => exact absurd (number?_head hnumber) (by decide)
  | array hitems =>
      cases h' with
      | noItems hclose => exact absurd hclose hitems.not_close
      | array hitems' =>
          obtain ⟨rfl, rfl⟩ := hitems.unique hitems'
          exact ⟨rfl, rfl⟩
      | number hnumber => exact absurd (number?_head hnumber) (by decide)
  | noFields hclose =>
      cases h' with
      | noFields hclose' => exact ⟨rfl, (List.cons.inj (hclose.symm.trans hclose')).2⟩
      | object hfields => exact absurd hclose hfields.not_close
      | number hnumber => exact absurd (number?_head hnumber) (by decide)
  | object hfields =>
      cases h' with
      | noFields hclose => exact absurd hclose hfields.not_close
      | object hfields' =>
          obtain ⟨rfl, rfl⟩ := hfields.unique hfields'
          exact ⟨rfl, rfl⟩
      | number hnumber => exact absurd (number?_head hnumber) (by decide)

theorem ReadsItems.unique {text rest rest' : Text} {items items' : List Value}
    (h : ReadsItems text items rest) (h' : ReadsItems text items' rest') :
    items = items' ∧ rest = rest' := by
  cases h with
  | last hitem hclose =>
      cases h' with
      | last hitem' hclose' =>
          obtain ⟨rfl, rfl⟩ := hitem.unique hitem'
          exact ⟨rfl, (List.cons.inj (hclose.symm.trans hclose')).2⟩
      | cons hitem' hcomma =>
          obtain ⟨rfl, rfl⟩ := hitem.unique hitem'
          cases hclose.symm.trans hcomma
  | cons hitem hcomma hitems =>
      cases h' with
      | last hitem' hclose =>
          obtain ⟨rfl, rfl⟩ := hitem.unique hitem'
          cases hclose.symm.trans hcomma
      | cons hitem' hcomma' hitems' =>
          obtain ⟨rfl, rfl⟩ := hitem.unique hitem'
          obtain ⟨_, rfl⟩ := List.cons.inj (hcomma.symm.trans hcomma')
          obtain ⟨rfl, rfl⟩ := hitems.unique hitems'
          exact ⟨rfl, rfl⟩

theorem ReadsFields.unique {text rest rest' : Text} {fields fields' : List (Text × Value)}
    (h : ReadsFields text fields rest) (h' : ReadsFields text fields' rest') :
    fields = fields' ∧ rest = rest' := by
  cases h with
  | last hname hvalue hclose =>
      cases h' with
      | last hname' hvalue' hclose' =>
          obtain ⟨rfl, rfl⟩ := hname.unique hname'
          obtain ⟨rfl, rfl⟩ := hvalue.unique hvalue'
          exact ⟨rfl, (List.cons.inj (hclose.symm.trans hclose')).2⟩
      | cons hname' hvalue' hcomma =>
          obtain ⟨rfl, rfl⟩ := hname.unique hname'
          obtain ⟨rfl, rfl⟩ := hvalue.unique hvalue'
          cases hclose.symm.trans hcomma
  | cons hname hvalue hcomma hfields =>
      cases h' with
      | last hname' hvalue' hclose =>
          obtain ⟨rfl, rfl⟩ := hname.unique hname'
          obtain ⟨rfl, rfl⟩ := hvalue.unique hvalue'
          cases hclose.symm.trans hcomma
      | cons hname' hvalue' hcomma' hfields' =>
          obtain ⟨rfl, rfl⟩ := hname.unique hname'
          obtain ⟨rfl, rfl⟩ := hvalue.unique hvalue'
          obtain ⟨_, rfl⟩ := List.cons.inj (hcomma.symm.trans hcomma')
          obtain ⟨rfl, rfl⟩ := hfields.unique hfields'
          exact ⟨rfl, rfl⟩

end

/-- A document says one value. -/
theorem Denotes.unique {value value' : Value} (h : Denotes text value)
    (h' : Denotes text value') : value = value' := by
  obtain ⟨_, hreads, _⟩ := h
  obtain ⟨_, hreads', _⟩ := h'
  exact (hreads.unique hreads').1

end uniqueness

end DdlDiagram.Json
