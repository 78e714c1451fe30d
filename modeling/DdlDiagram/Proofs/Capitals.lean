/-
Text in ASCII capitals.  Only the twenty-six small letters change, to characters of
the same size and the same classes, so trimming, cutting and comparing do the same
to a text and to its capitals, and so does reading literals, comments and brackets.
-/
import DdlDiagram.CleanText
import DdlDiagram.Proofs.Wording
import DdlDiagram.TableBody
import Mathlib.Data.List.Basic
import Mathlib.Data.List.TakeWhile

namespace DdlDiagram

open Text

namespace Text

/-- The text in ASCII capitals; other characters stay. -/
def asciiUpper (text : Text) : Text :=
  text.map Char.toUpper

/-- The letters whose capitals are other characters. -/
def smallLetters : List Char :=
  "abcdefghijklmnopqrstuvwxyz".toList

section characters

variable {c : Char}

theorem toUpper_eq_or_mem (c : Char) : c.toUpper = c ∨ c ∈ smallLetters := by
  by_cases hbounds : c.val ≥ 'a'.val ∧ c.val ≤ 'z'.val
  · right
    have hall : ∀ code < 26, Char.ofNat (97 + code) ∈ smallLetters := by decide
    obtain ⟨hleft, hright⟩ := hbounds
    have hlow : 97 ≤ c.toNat := UInt32.le_iff_toNat_le.mp hleft
    have hhigh : c.toNat ≤ 122 := UInt32.le_iff_toNat_le.mp hright
    have hmem := hall (c.toNat - 97) (by omega)
    rwa [Nat.add_sub_cancel' hlow, Char.ofNat_toNat] at hmem
  · exact Or.inl (dif_neg hbounds)

/-- What holds of a character with itself, and of the small letters with their
capitals, holds of every character with its capital. -/
theorem forall_toUpper {p : Char → Char → Prop} (hsame : ∀ c, p c c)
    (hsmall : ∀ c ∈ smallLetters, p c.toUpper c) (c : Char) : p c.toUpper c := by
  rcases toUpper_eq_or_mem c with hc | hc
  · rw [hc]
    exact hsame c
  · exact hsmall c hc

variable (c)

@[simp] theorem utf8Size_toUpper : c.toUpper.utf8Size = c.utf8Size :=
  forall_toUpper (p := fun upper c => upper.utf8Size = c.utf8Size)
    (fun _ => rfl) (by decide) c

@[simp] theorem isBlank_toUpper : isBlank c.toUpper = isBlank c :=
  forall_toUpper (p := fun upper c => isBlank upper = isBlank c)
    (fun _ => rfl) (by decide) c

@[simp] theorem isWordChar_toUpper : isWordChar c.toUpper = isWordChar c :=
  forall_toUpper (p := fun upper c => isWordChar upper = isWordChar c)
    (fun _ => rfl) (by decide) c

@[simp] theorem isAlphanumeric_toUpper :
    isAlphanumeric c.toUpper = isAlphanumeric c :=
  forall_toUpper (p := fun upper c => isAlphanumeric upper = isAlphanumeric c)
    (fun _ => rfl) (by decide) c

@[simp] theorem isAlpha_toUpper : c.toUpper.isAlpha = c.isAlpha :=
  forall_toUpper (p := fun upper c => upper.isAlpha = c.isAlpha)
    (fun _ => rfl) (by decide) c

@[simp] theorem toLower_toUpper : c.toUpper.toLower = c.toLower :=
  forall_toUpper (p := fun upper c => upper.toLower = c.toLower)
    (fun _ => rfl) (by decide) c

@[simp] theorem foldCapital_toUpper : foldCapital c.toUpper = foldCapital c :=
  forall_toUpper (p := fun upper c => foldCapital upper = foldCapital c)
    (fun _ => rfl) (by decide) c

@[simp] theorem capitals_toUpper : capitals c.toUpper = capitals c :=
  forall_toUpper (p := fun upper c => capitals upper = capitals c)
    (fun _ => rfl) (by decide) c

variable {c}

/-- A character that is no letter is the capital of itself alone. -/
theorem toUpper_eq_iff {sign : Char} (hsign : sign.isAlpha = false) :
    c.toUpper = sign ↔ c = sign := by
  rcases toUpper_eq_or_mem c with hc | hc
  · rw [hc]
  · have hletters : ∀ c ∈ smallLetters, c.isAlpha = true := by decide
    have hletter := hletters c hc
    constructor
    · rintro rfl
      rw [isAlpha_toUpper, hletter] at hsign
      contradiction
    · rintro rfl
      rw [hletter] at hsign
      contradiction

theorem toUpper_beq {sign : Char} (hsign : sign.isAlpha = false) :
    (c.toUpper == sign) = (c == sign) := by
  rw [Bool.eq_iff_iff, beq_iff_eq, beq_iff_eq, toUpper_eq_iff hsign]

theorem toUpper_bne {sign : Char} (hsign : sign.isAlpha = false) :
    (c.toUpper != sign) = (c != sign) := by
  rw [bne, bne, toUpper_beq hsign]

end characters

section texts

variable (text left right : Text) {p : Char → Bool} {mark : Char}

@[simp] theorem asciiUpper_nil : asciiUpper [] = [] := rfl

@[simp] theorem asciiUpper_cons (c : Char) :
    asciiUpper (c :: text) = c.toUpper :: asciiUpper text := rfl

@[simp] theorem asciiUpper_append :
    asciiUpper (left ++ right) = asciiUpper left ++ asciiUpper right :=
  List.map_append

@[simp] theorem length_asciiUpper : (asciiUpper text).length = text.length :=
  List.length_map _

@[simp] theorem isEmpty_asciiUpper : (asciiUpper text).isEmpty = text.isEmpty :=
  List.isEmpty_map

theorem take_asciiUpper (count : Nat) :
    (asciiUpper text).take count = asciiUpper (text.take count) :=
  List.map_take.symm

@[simp] theorem byteLength_asciiUpper :
    byteLength (asciiUpper text) = byteLength text := by
  induction text with
  | nil => rfl
  | cons c rest ih => simp [ih]

@[simp] theorem dropBytes_asciiUpper (count : Nat) :
    dropBytes count (asciiUpper text) = asciiUpper (dropBytes count text) := by
  fun_induction dropBytes count text with
  | case1 => simp
  | case2 => rfl
  | case3 count c rest ih => simp [dropBytes, ih]

@[simp] theorem takeBytes_asciiUpper (count : Nat) :
    takeBytes count (asciiUpper text) = asciiUpper (takeBytes count text) := by
  fun_induction takeBytes count text with
  | case1 => simp
  | case2 => rfl
  | case3 count c rest ih => simp [takeBytes, ih]

@[simp] theorem between_asciiUpper (start stop : Nat) :
    between start stop (asciiUpper text) = asciiUpper (between start stop text) := by
  simp [between]

variable (hp : ∀ c : Char, p c.toUpper = p c)

section classes

include hp

theorem takeWhile_asciiUpper :
    (asciiUpper text).takeWhile p = asciiUpper (text.takeWhile p) := by
  rw [asciiUpper, List.takeWhile_map, show p ∘ Char.toUpper = p from funext hp]
  rfl

theorem dropWhile_asciiUpper :
    (asciiUpper text).dropWhile p = asciiUpper (text.dropWhile p) := by
  rw [asciiUpper, List.dropWhile_map, show p ∘ Char.toUpper = p from funext hp]
  rfl

theorem trimMatching_asciiUpper :
    trimMatching p (asciiUpper text) = asciiUpper (trimMatching p text) := by
  rw [trimMatching, trimMatching, dropWhile_asciiUpper text hp, asciiUpper,
    ← List.map_reverse, ← asciiUpper, dropWhile_asciiUpper _ hp, asciiUpper,
    ← List.map_reverse]
  rfl

end classes

@[simp] theorem trimStart_asciiUpper :
    trimStart (asciiUpper text) = asciiUpper (trimStart text) :=
  dropWhile_asciiUpper text isBlank_toUpper

@[simp] theorem trim_asciiUpper : trim (asciiUpper text) = asciiUpper (trim text) :=
  trimMatching_asciiUpper text isBlank_toUpper

@[simp] theorem firstWord_asciiUpper :
    firstWord (asciiUpper text) = asciiUpper (firstWord text) := by
  rw [firstWord, trimStart_asciiUpper]
  exact takeWhile_asciiUpper _ (by simp)

theorem before_asciiUpper (hmark : mark.isAlpha = false) :
    before mark (asciiUpper text) = asciiUpper (before mark text) :=
  takeWhile_asciiUpper text fun _ => toUpper_bne hmark

@[simp] theorem cutWords_asciiUpper :
    cutWords (asciiUpper text) =
      (cutWords text).map asciiUpper (List.map asciiUpper) := by
  induction text with
  | nil => rfl
  | cons c rest ih =>
      simp only [asciiUpper_cons, cutWords, isBlank_toUpper, ih, Prod.map_fst,
        Prod.map_snd, isEmpty_asciiUpper]
      by_cases hc : isBlank c = true
      · simp only [hc, ↓reduceIte, Prod.map_apply, asciiUpper_nil]
        by_cases hempty : (cutWords rest).1.isEmpty = true
        · simp only [hempty, ↓reduceIte]
        · simp only [hempty, Bool.false_eq_true, ↓reduceIte, List.map_cons]
      · simp only [hc, Bool.false_eq_true, ↓reduceIte, Prod.map_apply,
          asciiUpper_cons]

@[simp] theorem words_asciiUpper :
    words (asciiUpper text) = (words text).map asciiUpper := by
  simp only [words, cutWords_asciiUpper, Prod.map_fst, Prod.map_snd,
    isEmpty_asciiUpper]
  split <;> rfl

theorem cutAt_asciiUpper (hmark : mark.isAlpha = false) :
    cutAt mark (asciiUpper text) =
      (cutAt mark text).map asciiUpper (List.map asciiUpper) := by
  induction text with
  | nil => rfl
  | cons c rest ih =>
      simp only [asciiUpper_cons, cutAt, toUpper_eq_iff hmark, ih]
      split <;> rfl

theorem splitAt_asciiUpper (hmark : mark.isAlpha = false) :
    splitAt mark (asciiUpper text) = (splitAt mark text).map asciiUpper := by
  rw [splitAt, splitAt, cutAt_asciiUpper text hmark]
  rfl

theorem contains_asciiUpper (hmark : mark.isAlpha = false) :
    (asciiUpper text).contains mark = text.contains mark := by
  induction text with
  | nil => rfl
  | cons c rest ih =>
      rw [asciiUpper_cons, List.contains_cons, List.contains_cons, ih]
      congr 1
      rw [Bool.beq_comm, toUpper_beq hmark, Bool.beq_comm]

@[simp] theorem asciiLower_asciiUpper :
    asciiLower (asciiUpper text) = asciiLower text := by
  simp [asciiLower, asciiUpper, Function.comp_def]

@[simp] theorem sameName_asciiUpper :
    sameName (asciiUpper left) (asciiUpper right) = sameName left right := by
  simp [sameName]

@[simp] theorem upper_asciiUpper : upper (asciiUpper text) = upper text := by
  simp [upper, asciiUpper, List.flatMap_map]

@[simp] theorem lower_asciiUpper : lower (asciiUpper text) = lower text := by
  rw [lower, lower, asciiUpper, List.map_map]
  apply List.map_congr_left
  intro c _
  have hlower : ∀ c : Char,
      (if c.toUpper = '\u212A' then 'k' else c.toUpper.toLower) =
        if c = '\u212A' then 'k' else c.toLower := by
    intro c
    simp (disch := decide) only [toUpper_eq_iff, toLower_toUpper]
  exact hlower c

end texts

end Text

/-- A character with its mode, as a capital. -/
def Glyph.asciiUpper (glyph : Glyph) : Glyph :=
  ⟨glyph.mode, glyph.char.toUpper⟩

namespace Lexis

variable (lexis : Lexis)

/-- No letter changes how the text behind it is read. -/
@[simp] theorem step_toUpper (mode : Mode) (c : Char) :
    lexis.step mode c.toUpper = lexis.step mode c := by
  cases mode <;> simp [step, afterCode, toUpper_eq_iff, toUpper_beq]

@[simp] theorem run_asciiUpper (mode : Mode) (text : Text) :
    lexis.run mode (asciiUpper text) = lexis.run mode text := by
  induction text generalizing mode with
  | nil => rfl
  | cons c rest ih => simp [ih]

@[simp] theorem trace_asciiUpper (mode : Mode) (text : Text) :
    lexis.trace mode (asciiUpper text) =
      (lexis.trace mode text).map Glyph.asciiUpper := by
  induction text generalizing mode with
  | nil => rfl
  | cons c rest ih => simp [ih, Glyph.asciiUpper]

section glyphs

variable (glyph : Glyph)

theorem isCode_asciiUpper {sign : Char} (hsign : sign.isAlpha = false) :
    glyph.asciiUpper.isCode sign = glyph.isCode sign := by
  rw [Glyph.isCode, Glyph.isCode, Glyph.asciiUpper, toUpper_beq hsign]

theorem released_toUpper (c : Char) :
    released c.toUpper = asciiUpper (released c) := by
  simp (disch := decide) only [released, toUpper_eq_iff]
  split <;> rfl

theorem kept_asciiUpper : kept glyph.asciiUpper = asciiUpper (kept glyph) := by
  obtain ⟨mode, c⟩ := glyph
  cases mode <;>
    simp (disch := decide) only [kept, Glyph.asciiUpper, released_toUpper, toUpper_eq_iff] <;>
    first | rfl | (split <;> rfl)

theorem blanked_asciiUpper :
    lexis.blanked glyph.asciiUpper = asciiUpper (lexis.blanked glyph) := by
  obtain ⟨mode, c⟩ := glyph
  cases mode <;>
    simp (disch := decide) only [blanked, Glyph.asciiUpper, toUpper_eq_iff, toUpper_beq] <;>
    first | rfl | (split <;> first | rfl | (split <;> rfl))

end glyphs

theorem asciiUpper_flatMap {f : Glyph → Text}
    (hf : ∀ glyph, f glyph.asciiUpper = asciiUpper (f glyph)) (glyphs : List Glyph) :
    (glyphs.map Glyph.asciiUpper).flatMap f = asciiUpper (glyphs.flatMap f) := by
  rw [List.flatMap_map, asciiUpper, List.map_flatMap]
  exact List.flatMap_congr fun glyph _ => hf glyph

@[simp] theorem withoutComments_asciiUpper (text : Text) :
    lexis.withoutComments (asciiUpper text) =
      asciiUpper (lexis.withoutComments text) := by
  have hend : ∀ mode, asciiUpper (keptAtEnd mode) = keptAtEnd mode := by
    intro mode
    cases mode <;> rfl
  rw [withoutComments, withoutComments, trace_asciiUpper, run_asciiUpper,
    asciiUpper_flatMap kept_asciiUpper, asciiUpper_append, hend]

@[simp] theorem blankLiterals_asciiUpper (text : Text) :
    lexis.blankLiterals (asciiUpper text) =
      asciiUpper (lexis.blankLiterals text) := by
  rw [blankLiterals, blankLiterals, trace_asciiUpper, run_asciiUpper,
    asciiUpper_flatMap lexis.blanked_asciiUpper, asciiUpper_append]
  congr 1
  split <;> rfl

theorem cutParts_asciiUpper (depth : Int) (glyphs : List Glyph) :
    cutParts depth (glyphs.map Glyph.asciiUpper) =
      (cutParts depth glyphs).map asciiUpper (List.map asciiUpper) := by
  induction glyphs generalizing depth with
  | nil => rfl
  | cons glyph rest ih =>
      have hdepth : depthAfter depth glyph.asciiUpper = depthAfter depth glyph := by
        simp (disch := decide) only [depthAfter, isCode_asciiUpper]
      simp (disch := decide) only [List.map_cons, cutParts, hdepth, ih, isSeparator,
        isCode_asciiUpper]
      by_cases hseparator : (glyph.isCode ',' && depth == 0) = true
      · simp only [hseparator, ↓reduceIte]
        rfl
      · simp only [hseparator, Bool.false_eq_true, ↓reduceIte]
        rfl

theorem dropEmptyLast_asciiUpper (parts : List Text) :
    dropEmptyLast (parts.map asciiUpper) = (dropEmptyLast parts).map asciiUpper := by
  fun_induction dropEmptyLast parts with
  | case1 => rfl
  | case2 part hempty => simp [dropEmptyLast, hempty]
  | case3 part hempty => simp [dropEmptyLast, hempty]
  | case4 part next rest ih => simpa [dropEmptyLast] using ih

@[simp] theorem parts_asciiUpper (body : Text) :
    lexis.parts (asciiUpper body) = (lexis.parts body).map asciiUpper := by
  have htrim : trim ∘ asciiUpper = asciiUpper ∘ trim := funext trim_asciiUpper
  rw [parts, parts, trace_asciiUpper, cutParts_asciiUpper]
  simp only [Prod.map_fst, Prod.map_snd]
  rw [← List.map_cons, List.map_map, htrim, ← List.map_map, dropEmptyLast_asciiUpper]

theorem ofGlyphs_asciiUpper (offset : Nat) (glyphs : List Glyph) :
    Bracket.ofGlyphs offset (glyphs.map Glyph.asciiUpper) =
      Bracket.ofGlyphs offset glyphs := by
  induction glyphs generalizing offset with
  | nil => rfl
  | cons glyph rest ih =>
      have hsize : glyph.asciiUpper.char.utf8Size = glyph.char.utf8Size :=
        utf8Size_toUpper glyph.char
      simp (disch := decide) only [List.map_cons, Bracket.ofGlyphs, ih, hsize,
        isCode_asciiUpper]

@[simp] theorem bracketPairs_asciiUpper (text : Text) :
    lexis.bracketPairs (asciiUpper text) = lexis.bracketPairs text := by
  rw [bracketPairs, bracketPairs, brackets, brackets, trace_asciiUpper,
    ofGlyphs_asciiUpper]

end Lexis

end DdlDiagram
