/-
Table options: the settings that may follow the closing bracket of a table's
body, such as a storage engine or a comment.
-/
import DdlDiagram.Phrase

namespace DdlDiagram.TableOption

open Text Phrase

/-- Option names of one word. -/
def plainNames : List Text :=
  ["ENGINE".toList, "TYPE".toList, "AUTO_INCREMENT".toList,
    "ROW_FORMAT".toList, "KEY_BLOCK_SIZE".toList,
    "STATS_PERSISTENT".toList, "COMMENT".toList, "TABLESPACE".toList]

/-- The text behind the first of several keywords that fits. -/
def afterAny? (keywords : List Text) (text : Text) : Option Text :=
  keywords.findSome? fun keyword => afterKeyword? keyword text

/-- The text behind `CHARSET`, `CHARACTER SET` or `COLLATE`. -/
def afterCharset? (text : Text) : Option Text :=
  ((afterAny? ["CHARSET".toList, "COLLATE".toList] text).or
    ((afterSpacedKeyword? "CHARACTER".toList text).bind
      (afterKeyword? "SET".toList)))

/-- The text behind the name of an option.  The names of character sets and
collations may stand behind `DEFAULT`. -/
def afterName? (text : Text) : Option Text :=
  (afterAny? plainNames text).or
    (afterCharset? ((afterSpacedKeyword? "DEFAULT".toList text).getD text))

/-- The text behind the literal whose contents are given.  In an option's
literal a backslash takes the next character with it in every dialect, except
a newline.  A literal that cannot be closed ends at the first quote of its last
doubled one; `fallback` is the text behind that quote. -/
def afterLiteral? (fallback : Option Text) : Text → Option Text
  | [] => fallback
  | [c] => if c = '\'' then some [] else fallback
  | c :: next :: rest =>
      if c = '\'' then
        if next = '\'' then afterLiteral? (some (next :: rest)) rest
        else some (next :: rest)
      else if c = '\\' then
        if next = '\n' then fallback else afterLiteral? fallback rest
      else afterLiteral? fallback (next :: rest)

/-- The text behind the value of an option, a literal or a word. -/
def afterValue? : Text → Option Text
  | [] => none
  | c :: rest =>
      if c = '\'' then afterLiteral? none rest
      else if isWordChar c then some (rest.dropWhile isWordChar)
      else none

/-- The text behind one option.  A comma may come before it and an equals sign
between its name and its value. -/
def after? (text : Text) : Option Text := do
  let text := trimStart (dropOne (· == ',') (trimStart text))
  let text ← afterName? text
  afterValue? (trimStart (dropOne (· == '=') (trimStart text)))

theorem length_afterLiteral? {fallback : Option Text} {text rest : Text}
    (bound : Nat) (htext : text.length ≤ bound)
    (hfallback : ∀ last ∈ fallback, last.length ≤ bound)
    (h : afterLiteral? fallback text = some rest) : rest.length ≤ bound := by
  fun_induction afterLiteral? fallback text with
  | case1 => exact hfallback rest h
  | case2 => simp_all
  | case3 => exact hfallback rest h
  | case4 _ _ ih =>
      simp only [List.length_cons] at htext
      exact ih (by omega) (by simp; omega) h
  | case5 =>
      simp only [Option.some.injEq] at h
      subst h
      simp only [List.length_cons] at htext ⊢
      omega
  | case6 => exact hfallback rest h
  | case7 _ _ _ _ _ ih =>
      simp only [List.length_cons] at htext
      exact ih (by omega) hfallback h
  | case8 _ _ _ _ _ _ ih =>
      simp only [List.length_cons] at htext ih
      exact ih (by omega) hfallback h

theorem length_afterValue? {text rest : Text}
    (h : afterValue? text = some rest) : rest.length ≤ text.length := by
  cases text with
  | nil => simp [afterValue?] at h
  | cons c tail =>
      simp only [afterValue?] at h
      split at h
      · exact Nat.le_succ_of_le
          (length_afterLiteral? tail.length (Nat.le_refl _) (by simp) h)
      · split at h
        · simp only [Option.some.injEq] at h
          subst h
          exact Nat.le_succ_of_le
            (List.dropWhile_suffix isWordChar).length_le
        · simp at h

theorem length_afterAny? {keywords : List Text} {text rest : Text}
    (hkeywords : ∀ keyword ∈ keywords, keyword ≠ [])
    (h : afterAny? keywords text = some rest) :
    rest.length < text.length := by
  obtain ⟨keyword, hmem, hread⟩ := List.exists_of_findSome?_eq_some h
  have hlength := length_afterKeyword? hread
  have hpos := List.length_pos_iff.mpr (hkeywords keyword hmem)
  omega

theorem length_afterSpacedKeyword? {keyword text rest : Text}
    (h : afterSpacedKeyword? keyword text = some rest) :
    rest.length < text.length := by
  obtain ⟨middle, hkeyword, hblanks⟩ := Option.bind_eq_some_iff.mp h
  have hfirst := length_afterKeyword? hkeyword
  have hsecond := length_afterBlanks? hblanks
  omega

theorem length_afterCharset? {text rest : Text}
    (h : afterCharset? text = some rest) : rest.length < text.length := by
  rcases Option.or_eq_some_iff.mp h with hword | ⟨_, hset⟩
  · exact length_afterAny? (by decide) hword
  · obtain ⟨middle, hfirst, hsecond⟩ := Option.bind_eq_some_iff.mp hset
    have := length_afterSpacedKeyword? hfirst
    have := length_afterKeyword? hsecond
    omega

theorem length_afterName? {text rest : Text}
    (h : afterName? text = some rest) : rest.length < text.length := by
  rcases Option.or_eq_some_iff.mp h with hplain | ⟨_, hcharset⟩
  · exact length_afterAny? (by decide) hplain
  · have hlength := length_afterCharset? hcharset
    cases hdefault : afterSpacedKeyword? "DEFAULT".toList text with
    | none => simpa only [hdefault, Option.getD_none] using hlength
    | some middle =>
        have := length_afterSpacedKeyword? hdefault
        simp only [hdefault, Option.getD_some] at hlength
        omega

/-- An option is never empty. -/
theorem length_after? {text rest : Text} (h : after? text = some rest) :
    rest.length < text.length := by
  simp only [after?, Option.bind_eq_bind] at h
  obtain ⟨middle, hname, hvalue⟩ := Option.bind_eq_some_iff.mp h
  have h₁ := length_trimStart_le text
  have h₂ := length_dropOne_le (· == ',') (trimStart text)
  have h₃ := length_trimStart_le (dropOne (· == ',') (trimStart text))
  have h₄ := length_afterName? hname
  have h₅ := length_trimStart_le middle
  have h₆ := length_dropOne_le (· == '=') (trimStart middle)
  have h₇ := length_trimStart_le (dropOne (· == '=') (trimStart middle))
  have h₈ := length_afterValue? hvalue
  omega

/-- The text behind all options in front of it. -/
def afterAll (text : Text) : Text :=
  match _h : after? text with
  | none => text
  | some rest => afterAll rest
termination_by text.length
decreasing_by exact length_after? _h

example : afterAll
    " ENGINE=InnoDB, default CHARSET utf8mb4 COMMENT='it''s, (old)';".toList =
      ";".toList := by
  decide +kernel

end DdlDiagram.TableOption
