/-
Where name quotes are taken out.  The reader of quotes knows literals and no comments,
so it stands in the literals of the text as long as no comment has an apostrophe: up to
the first one, quotes go from the code and stay in the literals.  Behind it the reader
may have taken the two for each other.
-/
import DdlDiagram.Proofs.LiteralReading

namespace DdlDiagram

open Text
open Lexis (Outside Follows)

namespace Lexis

/-- No apostrophe of a text is read in a comment. -/
def QuotelessComments (lexis : Lexis) (mode : Mode) (text : Text) : Prop :=
  ∀ glyph ∈ lexis.trace mode text, glyph.mode.inComment = true → glyph.char ≠ '\''

instance (lexis : Lexis) (mode : Mode) (text : Text) :
    Decidable (lexis.QuotelessComments mode text) :=
  inferInstanceAs (Decidable (∀ glyph ∈ lexis.trace mode text, _))

section comments

variable (escapes : Bool) {mode other : Mode}

/-- Outside literals, a character that opens none is read as code. -/
theorem outside_step (h : Outside other) {c : Char} (hc : c ≠ '\'') :
    (Lexis.mk escapes false).step other c = .code := by
  rcases h with rfl | rfl <;> simp [step, afterCode, hc]

/-- The reader that knows no comments keeps in step through a comment without an
apostrophe. -/
theorem follows_step_quoteless (h : Follows mode other) (c : Char)
    (hc : mode.inComment = true → c ≠ '\'') :
    Follows ((Lexis.mk escapes true).step mode c)
      ((Lexis.mk escapes false).step other c) := by
  cases mode with
  | line | block | star =>
      rw [outside_step escapes h (hc rfl)]
      simp only [step]
      split_ifs <;> first | exact rfl | exact Or.inl rfl
  | dash =>
      by_cases hdash : c = '-'
      · subst hdash
        rw [outside_step escapes h (by decide)]
        exact Or.inl rfl
      · refine follows_step_uncommented escapes h rfl c ?_
        simp only [step, hdash, ↓reduceIte, afterCode]
        split_ifs <;> rfl
  | slash =>
      by_cases hstar : c = '*'
      · subst hstar
        rw [outside_step escapes h (by decide)]
        exact Or.inl rfl
      · refine follows_step_uncommented escapes h rfl c ?_
        simp only [step, hstar, ↓reduceIte, afterCode]
        split_ifs <;> rfl
  | code | closed =>
      refine follows_step_uncommented escapes h rfl c ?_
      simp only [step, afterCode]
      split_ifs <;> rfl
  | literal =>
      refine follows_step_uncommented escapes h rfl c ?_
      simp only [step]
      split_ifs <;> rfl
  | escaped => exact follows_step_uncommented escapes h rfl c rfl

theorem follows_run_quoteless (h : Follows mode other) {text : Text}
    (htext : (Lexis.mk escapes true).QuotelessComments mode text) :
    Follows ((Lexis.mk escapes true).run mode text)
      ((Lexis.mk escapes false).run other text) := by
  induction text generalizing mode other with
  | nil => exact h
  | cons c rest ih =>
      obtain ⟨hfirst, hrest⟩ := List.forall_mem_cons.mp htext
      exact ih (follows_step_quoteless escapes h c hfirst) hrest

end comments

end Lexis

/-- Up to the first apostrophe in a comment, the reader of quotes stands in the
literals of the text. -/
theorem Dialect.inLiteral_literalLexis (dialect : Dialect) {text : Text}
    (h : dialect.lexis.QuotelessComments .code text) :
    (dialect.literalLexis.run .code text).inLiteral =
      (dialect.lexis.run .code text).inLiteral := by
  have hstart : Follows .code .code := rfl
  exact (Lexis.follows_run_quoteless dialect.backslashEscapes hstart h).inLiteral

namespace Text

variable {kept : List Bool} {text front rest : Text} {c : Char}

/-- The characters of a text that are marked to be kept. -/
def keeping (kept : List Bool) (text : Text) : Text :=
  ((text.zip kept).filter Prod.snd).map Prod.fst

/-- What keeps its length keeps every character. -/
theorem eq_true_of_length_keeping (hlength : kept.length = text.length)
    (h : (keeping kept text).length = text.length) {mark : Bool} (hmark : mark ∈ kept) :
    mark = true := by
  have hzip : (text.zip kept).length = text.length := by simp [hlength]
  rw [keeping, List.length_map, ← hzip, List.length_filter_eq_length_iff] at h
  have hmarks : (text.zip kept).map Prod.snd = kept :=
    List.map_snd_zip (Nat.le_of_eq hlength)
  rw [← hmarks] at hmark
  obtain ⟨pair, hpair, rfl⟩ := List.mem_map.mp hmark
  exact h pair hpair

theorem keeping_eq_self (hlength : kept.length = text.length)
    (h : ∀ mark ∈ kept, mark = true) : keeping kept text = text := by
  have hall : (text.zip kept).filter Prod.snd = text.zip kept := by
    rw [List.filter_eq_self]
    exact fun pair hpair => h pair.2 (List.of_mem_zip hpair).2
  rw [keeping, hall, List.map_fst_zip (Nat.le_of_eq hlength.symm)]

end Text

namespace CleanText

/-- A text is another one without some of its name quotes.  At the places whose text in
front is among the given ones, no character of a literal is gone and every name quote
of code is. -/
def TakesQuotes (dialect : Dialect) (places : Text → Prop) (sql plain : Text) : Prop :=
  ∃ kept : List Bool, kept.length = sql.length ∧ plain = keeping kept sql ∧
    ∀ front c rest, sql = front ++ c :: rest →
      (kept[front.length]? = some false → c ∈ dialect.nameQuotes) ∧
      (places front →
        ((dialect.lexis.run .code front).inLiteral = true →
          kept[front.length]? = some true) ∧
        ((dialect.lexis.run .code front).inCode = true → c ∈ dialect.nameQuotes →
          kept[front.length]? = some false))

/-- Which characters of a text stay in it. -/
def keptMarks (dialect : Dialect) (text : Text) : List Bool :=
  (dialect.literalLexis.trace .code text).map (isKept dialect)

theorem length_keptMarks (dialect : Dialect) (text : Text) :
    (keptMarks dialect text).length = text.length := by
  simp [keptMarks]

theorem unquoteNames_eq_keeping (dialect : Dialect) (text : Text) :
    unquoteNames dialect text = keeping (keptMarks dialect text) text := by
  have hzip : text.zip (keptMarks dialect text) =
      (dialect.literalLexis.trace .code text).map fun glyph =>
        (glyph.char, isKept dialect glyph) := by
    rw [← List.zip_map', Lexis.map_char_trace]
    rfl
  rw [keeping, hzip, List.filter_map, List.map_map]
  rfl

theorem getElem?_keptMarks (dialect : Dialect) (front : Text) (c : Char) (rest : Text) :
    (keptMarks dialect (front ++ c :: rest))[front.length]? =
      some (isKept dialect ⟨dialect.literalLexis.run .code front, c⟩) := by
  simp [keptMarks, Lexis.trace_append]

/-- Only name quotes are taken out; up to the first apostrophe in a comment, none from
a literal and every one from the code. -/
theorem unquoteNames_takesQuotes (dialect : Dialect) (sql : Text) :
    TakesQuotes dialect (dialect.lexis.QuotelessComments .code) sql
      (unquoteNames dialect sql) := by
  refine ⟨keptMarks dialect sql, length_keptMarks dialect sql,
    unquoteNames_eq_keeping dialect sql, ?_⟩
  rintro front c rest rfl
  rw [getElem?_keptMarks]
  refine ⟨fun hgone => ?_, fun hfront => ⟨fun hliteral => ?_, fun hcode hquote => ?_⟩⟩
  · have hkept := Option.some.inj hgone
    simp only [isKept, Bool.or_eq_false_iff, Bool.not_eq_false',
      List.contains_iff_mem] at hkept
    exact hkept.2
  · rw [← dialect.inLiteral_literalLexis hfront] at hliteral
    simp [isKept, hliteral]
  · have hout := Lexis.inLiteral_of_inCode hcode
    rw [← dialect.inLiteral_literalLexis hfront] at hout
    simp [isKept, hout, hquote]

section everywhere

variable {dialect : Dialect} {sql plain : Text}
  (h : TakesQuotes dialect (fun _ => True) sql plain)
include h

/-- A text loses its name quotes of code. -/
theorem TakesQuotes.ne_self {front rest : Text} {c : Char} (hsql : sql = front ++ c :: rest)
    (hcode : (dialect.lexis.run .code front).inCode = true)
    (hquote : c ∈ dialect.nameQuotes) : plain ≠ sql := by
  obtain ⟨kept, hlength, rfl, hplaces⟩ := h
  intro hsame
  have hgone := ((hplaces front c rest hsql).2 trivial).2 hcode hquote
  have htrue := eq_true_of_length_keeping hlength (congrArg List.length hsame)
    (List.mem_of_getElem? hgone)
  contradiction

/-- A text whose name quotes all stand in literals loses none. -/
theorem TakesQuotes.eq_self (hquotes : ∀ glyph ∈ dialect.lexis.trace .code sql,
    glyph.char ∈ dialect.nameQuotes → glyph.mode.inLiteral = true) : plain = sql := by
  obtain ⟨kept, hlength, rfl, hplaces⟩ := h
  refine keeping_eq_self hlength fun mark hmark => ?_
  obtain ⟨index, hindex, rfl⟩ := List.getElem_of_mem hmark
  by_contra hgone
  obtain ⟨front, c, rest, rfl, rfl⟩ : ∃ front c rest, sql = front ++ c :: rest ∧
      front.length = index := by
    have hlt : index < sql.length := hlength ▸ hindex
    exact ⟨sql.take index, sql[index], sql.drop (index + 1), by simp, by simp; omega⟩
  obtain ⟨hquote, hplace⟩ := hplaces front c rest rfl
  rw [List.getElem?_eq_getElem hindex] at hquote hplace
  have hglyph : ⟨dialect.lexis.run .code front, c⟩ ∈
      dialect.lexis.trace .code (front ++ c :: rest) := by
    rw [Lexis.trace_append, Lexis.trace_cons]
    exact List.mem_append_right _ List.mem_cons_self
  have hliteral := hquotes _ hglyph (hquote (by simpa using hgone))
  exact hgone (Option.some.inj ((hplace trivial).1 hliteral))

end everywhere

/-- An apostrophe in a comment hides the name quotes of the code behind it, and bares
those of a literal. -/
theorem not_takesQuotes :
    ¬ TakesQuotes .mysql (fun _ => True) "-- it's\n`a`".toList
        (unquoteNames .mysql "-- it's\n`a`".toList) ∧
      ¬ TakesQuotes .mysql (fun _ => True) "-- it's\n'`q`'".toList
        (unquoteNames .mysql "-- it's\n'`q`'".toList) := by
  constructor
  · intro h
    have hsql : "-- it's\n`a`".toList = "-- it's\n".toList ++ '`' :: "a`".toList := rfl
    exact h.ne_self hsql (by decide) (by decide) (by decide +kernel)
  · intro h
    exact absurd (h.eq_self (by decide +kernel)) (by decide +kernel)

end CleanText

end DdlDiagram
