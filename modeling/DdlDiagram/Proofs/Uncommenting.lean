/-
Comments out of a text, lexeme by lexeme.  A block comment leaves a blank, a line comment
nothing in front of the newline that ends it, and every other lexeme itself.  What is left
is read as just these lexemes: no two of them run into one another, since behind a comment
stands a blank, a newline or the end of the text.  So no comment is left, and nothing but
comments and blanks is gone.
-/
import DdlDiagram.Proofs.LiteralReading
import DdlDiagram.Proofs.Moving

namespace DdlDiagram

open Text

namespace Lexeme

/-- What is left of a lexeme where comments are taken out.  The newline behind a line
comment is a lexeme by itself. -/
def left : Lexeme → List Lexeme
  | comment ('/' :: _) => [code ' ']
  | comment _ => []
  | lexeme => [lexeme]

def isComment : Lexeme → Bool
  | comment _ => true
  | _ => false

/-- A blank outside literals. -/
def isSpace : Lexeme → Bool
  | code c => isBlank c
  | _ => false

/-- The text of a literal, with its quotes. -/
def literal? : Lexeme → Option Text
  | literal text => some text
  | _ => none

variable (escapes : Bool)

/-- The first lexeme leaves what is left of it, and the text behind it loses its comments
by itself. -/
theorem withoutComments_first (c : Char) (rest : Text) :
    (Lexis.mk escapes true).withoutComments (c :: rest) =
      (first escapes c rest).1.left.flatMap text ++
        (Lexis.mk escapes true).withoutComments (first escapes c rest).2 := by
  unfold first
  split
  · next hc =>
      subst hc
      change '\'' :: (Lexis.mk escapes true).withoutCommentsFrom .literal rest = _
      rw [Lexis.withoutCommentsFrom_literal]
      simp [left, text]
  · next hquote =>
      split
      · next hopens =>
          obtain ⟨rfl, hnext⟩ := hopens
          obtain ⟨tail, rfl⟩ := List.head?_eq_some_iff.mp hnext
          exact Lexis.withoutCommentsFrom_line escapes tail
      · next hline =>
          split
          · next hopens =>
              obtain ⟨rfl, hnext⟩ := hopens
              obtain ⟨tail, rfl⟩ := List.head?_eq_some_iff.mp hnext
              exact Lexis.withoutCommentsFrom_block escapes tail
          · next hblock => exact Lexis.withoutComments_code escapes hquote hline hblock

/-- The text without comments is what is left of its lexemes. -/
theorem withoutComments_eq (sql : Text) :
    (Lexis.mk escapes true).withoutComments sql =
      ((all escapes sql).flatMap left).flatMap text := by
  fun_induction all escapes sql with
  | case1 => rfl
  | case2 c rest ih =>
      rw [withoutComments_first, ih, List.flatMap_cons, List.flatMap_append]

theorem cutLiteral_cons {c : Char} (hquote : c ≠ '\'') (hescape : ¬(escapes && c == '\\') = true)
    (rest : Text) :
    cutLiteral escapes (c :: rest) =
      (c :: (cutLiteral escapes rest).1, (cutLiteral escapes rest).2) := by
  cases rest with
  | nil => rfl
  | cons next tail => rw [cutLiteral, if_neg hquote, if_neg hescape]

/-- A literal ends where it ended, when what stands behind it is replaced by a text that
does not open one. -/
theorem cutLiteral_replace (sql : Text) {behind : Text}
    (hnil : (cutLiteral escapes sql).2 = [] → behind = [])
    (hquote : behind.head? = some '\'' → (cutLiteral escapes sql).2.head? = some '\'') :
    cutLiteral escapes ((cutLiteral escapes sql).1 ++ behind) =
      ((cutLiteral escapes sql).1, behind) := by
  fun_induction cutLiteral escapes sql with
  | case1 =>
      rw [hnil rfl]
      rfl
  | case2 c =>
      rw [hnil rfl]
      rfl
  | case3 rest cut ih =>
      have hcut := ih hnil hquote
      simp only [List.cons_append, cutLiteral, ↓reduceIte, cut, hcut]
  | case4 next rest hnext =>
      cases behind with
      | nil => rfl
      | cons other tail =>
          have hother : other ≠ '\'' := by
            rintro rfl
            exact hnext (Option.some.inj (hquote rfl))
          simp [cutLiteral, hother]
  | case5 c next rest hc hescape cut ih =>
      have hcut := ih hnil hquote
      simp only [List.cons_append, cutLiteral, hc, hescape, ↓reduceIte, cut, hcut]
  | case6 c next rest hc hescape cut ih =>
      have hcut := ih hnil hquote
      rw [List.cons_append, cutLiteral_cons escapes hc hescape, hcut]

/-- What stands behind a line comment is empty or a newline. -/
theorem head?_cutLine {sql : Text} {c : Char} (h : (cutLine sql).2.head? = some c) :
    c = '\n' := by
  have hend := List.head?_dropWhile_not (· != '\n') sql
  rw [cutLine] at h
  simp only [h] at hend
  simpa using hend

/-- What is left of a text begins as the text does, unless it begins with a blank or a
newline. -/
theorem head?_withoutComments {sql : Text} {c : Char} (hspace : c ≠ ' ') (hline : c ≠ '\n')
    (h : ((Lexis.mk escapes true).withoutComments sql).head? = some c) :
    sql.head? = some c := by
  fun_induction all escapes sql with
  | case1 => contradiction
  | case2 d rest ih =>
      rw [withoutComments_first] at h
      unfold first at h ih
      split at h
      · next hd =>
          subst hd
          exact h
      · next hquote =>
          rw [if_neg hquote] at ih
          split at h
          · next hopens =>
              rw [if_pos hopens] at ih
              obtain ⟨rfl, -⟩ := hopens
              exact absurd (head?_cutLine (ih h)) hline
          · next hdash =>
              split at h
              · next hopens =>
                  obtain ⟨rfl, -⟩ := hopens
                  exact absurd (Option.some.inj h).symm hspace
              · exact h

theorem withoutComments_eq_nil {sql : Text}
    (h : sql = []) : (Lexis.mk escapes true).withoutComments sql = [] := by
  rw [h]
  rfl

/-- The first lexeme of what is left of a text is what is left of its first lexeme. -/
theorem all_left (c : Char) (rest : Text) :
    all escapes ((first escapes c rest).1.left.flatMap text ++
        (Lexis.mk escapes true).withoutComments (first escapes c rest).2) =
      (first escapes c rest).1.left ++
        all escapes ((Lexis.mk escapes true).withoutComments (first escapes c rest).2) := by
  unfold first
  split
  · next hc =>
      subst hc
      have hcut := cutLiteral_replace escapes rest (withoutComments_eq_nil escapes)
        (head?_withoutComments escapes (by decide) (by decide))
      simp only [left, List.flatMap_singleton, text, List.cons_append, all_cons, first,
        ↓reduceIte, hcut, List.nil_append]
  · next hquote =>
      split
      · next hopens =>
          obtain ⟨rfl, -⟩ := hopens
          rfl
      · next hline =>
          split
          · next hopens =>
              obtain ⟨rfl, -⟩ := hopens
              exact all_cons escapes ' ' _
          · next hblock =>
              have hline' := fun h : c = '-' ∧ ((Lexis.mk escapes true).withoutComments
                  rest).head? = some '-' =>
                hline ⟨h.1, head?_withoutComments escapes (by decide) (by decide) h.2⟩
              have hblock' := fun h : c = '/' ∧ ((Lexis.mk escapes true).withoutComments
                  rest).head? = some '*' =>
                hblock ⟨h.1, head?_withoutComments escapes (by decide) (by decide) h.2⟩
              change all escapes (c :: (Lexis.mk escapes true).withoutComments rest) = _
              rw [all_cons, first, if_neg hquote, if_neg hline', if_neg hblock']
              rfl

/-- What is left of a text is read as what is left of its lexemes. -/
theorem all_withoutComments (sql : Text) :
    all escapes ((Lexis.mk escapes true).withoutComments sql) =
      (all escapes sql).flatMap left := by
  fun_induction all escapes sql with
  | case1 => exact all_nil escapes
  | case2 c rest ih => rw [withoutComments_first, List.flatMap_cons, ← ih, all_left]

/-- A comment leaves a blank or nothing, and any other lexeme itself. -/
theorem left_cases (lexeme : Lexeme) :
    (∃ text, lexeme = comment text ∧ (lexeme.left = [] ∨ lexeme.left = [code ' '])) ∨
      (lexeme.isComment = false ∧ lexeme.left = [lexeme]) := by
  cases lexeme with
  | code c => exact .inr ⟨rfl, rfl⟩
  | literal text => exact .inr ⟨rfl, rfl⟩
  | comment text =>
      refine .inl ⟨text, rfl, ?_⟩
      unfold left
      split
      · exact .inr rfl
      · exact .inl rfl
      · next hother => exact absurd rfl (hother text)

/-- No comment is left. -/
theorem isComment_of_mem {sql : Text} {lexeme : Lexeme}
    (h : lexeme ∈ all escapes ((Lexis.mk escapes true).withoutComments sql)) :
    lexeme.isComment = false := by
  rw [all_withoutComments] at h
  obtain ⟨other, -, hmem⟩ := List.mem_flatMap.mp h
  obtain ⟨text, -, hleft | hleft⟩ | ⟨hcomment, hleft⟩ := left_cases other
  · simp [hleft] at hmem
  · rw [hleft] at hmem
    rw [List.mem_singleton.mp hmem]
    rfl
  · rw [hleft] at hmem
    rw [List.mem_singleton.mp hmem, hcomment]

/-- A text stays as it is once its comments are out. -/
theorem withoutComments_withoutComments (sql : Text) :
    (Lexis.mk escapes true).withoutComments ((Lexis.mk escapes true).withoutComments sql) =
      (Lexis.mk escapes true).withoutComments sql := by
  have hleft : ∀ lexeme ∈ all escapes ((Lexis.mk escapes true).withoutComments sql),
      lexeme.left = [lexeme] := by
    intro lexeme hmem
    obtain ⟨text, rfl, -⟩ | ⟨-, hleft⟩ := left_cases lexeme
    · exact absurd (isComment_of_mem escapes hmem) (by simp [isComment])
    · exact hleft
  rw [withoutComments_eq, List.flatMap_congr hleft, List.flatMap_singleton', flatMap_text_all]

/-- What neither a comment nor a blank has a part in is the same in what is left. -/
theorem filterMap_left {α : Type} {part : Lexeme → Option α} (hspace : part (code ' ') = none)
    (hcomment : ∀ text, part (comment text) = none) (lexemes : List Lexeme) :
    (lexemes.flatMap left).filterMap part = lexemes.filterMap part := by
  induction lexemes with
  | nil => rfl
  | cons lexeme rest ih =>
      rw [List.flatMap_cons, List.filterMap_append, ih]
      obtain ⟨text, rfl, hleft | hleft⟩ | ⟨-, hleft⟩ := left_cases lexeme
      · rw [hleft, List.filterMap_cons_none (hcomment text), List.filterMap_nil, List.nil_append]
      · rw [hleft, List.filterMap_cons_none (hcomment text), List.filterMap_cons_none hspace,
          List.filterMap_nil, List.nil_append]
      · rw [hleft, ← List.filterMap_append, List.singleton_append]

/-- The side of the bracket that a lexeme is. -/
def side? (lexeme : Lexeme) : Option Side :=
  if lexeme = code '(' then some .opening
  else if lexeme = code ')' then some .closing
  else none

theorem map_side_brackets (offset : Nat) (lexemes : List Lexeme) :
    (brackets offset lexemes).map Bracket.side = lexemes.filterMap side? := by
  induction lexemes generalizing offset with
  | nil => rfl
  | cons lexeme rest ih =>
      by_cases hopening : lexeme = code '('
      · simp [brackets, side?, hopening, ih]
      · by_cases hclosing : lexeme = code ')'
        · simp [brackets, side?, hclosing, ih]
        · simp [brackets, side?, hopening, hclosing, ih]

end Lexeme

/-- Brackets that have the same sides in the same order are the same brackets at other
places. -/
theorem Bracket.exists_moved {brackets others : List Bracket} (hascending : Ascending brackets)
    (h : brackets.map side = others.map side) :
    ∃ place, brackets.map (moved place) = others := by
  induction brackets generalizing others with
  | nil => exact ⟨id, (List.map_eq_nil_iff.mp h.symm).symm⟩
  | cons bracket rest ih =>
      obtain ⟨other, others, rfl, hside, hrest⟩ := List.map_eq_cons_iff.mp h.symm
      obtain ⟨hlt, hascending⟩ := List.pairwise_cons.mp hascending
      obtain ⟨place, hplace⟩ := ih hascending hrest.symm
      refine ⟨Function.update place bracket.offset other.offset, ?_⟩
      rw [List.map_cons, ← hplace]
      congr 1
      · simp [moved, ← hside]
      · refine List.map_congr_left fun later hlater => ?_
        rw [moved, moved, Function.update_of_ne (hlt later hlater).ne']

/-- A comment that would begin in code is read, so in a text that stays as it is without
its comments none begins outside literals. -/
theorem Dialect.inLiteral_of_opener {dialect : Dialect} {front opener back : Text}
    (h : dialect.lexis.withoutComments (front ++ opener ++ back) = front ++ opener ++ back)
    (hopener : opener = ['-', '-'] ∨ opener = ['/', '*']) :
    (dialect.literalLexis.run .code front).inLiteral = true := by
  have hbehind := (follows_of_withoutComments h).1
  rw [List.append_assoc] at h
  obtain ⟨hfront, hfollows⟩ := follows_of_withoutComments h
  rw [hfollows.inLiteral]
  rw [Lexis.run_append] at hbehind
  cases hmode : dialect.lexis.run .code front with
  | literal | escaped => rfl
  | line | block | star =>
      rw [hmode] at hfront
      contradiction
  | code | dash | slash | closed =>
      rw [hmode] at hbehind
      rcases hopener with rfl | rfl <;> contradiction

/-- What a text is without its comments: no comment begins in it outside literals, its
literals are those of the text, with one that is never closed, outside them only comments
and blanks are gone or new, and its structural brackets stand for those of the text, in
their order, each with the one that closes it. -/
structure Dialect.Uncomments (dialect : Dialect) (sql plain : Text) : Prop where
  opensNone : ∀ front opener back, plain = front ++ opener ++ back →
    opener = ['-', '-'] ∨ opener = ['/', '*'] →
      (dialect.literalLexis.run .code front).inLiteral = true
  stable : dialect.lexis.withoutComments plain = plain
  literals : (Lexeme.all dialect.backslashEscapes plain).filterMap Lexeme.literal? =
    (Lexeme.all dialect.backslashEscapes sql).filterMap Lexeme.literal?
  others : (Lexeme.all dialect.backslashEscapes plain).filter (fun lexeme => !lexeme.isSpace) =
    (Lexeme.all dialect.backslashEscapes sql).filter fun lexeme =>
      !lexeme.isComment && !lexeme.isSpace
  brackets : ∃ place,
    (dialect.structural plain).map (Bracket.moved place) = dialect.structural sql ∧
    (dialect.lexis.bracketPairs plain).map (BracketPair.moved place) =
      dialect.lexis.bracketPairs sql

/-- Every text loses its comments and nothing else. -/
theorem Dialect.uncomments_withoutComments (dialect : Dialect) (sql : Text) :
    dialect.Uncomments sql (dialect.lexis.withoutComments sql) where
  opensNone front opener back hplain hopener := by
    have hstable := Lexeme.withoutComments_withoutComments dialect.backslashEscapes sql
    exact inLiteral_of_opener (hplain ▸ hstable) hopener
  stable := Lexeme.withoutComments_withoutComments dialect.backslashEscapes sql
  literals := by
    rw [lexis, Lexeme.all_withoutComments]
    exact Lexeme.filterMap_left rfl (fun _ => rfl) _
  others := by
    have hcomment : ∀ lexeme ∈ Lexeme.all dialect.backslashEscapes
        (dialect.lexis.withoutComments sql),
          (!lexeme.isSpace) = (!lexeme.isComment && !lexeme.isSpace) := by
      intro lexeme hmem
      rw [Lexeme.isComment_of_mem dialect.backslashEscapes hmem]
      rfl
    rw [List.filter_congr hcomment, ← List.filterMap_eq_filter, lexis,
      Lexeme.all_withoutComments]
    exact Lexeme.filterMap_left rfl (fun _ => rfl) _
  brackets := by
    have hsides : (dialect.structural (dialect.lexis.withoutComments sql)).map Bracket.side =
        (dialect.structural sql).map Bracket.side := by
      rw [structural, structural, Lexeme.map_side_brackets, Lexeme.map_side_brackets, lexis,
        Lexeme.all_withoutComments]
      exact Lexeme.filterMap_left rfl (fun _ => rfl) _
    obtain ⟨place, hplace⟩ := Bracket.exists_moved (ascending_structural dialect _) hsides
    refine ⟨place, hplace, ?_⟩
    rw [Lexis.bracketPairs, Lexis.bracketPairs, brackets_eq_structural, brackets_eq_structural,
      ← hplace, Bracket.pairUp_map]

end DdlDiagram
