/-
Agreement about literals.  Pairing brackets, blanking literals, cutting a body and taking
out name quotes are loops that read literals each in its own way.  On a text that has no
comments they hold the same characters for the contents of literals: a character is
blanked there and left in its place elsewhere, and a bracket counts, and a name quote is
lost, exactly where blanking leaves it.
-/
import DdlDiagram.Proofs.ByteIndex
import DdlDiagram.Proofs.CharLoops
import DdlDiagram.Proofs.LiteralReading

namespace DdlDiagram

open Text CharLoop

/-- Taking out name quotes leaves a character of a literal and any other that is
no such quote. -/
theorem CleanText.unquoteNames_append_singleton (dialect : Dialect)
    (front : Text) (c : Char) :
    unquoteNames dialect (front ++ [c]) =
      unquoteNames dialect front ++
        if (dialect.literalLexis.run .code front).inLiteral ||
          !dialect.nameQuotes.contains c then [c] else [] := by
  rw [unquoteNames, Lexis.trace_append, List.filter_append, List.map_append,
    Lexis.trace_cons, Lexis.trace_nil, List.filter_cons, List.filter_nil]
  split_ifs <;> rfl

theorem CleanText.unquoteNames_prefix (dialect : Dialect) (front back : Text) :
    unquoteNames dialect front <+: unquoteNames dialect (front ++ back) := by
  rw [unquoteNames, unquoteNames, Lexis.trace_append, List.filter_append,
    List.map_append]
  exact List.prefix_append _ _

/-- A bracket's character changes the depth when it is read in code. -/
theorem Lexis.depthOf_bracket (lexis : Lexis) (front : Text) (side : Side) :
    depthOf 0 (lexis.trace .code (front ++ [side.char])) =
      if (lexis.run .code front).inCode then
        side.move (depthOf 0 (lexis.trace .code front))
      else depthOf 0 (lexis.trace .code front) := by
  rw [trace_append, depthOf, List.foldl_append, trace_cons, trace_nil]
  cases side <;> simp [depthAfter, Glyph.isCode, Side.char, Side.move, depthOf]

/-- The bracket at a place has an entry in the index if the scan stops at it. -/
theorem ByteIndex.mem_found_iff_index (dialect : Dialect) (text : Text) (place : Nat) :
    ⟨place, .opening⟩ ∈ found dialect.backslashEscapes text.bytes ↔
      ∃ closing, ⟨place, closing⟩ ∈ index dialect.backslashEscapes text.bytes := by
  have hopenings := Bracket.openings_pairUp (dialect.lexis.brackets text)
  rw [found_bytes, index_bytes, ← Dialect.brackets_eq_structural, Lexis.bracketPairs]
  constructor
  · intro hmem
    have hopening : place ∈ (Bracket.pairUp (dialect.lexis.brackets text)).1.map
        BracketPair.opening := by
      rw [hopenings]
      exact List.mem_map.mpr ⟨_, List.mem_filter.mpr ⟨hmem, rfl⟩, rfl⟩
    obtain ⟨⟨_, closing⟩, hpair, rfl⟩ := List.mem_map.mp hopening
    exact ⟨closing, hpair⟩
  · rintro ⟨closing, hpair⟩
    have hopening := List.mem_map_of_mem (f := BracketPair.opening) hpair
    rw [hopenings] at hopening
    obtain ⟨⟨_, side⟩, hmem, rfl⟩ := List.mem_map.mp hopening
    obtain ⟨hmem, hside⟩ := List.mem_filter.mp hmem
    obtain rfl : side = .opening := by simpa using hside
    exact hmem

/-- What the readers of literals make of a character between two texts. -/
structure ReadersAgree (dialect : Dialect) (front : Text) (c : Char) (back : Text) :
    Prop where
  /-- Cutting a body and taking out name quotes stand in a literal at the same places. -/
  inString : (Cutter.run dialect.backslashEscapes front).inString =
    (Unquoter.run dialect front).inString
  /-- What they hold for the contents of a literal is blanked, and nothing else. -/
  blanked : c ≠ '\'' →
    (blank dialect.backslashEscapes (front ++ c :: back))[front.length]? =
      some (if (Cutter.run dialect.backslashEscapes front).inString then ' ' else c)
  /-- A bracket is paired where blanking leaves it, and changes the depth there. -/
  bracket : ∀ side : Side, c = side.char →
    ((blank dialect.backslashEscapes (front ++ c :: back))[front.length]? = some c ↔
      ⟨byteLength front, side⟩ ∈
        ByteIndex.found dialect.backslashEscapes (bytes (front ++ c :: back))) ∧
    (⟨byteLength front, side⟩ ∈
        ByteIndex.found dialect.backslashEscapes (bytes (front ++ c :: back)) ↔
      (Cutter.run dialect.backslashEscapes (front ++ [c])).depth =
        side.move (Cutter.run dialect.backslashEscapes front).depth) ∧
    (⟨byteLength front, side⟩ ∉
        ByteIndex.found dialect.backslashEscapes (bytes (front ++ c :: back)) ↔
      (Cutter.run dialect.backslashEscapes (front ++ [c])).depth =
        (Cutter.run dialect.backslashEscapes front).depth)
  /-- An opening bracket that is paired has an entry in the index. -/
  indexed : c = '(' →
    (⟨byteLength front, .opening⟩ ∈
        ByteIndex.found dialect.backslashEscapes (bytes (front ++ c :: back)) ↔
      ∃ closing, ⟨byteLength front, closing⟩ ∈
        ByteIndex.index dialect.backslashEscapes (bytes (front ++ c :: back)))
  /-- A name quote is kept where it is blanked, and lost where blanking leaves it. -/
  nameQuote : c ∈ dialect.nameQuotes →
    ((Unquoter.run dialect (front ++ [c])).left = (Unquoter.run dialect front).left ++ [c] ↔
      (blank dialect.backslashEscapes (front ++ c :: back))[front.length]? = some ' ') ∧
    ((Unquoter.run dialect (front ++ [c])).left = (Unquoter.run dialect front).left ↔
      (blank dialect.backslashEscapes (front ++ c :: back))[front.length]? = some c) ∧
    (Unquoter.run dialect (front ++ [c])).left <+: unquote dialect (front ++ c :: back)

section agreement

variable {dialect : Dialect} {front back : Text} {c : Char}
  (h : dialect.lexis.withoutComments (front ++ c :: back) = front ++ c :: back)
include h

/-- A bracket is left by blanking where it is paired, and where it is paired it changes
the depth at which a body is cut. -/
theorem Dialect.bracket_of_withoutComments {side : Side} (hside : c = side.char) :
    ((dialect.literalLexis.blankLiterals (front ++ c :: back))[front.length]? = some c ↔
      ⟨byteLength front, side⟩ ∈ dialect.lexis.brackets (front ++ c :: back)) ∧
    (⟨byteLength front, side⟩ ∈ dialect.lexis.brackets (front ++ c :: back) ↔
      Lexis.depthOf 0 (dialect.literalLexis.trace .code (front ++ [c])) =
        side.move (Lexis.depthOf 0 (dialect.literalLexis.trace .code front))) ∧
    (⟨byteLength front, side⟩ ∉ dialect.lexis.brackets (front ++ c :: back) ↔
      Lexis.depthOf 0 (dialect.literalLexis.trace .code (front ++ [c])) =
        Lexis.depthOf 0 (dialect.literalLexis.trace .code front)) := by
  subst hside
  obtain ⟨hcomment, hfollows⟩ := follows_of_withoutComments h
  have hquote : side.char ≠ '\'' := by cases side <;> decide
  have hblank : side.char ≠ ' ' := by cases side <;> decide
  have hmove : ∀ depth : Int, side.move depth ≠ depth := by
    intro depth
    cases side <;> simp only [Side.move] <;> omega
  have hinCode : (dialect.lexis.run .code front).inCode =
      !(dialect.lexis.run .code front).inLiteral := by
    rw [Mode.inCode, hcomment, Bool.not_false, Bool.and_true]
  have hmem := Lexis.mem_brackets_iff dialect.lexis front back side
  have hdepth := Lexis.depthOf_bracket dialect.literalLexis front side
  rw [hfollows.inCode hcomment] at hdepth
  rw [blankLiterals_of_withoutComments h hquote]
  simp only [hmem, hdepth, hinCode]
  by_cases hin : (dialect.lexis.run .code front).inLiteral = true
  · simp [hin, hblank.symm, (hmove _).symm]
  · simp [hin, hmove]

/-- A name quote is kept where it is blanked, and taken out where blanking leaves it. -/
theorem Dialect.nameQuote_of_withoutComments (hname : c ∈ dialect.nameQuotes) :
    (CleanText.unquoteNames dialect (front ++ [c]) =
        CleanText.unquoteNames dialect front ++ [c] ↔
      (dialect.literalLexis.blankLiterals (front ++ c :: back))[front.length]? = some ' ') ∧
    (CleanText.unquoteNames dialect (front ++ [c]) =
        CleanText.unquoteNames dialect front ↔
      (dialect.literalLexis.blankLiterals (front ++ c :: back))[front.length]? = some c) := by
  have hquote : c ≠ '\'' := by
    rintro rfl
    exact CleanText.not_mem_nameQuotes dialect hname
  have hblank : c ≠ ' ' := by
    rintro rfl
    revert hname
    cases dialect <;> decide
  have hkept := CleanText.unquoteNames_append_singleton dialect front c
  rw [(follows_of_withoutComments h).2.inLiteral] at hkept
  rw [blankLiterals_of_withoutComments h hquote, hkept]
  by_cases hin : (dialect.lexis.run .code front).inLiteral = true
  · simp [hin, hblank.symm]
  · simp [hin, hname, hblank]

/-- The loops agree where the readers with modes do. -/
theorem readersAgree_of_withoutComments : ReadersAgree dialect front c back where
  inString := by rw [Cutter.inString_run, Unquoter.inString_run]
  blanked := by
    intro hquote
    rw [Lexis.blank_eq, Cutter.inString_run]
    exact Lexis.getElem?_blankLiterals dialect.literalLexis front back hquote
  bracket := by
    intro side hside
    rw [Lexis.blank_eq, ByteIndex.found_bytes, ← Dialect.brackets_eq_structural,
      Cutter.depth_run, Cutter.depth_run]
    exact Dialect.bracket_of_withoutComments h hside
  indexed := fun _ => ByteIndex.mem_found_iff_index dialect _ _
  nameQuote := by
    intro hname
    obtain ⟨hkept, hout⟩ := Dialect.nameQuote_of_withoutComments h hname
    have hprefix := CleanText.unquoteNames_prefix dialect (front ++ [c]) back
    rw [List.append_assoc, List.singleton_append] at hprefix
    rw [Lexis.blank_eq, unquote_eq, Unquoter.left_run, Unquoter.left_run]
    exact ⟨hkept, hout, hprefix⟩

end agreement

/-- Each reader of literals is a loop of its own, and on a text from which no comment can
be taken out these loops hold the same characters for the contents of literals. -/
theorem literal_readers_agree (dialect : Dialect) :
    (∀ text,
      blank dialect.backslashEscapes text = dialect.literalLexis.blankLiterals text ∧
      split dialect.backslashEscapes text = dialect.literalLexis.parts text ∧
      strip dialect.backslashEscapes text = dialect.lexis.withoutComments text ∧
      unquote dialect text = CleanText.unquoteNames dialect text ∧
      ByteIndex.index dialect.backslashEscapes text.bytes =
        dialect.lexis.bracketPairs text) ∧
    ∀ front c back, strip dialect.backslashEscapes (front ++ c :: back) = front ++ c :: back →
      ReadersAgree dialect front c back := by
  refine ⟨fun text => ?_, fun front c back h => ?_⟩
  · exact ⟨Lexis.blank_eq dialect text, split_eq dialect text, Lexis.strip_eq dialect text,
      unquote_eq dialect text, ByteIndex.index_bytes dialect text⟩
  · rw [Lexis.strip_eq] at h
    exact readersAgree_of_withoutComments h

/-- Behind an escaped quote and a longer character, in a literal that is never closed: a
name quote is kept and a bracket is not paired; in front of the literal one is. -/
theorem literal_readers_agree_unclosed :
    let text := "a(`b` '\\'é`)".toList
    strip true text = text ∧
      (Unquoter.run .mysql "a(`b` '\\'é`".toList).left =
        (Unquoter.run .mysql "a(`b` '\\'é".toList).left ++ ['`'] ∧
      ⟨1, .opening⟩ ∈ ByteIndex.found true (bytes text) ∧
      ⟨12, .closing⟩ ∉ ByteIndex.found true (bytes text) := by
  intro text
  have hplain : strip true text = text := (Lexis.strip_eq .mysql text).trans (by decide)
  have hagree := (literal_readers_agree .mysql).2
  have hname := hagree "a(`b` '\\'é".toList '`' ")".toList hplain
  have hopening := hagree "a".toList '(' "`b` '\\'é`)".toList hplain
  have hclosing := hagree "a(`b` '\\'é`".toList ')' [] hplain
  refine ⟨hplain, (hname.nameQuote (by decide)).1.mpr ?_,
    (hopening.bracket .opening rfl).1.mp ?_, (hclosing.bracket .closing rfl).2.2.mpr ?_⟩
  · rw [Lexis.blank_eq]
    decide
  · rw [Lexis.blank_eq]
    decide
  · decide

end DdlDiagram
