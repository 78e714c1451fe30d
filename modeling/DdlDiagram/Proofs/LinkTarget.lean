/-
The columns that relationships go to.  A list of columns loses the quotes around its
entries but not those inside them, so the only double quotes that such a name may hold
stand inside it, and the text that the schema was read from has one too.
-/
import DdlDiagram.Proofs.Backslash
import DdlDiagram.Proofs.KeyPlace
import DdlDiagram.Proofs.NameClass

namespace DdlDiagram

open Text Phrase

namespace Text

section trimming

variable (isEdge : Char → Bool) (text : Text)

theorem head?_trimMatching : ∀ c ∈ (trimMatching isEdge text).head?, isEdge c = false := by
  have hprefix : trimMatching isEdge text <+: text.dropWhile isEdge := by
    rw [trimMatching, ← List.reverse_reverse (text.dropWhile isEdge), List.reverse_prefix,
      List.reverse_reverse]
    exact List.dropWhile_suffix isEdge
  intro c hc
  obtain ⟨rest, hrest⟩ := hprefix
  obtain ⟨tail, htail⟩ := List.head?_eq_some_iff.mp hc
  apply stops_dropWhile isEdge text
  rw [← hrest, htail]
  rfl

theorem getLast?_trimMatching :
    ∀ c ∈ (trimMatching isEdge text).getLast?, isEdge c = false := by
  intro c hc
  rw [trimMatching, List.getLast?_reverse] at hc
  exact stops_dropWhile isEdge _ c hc

end trimming

theorem mem_of_mem_splitAt {mark c : Char} {text part : Text}
    (hpart : part ∈ splitAt mark text) (hc : c ∈ part) : c ∈ text := by
  induction text generalizing part with
  | nil =>
      rw [List.mem_singleton.mp hpart] at hc
      contradiction
  | cons d rest ih =>
      simp only [splitAt, cutAt] at hpart ih
      split at hpart
      · rcases List.mem_cons.mp hpart with rfl | hpart
        · contradiction
        · exact List.mem_cons_of_mem d (ih hpart hc)
      · rcases List.mem_cons.mp hpart with rfl | hpart
        · rcases List.mem_cons.mp hc with rfl | hc
          · exact List.mem_cons_self
          · exact List.mem_cons_of_mem d (ih List.mem_cons_self hc)
        · exact List.mem_cons_of_mem d (ih (List.mem_cons_of_mem _ hpart) hc)

end Text

namespace Phrase

section suffixes

variable {keyword text rest word : Text}

theorem suffix_afterKeyword? (h : afterKeyword? keyword text = some rest) :
    rest <:+ text := by
  obtain ⟨used, rfl, _⟩ := afterKeyword?_eq_some_iff.mp h
  exact List.suffix_append used rest

theorem suffix_afterSpacedKeyword? (h : afterSpacedKeyword? keyword text = some rest) :
    rest <:+ text := by
  obtain ⟨middle, hmiddle, hrest⟩ := Option.bind_eq_some_iff.mp h
  obtain ⟨blank, blanks, rfl, _, _⟩ := afterBlanks?_eq_some hrest
  exact (List.suffix_append (blank :: blanks) rest).trans (suffix_afterKeyword? hmiddle)

theorem suffix_afterChar? {expected : Char} (h : afterChar? expected text = some rest) :
    rest <:+ text := by
  cases text with
  | nil => contradiction
  | cons c tail =>
      simp only [afterChar?] at h
      split at h
      · rw [← Option.some.inj h]
        exact List.suffix_cons c tail
      · contradiction

theorem suffix_quotedWord? (h : quotedWord? text = some (word, rest)) :
    rest <:+ text := by
  obtain ⟨opener, closer, rfl, _⟩ := quotedWord?_pieces h
  simp only [← List.append_assoc]
  exact List.suffix_append _ rest

theorem suffix_nameBeforeBracket? (h : nameBeforeBracket? text = some (word, rest)) :
    rest <:+ text := by
  obtain ⟨front, rfl, _⟩ := nameBeforeBracket?_split h
  exact (List.suffix_cons '(' rest).trans (List.suffix_append front _)

theorem suffix_upToBracket? {inside : Text} (h : upToBracket? text = some (inside, rest)) :
    rest <:+ text := by
  rw [(upToBracket?_split h).1]
  exact (List.suffix_cons ')' rest).trans (List.suffix_append inside _)

end suffixes

end Phrase

namespace Clause

/-- A column that a text refers to: a word without a quote at either end, whose double
quotes come from the text. -/
structure Target (text name : Text) : Prop where
  isWord : IsWord name
  head : ∀ c ∈ name.head?, isQuote c = false
  last : ∀ c ∈ name.getLast?, isQuote c = false
  quote : '"' ∈ name → '"' ∈ text

variable {text other name : Text}

theorem Target.mono (h : Target text name) (hquote : '"' ∈ text → '"' ∈ other) :
    Target other name :=
  ⟨h.isWord, h.head, h.last, hquote ∘ h.quote⟩

/-- A name of word characters is a target in any text. -/
theorem target_of_isWordName (h : IsWordName name) (text : Text) : Target text name := by
  have hquote : ∀ c, isWordChar c = true → isQuote c = false := by
    intro c hc
    rw [Bool.eq_false_iff]
    intro hquote
    simp only [isQuote, Bool.or_eq_true, beq_iff_eq] at hquote
    rcases hquote with ((rfl | rfl) | rfl) | rfl <;> exact absurd hc (by decide)
  refine ⟨h.isWord, fun c hc => ?_, fun c hc => ?_, fun hmem => ?_⟩
  · exact hquote c (h.2 c (List.mem_of_mem_head? hc))
  · exact hquote c (h.2 c (List.mem_of_mem_getLast? hc))
  · exact absurd (hquote '"' (h.2 '"' hmem)) (by decide)

/-- A list names columns that it refers to. -/
theorem target_of_mem_columnNames {list : Text} (h : name ∈ columnNames list) :
    Target list name := by
  have hword := isWord_of_mem_columnNames h
  obtain ⟨entry, hentry, rfl⟩ := List.mem_map.mp (List.mem_filter.mp h).1
  refine ⟨hword, head?_trimMatching isQuote _, getLast?_trimMatching isQuote _, ?_⟩
  intro hmem
  have hfirst := (List.takeWhile_prefix _).subset (mem_of_mem_trimMatching hmem)
  have hentered := (List.takeWhile_prefix _).subset hfirst
  exact mem_of_mem_splitAt hentry ((List.dropWhile_suffix isBlank).subset hentered)

theorem suffix_afterForeignKey? {opened : Text} (h : afterForeignKey? text = some opened) :
    opened <:+ text := by
  obtain ⟨behind, hkey, hopened⟩ := Option.bind_eq_some_iff.mp h
  obtain ⟨spaced, hforeign, hkey⟩ := Option.bind_eq_some_iff.mp hkey
  have hquoted : ((quotedWord? (trimStart behind)).map fun read => trimStart read.2).getD
      (trimStart behind) <:+ behind := by
    have htrim := List.dropWhile_suffix isBlank (l := behind)
    cases hread : quotedWord? (trimStart behind) with
    | none => exact htrim
    | some read =>
        exact (List.dropWhile_suffix isBlank).trans ((suffix_quotedWord? hread).trans htrim)
  exact (suffix_afterChar? hopened).trans (hquoted.trans
    ((suffix_afterKeyword? hkey).trans (suffix_afterSpacedKeyword? hforeign)))

/-- The targets of a foreign key are those of its second list. -/
theorem target_of_foreignKeyHere? {links : List Link}
    (h : foreignKeyHere? text = some links) : ∀ link ∈ links, Target text link.target := by
  simp only [foreignKeyHere?_eq, Option.bind_eq_some_iff] at h
  obtain ⟨opened, hopened, ⟨columns, listed⟩, hlisted, referring, hreferring, ⟨table, named⟩,
    hnamed, ⟨targets, rest⟩, htargets, hlinks⟩ := h
  obtain rfl := Option.some.inj hlinks
  -- Every reader in front of the second list gives a tail of what it reads.
  have hreferringSuffix : referring <:+ opened :=
    (suffix_afterSpacedKeyword? hreferring).trans
      ((List.dropWhile_suffix isBlank).trans (suffix_upToBracket? hlisted))
  have hnamedSuffix : named <:+ text :=
    (suffix_nameBeforeBracket? hnamed).trans
      (hreferringSuffix.trans (suffix_afterForeignKey? hopened))
  have htargetsSplit : named = targets ++ ')' :: rest := (upToBracket?_split htargets).1
  intro link hlink
  rw [← List.map_uncurry_zip_eq_zipWith] at hlink
  obtain ⟨⟨column, target⟩, hpair, rfl⟩ := List.mem_map.mp hlink
  apply (target_of_mem_columnNames (List.of_mem_zip hpair).2).mono
  intro hmem
  apply hnamedSuffix.subset
  rw [htargetsSplit]
  exact List.mem_append_left _ hmem

/-- A clause whose relationships go to columns that a text refers to. -/
def Refers (text : Text) : Clause → Prop
  | foreignKey links => ∀ link ∈ links, Target text link.target
  | column declaration => ∀ reference ∈ declaration.reference, Target text reference.2
  | primaryKey _ | index | unknown _ => True

theorem refers_of_tableKey? {clause : Clause} (h : tableKey? text = some clause) :
    clause.Refers text := by
  rcases tableKey?_cases h with ⟨links, hlinks, rfl⟩ | ⟨columns, _, rfl⟩
  · obtain ⟨place, hplace, hread⟩ := exists_of_search hlinks
    intro link hlink
    exact (target_of_foreignKeyHere? hread link hlink).mono fun hmem => hplace.subset hmem
  · exact trivial

theorem refers_read (lexis : Lexis) (text : Text) : (read lexis text).Refers text := by
  have hnamed := named_read lexis text
  cases hread : read lexis text with
  | primaryKey | index | unknown => exact trivial
  | column declaration =>
      intro reference hreference
      rw [hread] at hnamed
      exact target_of_isWordName (hnamed.2 reference hreference).2 text
  | foreignKey links =>
      rw [read] at hread
      split at hread
      · next clause hkey =>
          rw [← hread]
          exact refers_of_tableKey? hkey
      · split at hread
        · contradiction
        · split at hread <;> contradiction

end Clause

/-- What comes of a clause goes to the columns that the clause refers to. -/
theorem Outcome.Of.target {text : Text} {clause : Clause} {outcome : Outcome}
    (h : Of clause outcome) (hclause : clause.Refers text) :
    ∀ link ∈ outcome.foreignLinks, Clause.Target text link.target := by
  cases h with
  | links list => exact hclause
  | keys | passed | repeated | discarded => exact fun link hlink => by contradiction
  | column declaration =>
      intro link hlink
      obtain ⟨reference, hreference, rfl⟩ :=
        Option.map_eq_some_iff.mp (Option.mem_toList.mp hlink)
      exact hclause reference hreference

theorem TableBody.target_read (dialect : Dialect) (name body : Text) :
    ∀ link ∈ (read dialect name body).relationships,
      Clause.Target body link.toColumn := by
  intro link hlink
  obtain ⟨foreign, hforeign, rfl⟩ := List.mem_map.mp hlink
  obtain ⟨outcome, houtcome, hmem⟩ := List.mem_flatMap.mp hforeign
  obtain ⟨clause, hclause, hof⟩ := Outcome.exists_clause_of_mem houtcome
  obtain ⟨part, hpart, rfl⟩ := List.mem_map.mp hclause
  apply (hof.target (Clause.refers_read _ part) foreign hmem).mono
  intro hquote
  exact Lexis.mem_of_mem_withoutComments (by decide)
    (Lexis.mem_of_mem_parts (List.mem_filter.mp hpart).1 hquote)

namespace Schema

/-- The relationships of a schema all go to columns that a text refers to. -/
def Refers (schema : Schema) (text : Text) : Prop :=
  ∀ link ∈ schema.relationships, Clause.Target text link.toColumn

variable {schema : Schema} {text : Text}

theorem Refers.addTable (h : schema.Refers text) (dialect : Dialect) (name : Text)
    {body : Text} (hbody : '"' ∈ body → '"' ∈ text) :
    (schema.addTable dialect name body).schema.Refers text := by
  cases hfound : schema.table? name with
  | some table =>
      rw [addTable_of_isSome (by simp [hfound])]
      exact h
  | none =>
      rw [addTable_of_eq_none hfound]
      exact List.forall_mem_append.mpr ⟨h, fun link hlink =>
        (TableBody.target_read dialect name body link hlink).mono hbody⟩

theorem Refers.addTables (h : schema.Refers text) (dialect : Dialect)
    {definitions : List (Text × Text)}
    (hbodies : ∀ definition ∈ definitions, '"' ∈ definition.2 → '"' ∈ text) :
    (schema.addTables dialect definitions).Refers text := by
  induction definitions generalizing schema with
  | nil => exact h
  | cons definition rest ih =>
      obtain ⟨hbody, hrest⟩ := List.forall_mem_cons.mp hbodies
      exact ih (h.addTable dialect definition.1 hbody) hrest

end Schema

/-- Every relationship of a schema goes to a column that its text refers to. -/
theorem Extraction.refers_ofText (dialect : Dialect) (text : Text) :
    (ofText dialect text).schema.Refers text := by
  have hempty : Schema.empty.Refers text := fun link hlink => by contradiction
  rw [ofText, ofSites_schema]
  apply hempty.addTables
  intro definition hdefinition hquote
  obtain ⟨site, _, hbody⟩ := List.mem_filterMap.mp hdefinition
  obtain ⟨closing, _, rfl⟩ := Option.map_eq_some_iff.mp hbody
  exact mem_of_mem_between hquote

end DdlDiagram
