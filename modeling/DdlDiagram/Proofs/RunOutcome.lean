/-
What a run leaves behind.  A run fails before anything is printed or written, or it
prints or writes the whole rendering; what is told on the way makes no difference.
-/
import DdlDiagram.CommandLine.Run
import DdlDiagram.Proofs.FileMap

namespace DdlDiagram.CommandLine

open Text

/-- Bytes are read as a text when they are its bytes. -/
theorem decode?_eq_some_iff {bytes : ByteArray} {text : Text} :
    decode? bytes = some text ↔ bytes = encode text := by
  constructor
  · intro h
    obtain ⟨read, hread, rfl⟩ := Option.map_eq_some_iff.mp h
    rw [String.fromUTF8?] at hread
    split at hread
    · rw [encode, String.ofList_toList, ← Option.some.inj hread]
      rfl
    · contradiction
  · rintro rfl
    have hread : String.fromUTF8? (encode text) = some (String.ofList text) :=
      dif_pos (String.ofList text).isValidUTF8
    rw [decode?, hread, Option.map_some, String.toList_ofList]

/-- The options that arguments spell. -/
def Options.Asked (options : Options) (arguments : List Text) : Prop :=
  ∃ request, Request.ofArguments arguments = .ok request ∧
    Options.ofRequest request = .ok options

/-- The input of a conversion holds a text. -/
def Options.Reads (options : Options) (files : Files.Tree) (sql : Text) : Prop :=
  files.entry? options.input = some (.file (encode sql))

/-- What a conversion yields: the schema of its input, in its format. -/
def Options.content (options : Options) (sql : Text) : Text :=
  Format.render (Extraction.ofSql options.dialect sql).schema options.format

namespace Run

variable {files : Files.Tree} {arguments : List Text} {options : Options} {sql : Text}

theorem readInput_eq_ok_iff :
    readInput files options.input = .ok sql ↔ options.Reads files sql := by
  rw [readInput, Options.Reads]
  cases files.entry? options.input with
  | none => simp
  | some entry =>
      cases entry with
      | directory => simp
      | file bytes =>
          simp only [Option.some.injEq, Files.Entry.file.injEq]
          rw [← decode?_eq_some_iff]
          cases decode? bytes <;> simp

/-- A run that prints nothing and touches no file. -/
def Untouched (files : Files.Tree) (run : Run) : Prop :=
  run.output = [] ∧ run.files = files

/-- A run that delivers a text: it prints it and touches no file, or it writes it to
the output path, and nothing else, and prints nothing. -/
def Delivers (files : Files.Tree) (output : Option Text) (content : Text)
    (run : Run) : Prop :=
  match output with
  | none => run.output = content ∧ run.files = files
  | some path =>
      run.output = [] ∧ files.Writes path (encode content) run.files

/-- A run that does nothing when it fails, and delivers what its arguments ask for
when it does not. -/
structure AllOrNothing (files : Files.Tree) (arguments : List Text) (run : Run) :
    Prop where
  failed : run.status ≠ 0 → run.Untouched files
  worked : run.status = 0 → ∃ options sql, Options.Asked options arguments ∧
    options.Reads files sql ∧ run.Delivers files options.output (options.content sql)

/-- A conversion fails and touches nothing, because its input cannot be read or its
output cannot be written, or it delivers. -/
theorem convert_cases (files : Files.Tree) (options : Options) :
    (convert files options).status ≠ 0 ∧ (convert files options).Untouched files ∧
      (∀ sql, options.Reads files sql →
        ∃ path ∈ options.output, ¬ files.Writable path) ∨
    (convert files options).status = 0 ∧ ∃ sql, options.Reads files sql ∧
      (∀ path ∈ options.output, files.Writable path) ∧
      (convert files options).Delivers files options.output (options.content sql) := by
  cases hread : readInput files options.input with
  | error failure =>
      have hrun : convert files options = ⟨1, [], ended [failure.message], files⟩ := by
        rw [convert_eq, hread]
      rw [hrun]
      refine Or.inl ⟨Nat.one_ne_zero, ⟨rfl, rfl⟩, fun sql hsql => ?_⟩
      rw [readInput_eq_ok_iff.mpr hsql] at hread
      contradiction
  | ok sql =>
      have hsql := readInput_eq_ok_iff.mp hread
      cases houtput : options.output with
      | none =>
          simp only [convert_eq, hread, houtput]
          exact Or.inr ⟨trivial, sql, hsql, nofun, rfl, rfl⟩
      | some path =>
          cases hwrite : files.write? path (encode (Rendering.ofSql options sql).content) with
          | none =>
              have hfree := Files.Tree.write?_eq_none_iff.mp hwrite
              simp only [convert_eq, hread, houtput, hwrite]
              exact Or.inl ⟨Nat.one_ne_zero, ⟨rfl, rfl⟩, fun _ _ => ⟨path, rfl, hfree⟩⟩
          | some later =>
              have hwritable : files.Writable path := by
                by_contra hnot
                rw [Files.Tree.write?_eq_none_iff.mpr hnot] at hwrite
                contradiction
              have hwrites := Files.Tree.writes_of_write? hwrite
              simp only [convert_eq, hread, houtput, hwrite]
              refine Or.inr ⟨trivial, sql, hsql, ?_, rfl, hwrites⟩
              intro other hother
              rwa [← Option.some.inj hother]

theorem ofArguments_of_asked (h : options.Asked arguments) :
    ofArguments files arguments = convert files options := by
  obtain ⟨request, hrequest, hoptions⟩ := h
  rw [ofArguments_eq, hrequest]
  simp only [hoptions]

section arguments

variable (files : Files.Tree) (arguments : List Text)
  (hhelp : Request.ofArguments arguments ≠ .error .helpAsked)
  (hversion : Request.ofArguments arguments ≠ .error .versionAsked)
include hhelp hversion

/-- Arguments that spell no options are refused before any file is looked at. -/
theorem ofArguments_of_not_asked (h : ∀ options, ¬ Options.Asked options arguments) :
    (ofArguments files arguments).status ≠ 0 ∧
      (ofArguments files arguments).Untouched files := by
  cases hrequest : Request.ofArguments arguments with
  | error error =>
      have hrun : ofArguments files arguments = ⟨usageStatus, [], usageText, files⟩ := by
        rw [ofArguments_eq, hrequest]
        rw [hrequest] at hhelp hversion
        cases error <;> first | rfl | exact absurd rfl hhelp | exact absurd rfl hversion
      rw [hrun]
      exact ⟨Nat.succ_ne_zero 1, rfl, rfl⟩
  | ok request =>
      cases hoptions : Options.ofRequest request with
      | error error =>
          simp only [ofArguments_eq, hrequest, hoptions]
          exact ⟨Nat.one_ne_zero, rfl, rfl⟩
      | ok options => exact absurd ⟨request, hrequest, hoptions⟩ (h options)

/-- Every run does all that its arguments ask for, or nothing.  The files are those below the
working directory: an absolute path, or one that leaves it by a name for the directory above,
leads to none of them, for the input and for the output. -/
theorem ofArguments_allOrNothing :
    (ofArguments files arguments).AllOrNothing files arguments := by
  by_cases hasked : ∃ options, Options.Asked options arguments
  · obtain ⟨options, hasked⟩ := hasked
    rw [ofArguments_of_asked hasked]
    rcases convert_cases files options with
      ⟨hstatus, huntouched, _⟩ | ⟨hstatus, sql, hsql, _, hdelivers⟩
    · exact ⟨fun _ => huntouched, fun h => absurd h hstatus⟩
    · exact ⟨fun h => absurd hstatus h, fun _ => ⟨options, sql, hasked, hsql, hdelivers⟩⟩
  · obtain ⟨hstatus, huntouched⟩ := ofArguments_of_not_asked files arguments hhelp hversion
      (not_exists.mp hasked)
    exact ⟨fun _ => huntouched, fun h => absurd h hstatus⟩

/-- A run succeeds when its arguments spell options, its input is a text and its
output path, if there is one, can be written. -/
theorem ofArguments_status_eq_zero_iff :
    (ofArguments files arguments).status = 0 ↔
      ∃ options sql, Options.Asked options arguments ∧ options.Reads files sql ∧
        ∀ path ∈ options.output, files.Writable path := by
  constructor
  · intro h
    by_cases hasked : ∃ options, Options.Asked options arguments
    · obtain ⟨options, hasked⟩ := hasked
      rw [ofArguments_of_asked hasked] at h
      rcases convert_cases files options with ⟨hstatus, _⟩ | ⟨_, sql, hsql, hwritable, _⟩
      · exact absurd h hstatus
      · exact ⟨options, sql, hasked, hsql, hwritable⟩
    · have hrefused := ofArguments_of_not_asked files arguments hhelp hversion
        (not_exists.mp hasked)
      exact absurd h hrefused.1
  · rintro ⟨options, sql, hasked, hsql, hwritable⟩
    rw [ofArguments_of_asked hasked]
    rcases convert_cases files options with ⟨_, _, hfails⟩ | ⟨hstatus, _⟩
    · obtain ⟨path, hpath, hfree⟩ := hfails sql hsql
      exact absurd (hwritable path hpath) hfree
    · exact hstatus

end arguments

/-- A run leaves the files as they were, or writes the diagram of its input to the output
path. -/
theorem files_ofArguments (files : Files.Tree) (arguments : List Text) :
    (ofArguments files arguments).files = files ∨
      ∃ options sql path, Options.Asked options arguments ∧ options.Reads files sql ∧
        options.output = some path ∧
        files.write? path (encode (options.content sql)) =
          some (ofArguments files arguments).files := by
  by_cases hasked : ∃ options, Options.Asked options arguments
  · obtain ⟨options, hasked⟩ := hasked
    rw [ofArguments_of_asked hasked, convert_eq]
    cases hread : readInput files options.input with
    | error failure => exact Or.inl rfl
    | ok sql =>
        cases houtput : options.output with
        | none => exact Or.inl rfl
        | some path =>
            cases hwrite : files.write? path (encode (Rendering.ofSql options sql).content) with
            | none => simp only [hwrite, true_or]
            | some later =>
                simp only [hwrite]
                exact Or.inr ⟨options, sql, path, hasked, readInput_eq_ok_iff.mp hread,
                  houtput, hwrite⟩
  · left
    rw [ofArguments_eq]
    cases hrequest : Request.ofArguments arguments with
    | error error => cases error <;> rfl
    | ok request =>
        cases hoptions : Options.ofRequest request with
        | error error => simp only [hoptions]
        | ok options => exact absurd ⟨options, request, hrequest, hoptions⟩ hasked

/-- A run over files that have a place each changes none of them but the one at the output
path, which holds the diagram of the input then. -/
theorem mem_changed_ofArguments (hfiles : files.Keyed) {place : Files.Place}
    {content : ByteArray}
    (h : (place, content) ∈ files.changed (ofArguments files arguments).files) :
    ∃ options sql path, Options.Asked options arguments ∧ options.Reads files sql ∧
      options.output = some path ∧ files.place? path = some place ∧
      content = encode (options.content sql) := by
  rcases files_ofArguments files arguments with
    hsame | ⟨options, sql, path, hasked, hsql, houtput, hwrite⟩
  · rw [hsame, Files.Tree.mem_changed_iff hfiles] at h
    exact absurd h.1 h.2
  · obtain ⟨written, hplace, hfree, hlater⟩ := Files.Tree.write?_eq_some hwrite
    have hne : written ≠ [] := by
      rintro rfl
      exact hfree rfl
    rw [hlater, Files.Tree.mem_changed_iff (hfiles.put hne _)] at h
    by_cases hwritten : place = written
    · subst hwritten
      rw [Files.Tree.entryAt?_put hne, Option.some.injEq, Files.Entry.file.injEq] at h
      exact ⟨options, sql, path, hasked, hsql, houtput, hplace, h.1.symm⟩
    · rw [Files.Tree.entryAt?_put_of_ne hwritten] at h
      exact absurd h.1 h.2

/-- A run that reads a file and writes over it. -/
theorem ofArguments_allOrNothing_over_input :
    let sql := "CREATE TABLE t (x INT)".toList
    let files : Files.Tree := ⟨[(["a".toList], .file (encode sql))]⟩
    let arguments := ["a".toList, "./a".toList, "--debug".toList]
    Request.ofArguments arguments ≠ .error .helpAsked ∧
      Request.ofArguments arguments ≠ .error .versionAsked ∧
      (ofArguments files arguments).AllOrNothing files arguments ∧
      (ofArguments files arguments).status = 0 := by
  intro sql files arguments
  have hrequest : Request.ofArguments arguments =
      .ok ⟨"a".toList, some "./a".toList, "mysql".toList, none, true, 100⟩ := rfl
  have hhelp : Request.ofArguments arguments ≠ .error .helpAsked := by
    rw [hrequest]
    nofun
  have hversion : Request.ofArguments arguments ≠ .error .versionAsked := by
    rw [hrequest]
    nofun
  refine ⟨hhelp, hversion, ofArguments_allOrNothing files arguments hhelp hversion, ?_⟩
  rw [ofArguments_status_eq_zero_iff files arguments hhelp hversion]
  refine ⟨_, sql, ⟨_, hrequest, rfl⟩, rfl, ?_⟩
  rintro path ⟨⟩
  exact ⟨["a".toList], rfl, nofun⟩

end Run

end DdlDiagram.CommandLine
