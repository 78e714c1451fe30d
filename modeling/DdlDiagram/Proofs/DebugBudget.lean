/-
The budget of the debug log.  A log shows messages while there is room and counts the
others, so it shows the first of them and says how many there were besides.  As every
message is a line, the budget of a run is one of lines of its output, and what a run
tells in debug mode is what it tells otherwise with these lines put in.
-/
import DdlDiagram.Proofs.MessageLine
import DdlDiagram.Proofs.RunOutcome

namespace DdlDiagram

open Text

namespace DebugLog

/-- The lines of a budget: the first messages, each marked, and the number of those
that were cut, when any was. -/
def budgeted (budget : Nat) (messages : List Text) : List Text :=
  (messages.take (min budget messages.length)).map ("[debug] ".toList ++ ·) ++
    if budget < messages.length then [suppressionLine (messages.length - budget)]
    else []

/-- Writing messages one by one shows as many of them as there is room for. -/
theorem foldl_write (log : DebugLog) (messages : List Text) :
    messages.foldl write log =
      ⟨log.room - messages.length, (messages.take log.room).reverse ++ log.shown,
        log.suppressed + (messages.length - log.room)⟩ := by
  induction messages generalizing log with
  | nil => simp
  | cons message rest ih =>
      obtain ⟨room, shown, suppressed⟩ := log
      cases room with
      | zero =>
          have hwrite : write ⟨0, shown, suppressed⟩ message =
              ⟨0, shown, suppressed + 1⟩ := rfl
          simp only [List.foldl_cons, hwrite, ih, List.length_cons]
          simp
          omega
      | succ room =>
          have hwrite : write ⟨room + 1, shown, suppressed⟩ message =
              ⟨room, message :: shown, suppressed⟩ := rfl
          simp only [List.foldl_cons, hwrite, ih, List.length_cons]
          simp

/-- A log that was given messages has the lines of its budget. -/
theorem lines_foldl_write (budget : Nat) (messages : List Text) :
    (messages.foldl write (withBudget budget)).lines = budgeted budget messages := by
  have htake : messages.take (min budget messages.length) = messages.take budget := by
    simp
  rw [foldl_write, lines, budgeted, htake]
  by_cases hcut : budget < messages.length
  · have hleft : messages.length - budget ≠ 0 := by omega
    simp [withBudget, hcut, hleft]
  · have hleft : messages.length - budget = 0 := by omega
    simp [withBudget, hcut, hleft]

theorem isLine_suppressionLine (count : Nat) : IsLine (suppressionLine count) := by
  have hlead : IsLine "[debug] ... ".toList := by decide
  exact (hlead.append (isLine_decimal count)).append (by decide)

/-- Lines within a budget are lines. -/
theorem isLine_of_mem_budgeted {budget : Nat} {messages : List Text}
    (h : ∀ message ∈ messages, IsLine message) {line : Text}
    (hline : line ∈ budgeted budget messages) : IsLine line := by
  rcases List.mem_append.mp hline with hshown | hcut
  · obtain ⟨message, hmessage, rfl⟩ := List.mem_map.mp hshown
    have hmark : IsLine "[debug] ".toList := by decide
    exact hmark.append (h message (List.mem_of_mem_take hmessage))
  · split at hcut
    · rw [List.mem_singleton.mp hcut]
      exact isLine_suppressionLine _
    · contradiction

end DebugLog

namespace CommandLine

/-- What a run tells in front of its debug lines. -/
def Options.toldBefore (options : Options) : List Text :=
  if options.tellsProgress then [Rendering.progressLine options] else []

/-- What a run tells about a schema without tables. -/
def Options.toldEmpty (options : Options) (schema : Schema) : List Text :=
  if options.tellsProgress && schema.tables.isEmpty then
    ["No tables found in the file.".toList]
  else []

/-- What a run that succeeds tells behind its debug lines. -/
def Options.toldAfter (options : Options) (schema : Schema) : List Text :=
  options.toldEmpty schema ++ (options.output.map writtenLine).toList ++
    if options.tellsProgress then [Rendering.summaryLine schema] else []

theorem Rendering.debugLines_eq {options : Options} (hdebug : options.debug = true)
    (extraction : Extraction) :
    debugLines options extraction =
      DebugLog.budgeted options.debugLines (debugMessages extraction) := by
  rw [debugLines, if_pos hdebug, DebugLog.lines_foldl_write]

theorem Rendering.told_ofSql (options : Options) (sql : Text) :
    let extraction := Extraction.ofSql options.dialect sql
    (ofSql options sql).told = options.toldBefore ++
      (debugLines options extraction ++ options.toldEmpty extraction.schema) := by
  unfold ofSql Options.toldBefore Options.toldEmpty
  generalize "No tables found in the file.".toList = note
  cases options.tellsProgress <;>
    cases (Extraction.ofSql options.dialect sql).schema.tables.isEmpty <;> simp

/-- Lines that each stay on a line are the lines of their text. -/
theorem splitAt_ended {lines : List Text} (h : ∀ line ∈ lines, IsLine line) :
    splitAt '\n' (ended lines) = lines ++ [[]] := by
  have hnewline : ∀ line ∈ lines, '\n' ∉ id line := fun line hline =>
    (h line hline).newline_not_mem
  have hsplit := splitAt_flatMap hnewline
  rwa [List.map_id] at hsplit

namespace Run

variable {files : Files.Tree} {arguments : List Text} {options : Options} {sql : Text}

/-- What a conversion tells when it succeeds. -/
theorem messages_of_status (hsql : options.Reads files sql)
    (hstatus : (convert files options).status = 0) :
    let extraction := Extraction.ofSql options.dialect sql
    (convert files options).messages = ended (options.toldBefore ++
      (Rendering.debugLines options extraction ++
        options.toldAfter extraction.schema)) := by
  have hread := readInput_eq_ok_iff.mpr hsql
  have htold := Rendering.told_ofSql options sql
  have hsummary : (Rendering.ofSql options sql).summary =
      if options.tellsProgress then
        [Rendering.summaryLine (Extraction.ofSql options.dialect sql).schema]
      else [] := rfl
  cases houtput : options.output with
  | none =>
      simp only [convert_eq, hread, houtput, Options.toldAfter, htold, hsummary]
      simp
  | some path =>
      cases hwrite : files.write? path (encode (Rendering.ofSql options sql).content) with
      | none => simp [convert_eq, hread, houtput, hwrite] at hstatus
      | some later =>
          simp only [convert_eq, hread, houtput, hwrite, Options.toldAfter, htold, hsummary]
          simp

/-- Every message is a line, a clause that was discarded is told in at most sixty
characters, and a run in debug mode tells, between its progress and its summary, the
messages that its budget lets through and how many it cut; so what it tells there are as
many lines as the budget has. -/
theorem ofArguments_debugBudget :
    (∀ dialect sql,
      let extraction := Extraction.ofSql dialect sql
      ∀ message ∈ extraction.notices.map Notice.message ++
          extraction.schema.tables.map (fun table =>
            "table ".toList ++ table.name ++ ": ".toList ++
              decimal table.columns.length ++ " column(s)".toList),
        '\n' ∉ message ∧ '\r' ∉ message) ∧
    (∀ table clause,
      Notice.message (.discardedClause table clause) =
          "Discarded clause in '".toList ++ table ++ "': ".toList ++ Notice.preview clause ∧
        (Notice.preview clause).length ≤ 60) ∧
    ∀ files arguments options sql, Options.Asked options arguments →
      options.Reads files sql → options.debug = true →
      (ofArguments files arguments).status = 0 →
      let extraction := Extraction.ofSql options.dialect sql
      let messages := extraction.notices.map Notice.message ++
        extraction.schema.tables.map fun table =>
          "table ".toList ++ table.name ++ ": ".toList ++
            decimal table.columns.length ++ " column(s)".toList
      let shown := (messages.take (min options.debugLines messages.length)).map
          ("[debug] ".toList ++ ·) ++
        if options.debugLines < messages.length then
          ["[debug] ... ".toList ++ decimal (messages.length - options.debugLines) ++
            " more line(s) suppressed (raise --debug-lines to see them)".toList]
        else []
      (ofArguments files arguments).messages =
          ended (options.toldBefore ++ (shown ++ options.toldAfter extraction.schema)) ∧
        splitAt '\n' (ended shown) = shown ++ [[]] := by
  refine ⟨fun dialect sql message hmessage => ?_,
    fun table clause => ⟨rfl, Notice.length_preview_le clause⟩, ?_⟩
  · have hline := Extraction.isLine_debugMessages hmessage
    exact ⟨hline.newline_not_mem, hline.return_not_mem⟩
  · intro files arguments options sql hasked hsql hdebug hstatus
    rw [ofArguments_of_asked hasked] at hstatus ⊢
    have hmessages := messages_of_status hsql hstatus
    simp only [Rendering.debugLines_eq hdebug] at hmessages
    refine ⟨hmessages, splitAt_ended fun line hline => ?_⟩
    exact DebugLog.isLine_of_mem_budgeted
      (fun _ hmessage => Extraction.isLine_debugMessages hmessage) hline

/-- A run that has two lines for three messages, a notice and one for each table. -/
theorem ofArguments_debugBudget_two :
    let sql := "CREATE TABLE t (x FOO); CREATE TABLE u (y INT, z INT)".toList
    let files : Files.Tree := ⟨[(["a".toList], .file (encode sql))]⟩
    let arguments := ["a".toList, "--debug".toList, "--debug-lines".toList, "2".toList]
    let options : Options := ⟨"a".toList, none, .mysql, .mermaid, true, 2⟩
    Options.Asked options arguments ∧ options.Reads files sql ∧ options.debug = true ∧
      (ofArguments files arguments).status = 0 ∧
      (ofArguments files arguments).messages =
        ended ["Generating ERD: a [dialect: mysql]".toList,
          "[debug] Unknown type 'FOO' for t.x, using VARCHAR".toList,
          "[debug] table t: 1 column(s)".toList,
          "[debug] ... 1 more line(s) suppressed (raise --debug-lines to see them)".toList,
          "ERD: 2 tables, 3 columns, 0 relationships".toList] := by
  intro sql files arguments options
  have hasked : Options.Asked options arguments :=
    ⟨⟨"a".toList, none, "mysql".toList, none, true, 2⟩, rfl, rfl⟩
  have hsql : options.Reads files sql := rfl
  have hstatus : (ofArguments files arguments).status = 0 := by
    rw [ofArguments_of_asked hasked, convert_eq, readInput_eq_ok_iff.mpr hsql]
  have hextraction : Extraction.ofSql options.dialect sql =
      ⟨⟨[⟨"t".toList, [⟨"x".toList, .varchar, false, false⟩]⟩,
          ⟨"u".toList, [⟨"y".toList, .int, false, false⟩, ⟨"z".toList, .int, false, false⟩]⟩],
        []⟩, [.unknownType "t".toList "x".toList "FOO".toList]⟩ := by
    decide +kernel
  have hrun := (ofArguments_debugBudget.2.2 files arguments options sql hasked hsql rfl
    hstatus).1
  rw [hextraction] at hrun
  refine ⟨hasked, hsql, rfl, hstatus, hrun.trans ?_⟩
  decide +kernel

end Run

end CommandLine

end DdlDiagram
