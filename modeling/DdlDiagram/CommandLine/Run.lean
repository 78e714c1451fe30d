/-
A run of the program: from arguments and files to the exit status, what is
written to the two output streams, and the files afterwards.  What is done, and
in which order, is the same for every host; the runs that are reasoned about
have a tree of files for theirs.
-/
import DdlDiagram.CommandLine.Options
import DdlDiagram.Conversion
import DdlDiagram.DebugLog
import DdlDiagram.Files.Tree

namespace DdlDiagram.CommandLine

open Text

/-- The text of UTF-8 bytes. -/
def decode? (bytes : ByteArray) : Option Text :=
  (String.fromUTF8? bytes).map String.toList

/-- The UTF-8 bytes of a text. -/
def encode (text : Text) : ByteArray :=
  (String.ofList text).toUTF8

/-- Each line with the newline that ends it. -/
def ended (lines : List Text) : Text :=
  lines.flatMap (· ++ ['\n'])

theorem ended_append (front back : List Text) :
    ended (front ++ back) = ended front ++ ended back :=
  List.flatMap_append

/-- A conversion that is done but not yet written: what is told before, the
diagram, and what is told after. -/
structure Rendering where
  told : List Text
  content : Text
  summary : List Text
deriving DecidableEq, Repr

namespace Rendering

def progressLine (options : Options) : Text :=
  "Generating ERD: ".toList ++ options.input ++ " [dialect: ".toList ++
    options.dialect.name ++ "]".toList

/-- The debug line of a table. -/
def tableLine (table : Table) : Text :=
  "table ".toList ++ table.name ++ ": ".toList ++
    decimal table.columns.length ++ " column(s)".toList

/-- All debug lines there are: the notices, then the tables. -/
def debugMessages (extraction : Extraction) : List Text :=
  extraction.notices.map Notice.message ++
    extraction.schema.tables.map tableLine

/-- The debug lines that are shown. -/
def debugLines (options : Options) (extraction : Extraction) : List Text :=
  if options.debug then
    ((debugMessages extraction).foldl DebugLog.write
      (.withBudget options.debugLines)).lines
  else []

def summaryLine (schema : Schema) : Text :=
  "ERD: ".toList ++ decimal schema.drawable.length ++ " tables, ".toList ++
    decimal schema.columnCount ++ " columns, ".toList ++
    decimal schema.relationshipCount ++ " relationships".toList

/-- Convert a SQL text. -/
def ofSql (options : Options) (sql : Text) : Rendering :=
  let extraction := Extraction.ofSql options.dialect sql
  let schema := extraction.schema
  let progress (line : Text) := if options.tellsProgress then [line] else []
  { told := progress (progressLine options) ++
      debugLines options extraction ++
      if schema.tables.isEmpty then
        progress "No tables found in the file.".toList
      else []
    content := Format.render schema options.format
    summary := progress (summaryLine schema) }

end Rendering

/-- Why a conversion fails. -/
inductive Failure where
  | noInput (path : Text)
  | unreadableInput (path : Text)
  | uncreatableOutput (path : Text)
deriving DecidableEq, Repr

def Failure.message : Failure → Text
  | noInput path => "input file does not exist: ".toList ++ path
  | unreadableInput path => "Cannot read input file: ".toList ++ path
  | uncreatableOutput path => "Cannot create output file: ".toList ++ path

/-- What is told once the output file is written. -/
def writtenLine (path : Text) : Text :=
  "ERD written to: ".toList ++ path

/-- What is written for a request for the version. -/
def versionText : Text := "sql-erd 0.1.0\n".toList

/-- What is written for a request for help. -/
def helpText : Text :=
  ("Convert SQL CREATE TABLE schemas into Mermaid ER diagrams\n\n" ++
    "Usage: sql-erd [OPTIONS] <INPUT> [OUTPUT]\n").toList

/-- What a usage error is told as. -/
def usageText : Text :=
  "Usage: sql-erd [OPTIONS] <INPUT> [OUTPUT]\n".toList

/-- The exit status of a usage error. -/
def Run.usageStatus : Nat := 2

/-- What a run does to the system it runs on: it loads the text of a file, saves a text
unless the file cannot be made, prints on the output stream and tells on the error
stream. -/
structure Host (m : Type → Type) where
  load : Text → m (Except Failure Text)
  save : Text → Text → m Bool
  print : Text → m Unit
  tell : Text → m Unit

namespace Host

variable {m : Type → Type} [Monad m] (host : Host m)

/-- Convert as the options say, up to the exit status. -/
def convert (options : Options) : m Nat := do
  match ← host.load options.input with
  | .error failure =>
      host.tell (ended [failure.message])
      return 1
  | .ok sql =>
      let rendering := Rendering.ofSql options sql
      host.tell (ended rendering.told)
      match options.output with
      | none =>
          host.print rendering.content
          host.tell (ended rendering.summary)
          return 0
      | some path =>
          if ← host.save path rendering.content then
            host.tell (ended (writtenLine path :: rendering.summary))
            return 0
          else
            host.tell (ended [(Failure.uncreatableOutput path).message])
            return 1

/-- Run the program with the given arguments, up to the exit status. -/
def run (arguments : List Text) : m Nat := do
  match Request.ofArguments arguments with
  | .error .helpAsked =>
      host.print helpText
      return 0
  | .error .versionAsked =>
      host.print versionText
      return 0
  | .error _ =>
      host.tell usageText
      return Run.usageStatus
  | .ok request =>
      match Options.ofRequest request with
      | .error error =>
          host.tell (ended [error.message])
          return 1
      | .ok options => host.convert options

end Host

/-- What a run has printed and told so far, and the files as they stand. -/
structure Effects where
  output : Text
  messages : Text
  files : Files.Tree

/-- The input of a conversion as text. -/
def readInput (files : Files.Tree) (input : Text) : Except Failure Text :=
  match files.entry? input with
  | none => .error (.noInput input)
  | some .directory => .error (.unreadableInput input)
  | some (.file content) =>
      match decode? content with
      | none => .error (.unreadableInput input)
      | some sql => .ok sql

/-- A host over a tree of files. -/
def Host.overTree : Host (StateM Effects) where
  load input := return readInput (← get).files input
  save path content := do
    let effects ← get
    match effects.files.write? path (encode content) with
    | none => return false
    | some files =>
        set { effects with files }
        return true
  print text := modify fun effects => { effects with output := effects.output ++ text }
  tell text := modify fun effects => { effects with messages := effects.messages ++ text }

/-- The end of a run. -/
structure Run where
  status : Nat
  output : Text
  messages : Text
  files : Files.Tree
deriving DecidableEq

namespace Run

/-- What an action with an exit status comes to over the given files. -/
def ofAction (files : Files.Tree) (action : StateM Effects Nat) : Run :=
  let (status, effects) := (action.run ⟨[], [], files⟩).run
  ⟨status, effects.output, effects.messages, effects.files⟩

/-- Convert as the options say. -/
def convert (files : Files.Tree) (options : Options) : Run :=
  ofAction files (Host.overTree.convert options)

/-- Run the program with the given arguments. -/
def ofArguments (files : Files.Tree) (arguments : List Text) : Run :=
  ofAction files (Host.overTree.run arguments)

/-- What comes of a conversion, case by case. -/
theorem convert_eq (files : Files.Tree) (options : Options) :
    convert files options =
      match readInput files options.input with
      | .error failure => ⟨1, [], ended [failure.message], files⟩
      | .ok sql =>
          let rendering := Rendering.ofSql options sql
          match options.output with
          | none =>
              ⟨0, rendering.content, ended (rendering.told ++ rendering.summary), files⟩
          | some path =>
              match files.write? path (encode rendering.content) with
              | none =>
                  ⟨1, [], ended (rendering.told ++
                    [(Failure.uncreatableOutput path).message]), files⟩
              | some files =>
                  ⟨0, [], ended (rendering.told ++ writtenLine path :: rendering.summary),
                    files⟩ := by
  simp only [convert, ofAction, Host.convert, Host.overTree]
  cases hread : readInput files options.input with
  | error failure => simp [hread]
  | ok sql =>
      cases houtput : options.output with
      | none => simp [hread, ended_append]
      | some path =>
          cases hwrite : files.write? path (encode (Rendering.ofSql options sql).content) with
          | none => simp [hread, hwrite, ended_append]
          | some later => simp [hread, hwrite, ended_append]

/-- What comes of a run, case by case. -/
theorem ofArguments_eq (files : Files.Tree) (arguments : List Text) :
    ofArguments files arguments =
      match Request.ofArguments arguments with
      | .error .helpAsked => ⟨0, helpText, [], files⟩
      | .error .versionAsked => ⟨0, versionText, [], files⟩
      | .error _ => ⟨usageStatus, [], usageText, files⟩
      | .ok request =>
          match Options.ofRequest request with
          | .error error => ⟨1, [], ended [error.message], files⟩
          | .ok options => convert files options := by
  simp only [ofArguments, convert, ofAction, Host.run]
  cases hrequest : Request.ofArguments arguments with
  | error error => cases error <;> simp [Host.overTree]
  | ok request =>
      cases hoptions : Options.ofRequest request with
      | error error => simp [Host.overTree, hoptions]
      | ok options => simp [hoptions]

end Run

end DdlDiagram.CommandLine
