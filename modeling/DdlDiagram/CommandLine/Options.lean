/-
The options of a conversion, resolved from what was asked for.
-/
import DdlDiagram.CommandLine.Request
import DdlDiagram.Dialect
import DdlDiagram.Diagram.Format
import DdlDiagram.Files.Path

namespace DdlDiagram.CommandLine

open Text

/-- Why a request has no options. -/
inductive OptionsError where
  | unknownDialect (name : Text)
  | unknownFormat (name : Text)
deriving DecidableEq, Repr

def OptionsError.message : OptionsError → Text
  | unknownDialect name => Dialect.unknownMessage name
  | unknownFormat name => Format.unknownMessage name

structure Options where
  input : Text
  output : Option Text
  dialect : Dialect
  format : Format
  debug : Bool
  debugLines : Nat
deriving DecidableEq, Repr

namespace Options

/-- The format that is asked for, or else told by the extension of the output
path, or else Mermaid. -/
def resolveFormat (format output : Option Text) :
    Except OptionsError Format :=
  match format with
  | some name =>
      match Format.ofName? name with
      | some format => .ok format
      | none => .error (.unknownFormat name)
  | none =>
      .ok (((output.bind Files.extension?).bind Format.ofExtension?).getD
        .mermaid)

/-- The options of a request; the dialect is looked at first. -/
def ofRequest (request : Request) : Except OptionsError Options := do
  let dialect ← match Dialect.ofName? request.dialect with
    | some dialect => .ok dialect
    | none => .error (.unknownDialect request.dialect)
  let format ← resolveFormat request.format request.output
  return {
    input := request.input
    output := request.output
    dialect := dialect
    format := format
    debug := request.debug
    debugLines := request.debugLines }

/-- Whether progress is told: not where JSON goes to standard output. -/
def tellsProgress (options : Options) : Bool :=
  options.format != .json || options.output.isSome

end Options

end DdlDiagram.CommandLine
