/-
The arguments of the command line: an input path, an optional output path, and
options with short and long names.

A path, or the value that follows an option, is accepted only when the next
flag, option or path is met, or at the end.  So where arguments are wrong in
two ways, an unknown name is reported before an unaccepted value to its left.
-/
import DdlDiagram.Text.Blank

namespace DdlDiagram.CommandLine

open Text

/-- Why arguments ask for no conversion. -/
inductive UsageError where
  | helpAsked
  | versionAsked
  | missingInput
  | unknownArgument
  | missingValue
  | emptyPath
  | repeated
  | twoOutputs
  | unexpectedValue
  | notANumber
deriving DecidableEq, Repr

/-- What takes a value: the two paths by position, and the options. -/
inductive Slot where
  | input
  | secondPath
  | output
  | dialect
  | format
  | debugLines
deriving DecidableEq, Repr

/-- What takes no value. -/
inductive Flag where
  | debug
  | help
  | version
deriving DecidableEq, Repr

/-- What a name on the command line stands for. -/
inductive Named where
  | slot (slot : Slot)
  | flag (flag : Flag)
deriving DecidableEq, Repr

def longNames : List (Text × Named) :=
  [("output".toList, .slot .output), ("dialect".toList, .slot .dialect),
    ("format".toList, .slot .format),
    ("debug-lines".toList, .slot .debugLines),
    ("debug".toList, .flag .debug), ("help".toList, .flag .help),
    ("version".toList, .flag .version)]

def shortNames : List (Char × Named) :=
  [('o', .slot .output), ('f', .slot .format), ('d', .flag .debug),
    ('h', .flag .help), ('V', .flag .version)]

/-- The values accepted so far. -/
structure Accepted where
  input : Option Text
  secondPath : Option Text
  output : Option Text
  dialect : Option Text
  format : Option Text
  debugLines : Option Nat
  debug : Bool
deriving DecidableEq, Repr

namespace Accepted

def nothing : Accepted := ⟨none, none, none, none, none, none, false⟩

/-- Whether a slot has its value. -/
def has (accepted : Accepted) : Slot → Bool
  | .input => accepted.input.isSome
  | .secondPath => accepted.secondPath.isSome
  | .output => accepted.output.isSome
  | .dialect => accepted.dialect.isSome
  | .format => accepted.format.isSome
  | .debugLines => accepted.debugLines.isSome

end Accepted

/-- A path may be anything but empty. -/
def path (value : Text) : Except UsageError Text :=
  if value.isEmpty then .error .emptyPath else .ok value

/-- The number that decimal digits spell. -/
def digitsValue (digits : Text) : Nat :=
  digits.foldl (fun value c => 10 * value + (c.toNat - '0'.toNat)) 0

/-- A count is written in decimal digits, possibly behind a plus sign, and fits
into 64 bits. -/
def count (value : Text) : Except UsageError Nat :=
  let digits := match value with
    | '+' :: rest => rest
    | _ => value
  if digits.isEmpty || !digits.all Char.isDigit ||
      UInt64.size ≤ digitsValue digits then .error .notANumber
  else .ok (digitsValue digits)

/-- Accept a value for a slot.  A slot takes one value only. -/
def Accepted.accept (accepted : Accepted) (slot : Slot) (value : Text) :
    Except UsageError Accepted :=
  if accepted.has slot then .error .repeated
  else match slot with
    | .input => do return { accepted with input := ← path value }
    | .secondPath => do return { accepted with secondPath := ← path value }
    | .output => do return { accepted with output := ← path value }
    | .dialect => return { accepted with dialect := value }
    | .format => return { accepted with format := value }
    | .debugLines => do return { accepted with debugLines := ← count value }

/-- Arguments read up to some place: what is accepted, the slot whose value is
not yet accepted or not yet given, and the number of paths met. -/
structure Reading where
  accepted : Accepted
  waiting : Option (Slot × Option Text)
  paths : Nat
deriving DecidableEq, Repr

namespace Reading

def start : Reading := ⟨.nothing, none, 0⟩

/-- Accept the value that waits. -/
def settle (reading : Reading) : Except UsageError Reading :=
  match reading.waiting with
  | none => .ok reading
  | some (_, none) => .error .missingValue
  | some (slot, some value) => do
      let accepted ← reading.accepted.accept slot value
      return { reading with accepted := accepted, waiting := none }

/-- Meet a flag. -/
def raise (reading : Reading) (flag : Flag) : Except UsageError Reading := do
  let reading ← reading.settle
  match flag with
  | .help => .error .helpAsked
  | .version => .error .versionAsked
  | .debug =>
      if reading.accepted.debug then .error .repeated
      else
        return { reading with
          accepted := { reading.accepted with debug := true } }

/-- Meet an option with its value. -/
def give (reading : Reading) (slot : Slot) (value : Text) :
    Except UsageError Reading := do
  let reading ← reading.settle
  let accepted ← reading.accepted.accept slot value
  return { reading with accepted := accepted }

/-- Meet an option whose value is to follow. -/
def await (reading : Reading) (slot : Slot) : Except UsageError Reading := do
  let reading ← reading.settle
  return { reading with waiting := some (slot, none) }

/-- Meet a path. -/
def place (reading : Reading) (value : Text) : Except UsageError Reading :=
  let take (slot : Slot) : Except UsageError Reading := do
    let reading ← reading.settle
    return ⟨reading.accepted, some (slot, some value), reading.paths + 1⟩
  match reading.paths with
  | 0 => take .input
  | 1 => take .secondPath
  | _ => .error .unknownArgument

/-- Meet the short names behind one dash.  Behind an option's name the rest is
its value, with or without an equals sign. -/
def short (reading : Reading) : Text → Except UsageError Reading
  | [] => .ok reading
  | c :: rest =>
      match shortNames.lookup c with
      | none => .error .unknownArgument
      | some (.flag flag) => do
          let reading ← reading.raise flag
          reading.short rest
      | some (.slot slot) =>
          match rest with
          | [] => reading.await slot
          | '=' :: value => reading.give slot value
          | value => reading.give slot value

/-- Meet what stands behind two dashes: a long name, with a value behind an
equals sign or not. -/
def long (reading : Reading) (word : Text) : Except UsageError Reading :=
  let value := (word.dropWhile (· != '=')).tail?
  match longNames.lookup (before '=' word), value with
  | none, _ => .error .unknownArgument
  | some (.flag _), some _ => .error .unexpectedValue
  | some (.flag flag), none => reading.raise flag
  | some (.slot slot), some value => reading.give slot value
  | some (.slot slot), none => reading.await slot

/-- Meet one argument. -/
def meet (reading : Reading) (argument : Text) : Except UsageError Reading :=
  match argument with
  | '-' :: '-' :: word => reading.long word
  | '-' :: c :: rest => reading.short (c :: rest)
  | _ =>
      match reading.waiting with
      | some (slot, none) =>
          .ok { reading with waiting := some (slot, some argument) }
      | _ => reading.place argument

/-- Meet all arguments; behind two bare dashes all are paths. -/
def meetAll (reading : Reading) : List Text → Except UsageError Reading
  | [] => .ok reading
  | argument :: rest =>
      if argument = ['-', '-'] then rest.foldlM place reading
      else do
        let reading ← reading.meet argument
        reading.meetAll rest

end Reading

/-- A conversion as it is asked for. -/
structure Request where
  input : Text
  output : Option Text
  dialect : Text
  format : Option Text
  debug : Bool
  debugLines : Nat
deriving DecidableEq, Repr

/-- The number of debug lines shown when none is given. -/
def defaultDebugLines : Nat := 100

/-- The request that arguments spell.  The output path is given by position or
by option, not by both. -/
def Request.ofArguments (arguments : List Text) :
    Except UsageError Request := do
  let reading ← Reading.start.meetAll arguments
  let reading ← reading.settle
  let accepted := reading.accepted
  if accepted.secondPath.isSome && accepted.output.isSome then
    .error .twoOutputs
  else match accepted.input with
    | none => .error .missingInput
    | some input =>
        return {
          input := input
          output := accepted.output.or accepted.secondPath
          dialect := accepted.dialect.getD "mysql".toList
          format := accepted.format
          debug := accepted.debug
          debugLines := accepted.debugLines.getD defaultDebugLines }

end DdlDiagram.CommandLine
