/-
The output formats and how a schema is rendered in each.
-/
import DdlDiagram.Diagram.Mermaid
import DdlDiagram.Diagram.Report

namespace DdlDiagram

open Text

inductive Format where
  | mermaid
  | json
deriving DecidableEq, Repr

namespace Format

def name : Format → Text
  | mermaid => "mermaid".toList
  | json => "json".toList

/-- Every accepted name, in lower case. -/
def aliases : List (Text × Format) :=
  [("mermaid".toList, mermaid), ("mmd".toList, mermaid),
    ("md".toList, mermaid), ("json".toList, json)]

/-- The format of that name or alias, in any letter case. -/
def ofName? (text : Text) : Option Format :=
  aliases.lookup (lower text)

/-- What is said about a name that no format has. -/
def unknownMessage (text : Text) : Text :=
  "Unknown format: ".toList ++ text ++ ". Valid options: mermaid, json".toList

/-- Every file extension that tells a format, in lower case. -/
def extensions : List (Text × Format) :=
  [("mmd".toList, mermaid), ("mermaid".toList, mermaid),
    ("md".toList, mermaid), ("markdown".toList, mermaid),
    ("json".toList, json)]

/-- The format a file extension tells, in any letter case. -/
def ofExtension? (text : Text) : Option Format :=
  extensions.lookup (lower text)

/-- A schema in a format. -/
def render (schema : Schema) : Format → Text
  | mermaid => Mermaid.fenced (Mermaid.ofSchema schema)
  | json => (Report.ofSchema schema).layout ++ ['\n']

theorem ofName?_name (format : Format) : ofName? format.name = some format := by
  cases format <;> decide

end Format

end DdlDiagram
