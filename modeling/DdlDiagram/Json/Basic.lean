/-
JSON documents: the values a report is made of and their layout over several
lines.
-/
import DdlDiagram.Text.Basic

namespace DdlDiagram

open Text

/-- A JSON value.  Numbers are counts; the fields of an object are written in
the order they are listed. -/
inductive Json where
  | bool (value : Bool)
  | number (value : Nat)
  | string (value : Text)
  | array (items : List Json)
  | object (fields : List (Text × Json))
deriving Repr

namespace Json

/-- A digit of a hexadecimal number, in lower case. -/
def hexDigit (n : Nat) : Char :=
  Nat.digitChar (n % 16)

/-- How a character is written inside a string: the quote, the backslash and
control characters are escaped, all else stands for itself. -/
def escaped (c : Char) : Text :=
  match c with
  | '"' => ['\\', '"']
  | '\\' => ['\\', '\\']
  | '\x08' => ['\\', 'b']
  | '\x0c' => ['\\', 'f']
  | '\n' => ['\\', 'n']
  | '\r' => ['\\', 'r']
  | '\t' => ['\\', 't']
  | c =>
      if c.toNat < 0x20 then
        ['\\', 'u', '0', '0', hexDigit (c.toNat / 16), hexDigit c.toNat]
      else [c]

/-- A string in quotes. -/
def quoted (text : Text) : Text :=
  '"' :: text.flatMap escaped ++ ['"']

/-- The start of a line that is indented by two spaces per level. -/
def lineStart (depth : Nat) : Text :=
  '\n' :: List.replicate (2 * depth) ' '

mutual

/-- A value whose inner lines are indented one level deeper than its own
line. -/
def layoutAt (depth : Nat) : Json → Text
  | bool true => "true".toList
  | bool false => "false".toList
  | number n => decimal n
  | string text => quoted text
  | array [] => "[]".toList
  | array (item :: rest) =>
      '[' :: layoutItems (depth + 1) (item :: rest) ++ lineStart depth ++ [']']
  | object [] => "\x7b\x7d".toList
  | object (field :: rest) =>
      '{' :: layoutFields (depth + 1) (field :: rest) ++ lineStart depth ++
        ['}']

/-- The items of an array, each on lines of its own. -/
def layoutItems (depth : Nat) : List Json → Text
  | [] => []
  | item :: rest =>
      lineStart depth ++ layoutAt depth item ++
        (if rest.isEmpty then [] else [',']) ++ layoutItems depth rest

/-- The fields of an object, each on lines of its own. -/
def layoutFields (depth : Nat) : List (Text × Json) → Text
  | [] => []
  | (key, value) :: rest =>
      lineStart depth ++ quoted key ++ [':', ' '] ++ layoutAt depth value ++
        (if rest.isEmpty then [] else [',']) ++ layoutFields depth rest

end

/-- The text of a document. -/
def layout (json : Json) : Text :=
  layoutAt 0 json

example : (object [("a".toList, array [number 1, bool true]),
    ("b".toList, array [])]).layout =
      "\x7b\n  \"a\": [\n    1,\n    true\n  ],\n  \"b\": []\n\x7d".toList := by
  decide

example : quoted "\"\\\x01\x1f\x7f".toList =
    "\"\\\"\\\\\\u0001\\u001f\x7f\"".toList := by
  decide

end Json

end DdlDiagram
