/-
Table sites: the headers of a text whose opening bracket is code, each with the
bracket that closes its body.
-/
import DdlDiagram.Header
import DdlDiagram.Lexis.Bracket

namespace DdlDiagram

open Text

/-- A table definition in a text: its name and the byte offsets of the brackets
around its body. -/
structure TableSite where
  name : Text
  opening : Nat
  closing : Option Nat
deriving DecidableEq, Repr

namespace TableSite

/-- The site of a header, unless its bracket stands in a literal or a
comment. -/
def ofHeader? (pairs : List BracketPair) (header : Header) :
    Option TableSite :=
  (pairs.find? (·.opening == header.opening)).map fun pair =>
    ⟨header.name, header.opening, pair.closing⟩

/-- Every table site of a text, in order. -/
def all (lexis : Lexis) (text : Text) : List TableSite :=
  (Header.all text).filterMap (ofHeader? (lexis.bracketPairs text))

/-- The text between the brackets of a closed site. -/
def body (text : Text) (opening closing : Nat) : Text :=
  between (opening + 1) closing text

end TableSite

end DdlDiagram
