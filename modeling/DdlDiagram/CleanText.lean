/-
Clean text: SQL without the quotes a dialect puts around names and without
table options, in which every table definition ends with a semicolon.
-/
import DdlDiagram.TableOption
import DdlDiagram.TableSite

namespace DdlDiagram.CleanText

open Text

/-- The text without a dialect's name quotes.  Only string literals keep theirs;
a comment is read like code. -/
def unquoteNames (dialect : Dialect) (text : Text) : Text :=
  ((dialect.literalLexis.trace .code text).filter fun glyph =>
    glyph.mode.inLiteral || !dialect.nameQuotes.contains glyph.char).map
      Glyph.char

/-- Whether the first character that is not blank is a semicolon. -/
def isTerminated (text : Text) : Bool :=
  (trimStart text).head? == some ';'

/-- End the table definitions at the given sites of a text that starts at a
byte offset: after the bracket that closes a body the options are dropped, and
a semicolon is put where none follows.  A site that closes before the offset
stands in a body or in options that were passed already. -/
def terminateSites (offset : Nat) (text : Text) : List TableSite → Text
  | [] => text
  | site :: rest =>
      match site.closing with
      | none => terminateSites offset text rest
      | some closing =>
          if closing < offset then terminateSites offset text rest
          else
            let length := closing + 1 - offset
            let tail := dropBytes length text
            let remaining := TableOption.afterAll tail
            let next := closing + 1 + (byteLength tail - byteLength remaining)
            takeBytes length text ++
              (if isTerminated remaining then [] else [';']) ++
              terminateSites next remaining rest

/-- The text with every table definition ended. -/
def terminateTables (dialect : Dialect) (text : Text) : Text :=
  terminateSites 0 text (TableSite.all dialect.lexis text)

/-- The clean form of a text; dialects that quote no names pass unchanged. -/
def ofText (dialect : Dialect) (text : Text) : Text :=
  if dialect.isCleaned then
    terminateTables dialect (unquoteNames dialect text)
  else text

example : ofText .mysql
    "CREATE TABLE `a` (`id` INT)\nCREATE TABLE b (id INT) ENGINE=MyISAM\n".toList =
      "CREATE TABLE a (id INT);\nCREATE TABLE b (id INT);\n".toList := by
  decide +kernel

end DdlDiagram.CleanText
