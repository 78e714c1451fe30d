/-
From SQL text to a schema in one step: the text is cleaned, then read.
-/
import DdlDiagram.CleanText
import DdlDiagram.Diagram.Mermaid
import DdlDiagram.Extraction

namespace DdlDiagram

/-- The schema of a SQL text, with notices whose offsets count in the clean
text. -/
def Extraction.ofSql (dialect : Dialect) (sql : Text) : Extraction :=
  ofText dialect (CleanText.ofText dialect sql)

/-- The Mermaid diagram of a SQL text, without a fence. -/
def Mermaid.ofSql (dialect : Dialect) (sql : Text) : Text :=
  ofSchema (Extraction.ofSql dialect sql).schema

end DdlDiagram
