/-
Paths: names separated by slashes, and the extension of the last name.
-/
import DdlDiagram.Text.Blank

namespace DdlDiagram.Files

open Text

/-- The name for the directory itself, which leads nowhere. -/
def isStay (name : Text) : Bool :=
  name.isEmpty || name == ".".toList

/-- The name of the directory above. -/
def parentName : Text := "..".toList

/-- The last name of a path that is the name of something. -/
def fileName? (path : Text) : Option Text :=
  match ((splitAt '/' path).filter fun name => !isStay name).getLast? with
  | some name => if name = parentName then none else some name
  | none => none

/-- The extension of a path: the text behind the last dot of its last name,
where that dot is not the first character. -/
def extension? (path : Text) : Option Text := do
  let name ← fileName? path
  let fromEnd := name.reverse
  match fromEnd.dropWhile (· != '.') with
  | _ :: _ :: _ => some (before '.' fromEnd).reverse
  | _ => none

example : extension? "a.b/c.md.json/./".toList = some "json".toList ∧
    extension? ".json".toList = none ∧
    extension? "..json".toList = some "json".toList ∧
    extension? "a.".toList = some [] := by
  decide

end DdlDiagram.Files
