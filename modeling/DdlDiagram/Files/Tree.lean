/-
The files below a working directory, as far as reading one file and writing
another can tell: paths are followed name by name, and every name before the
last must be that of a directory.
-/
import DdlDiagram.Files.Path

namespace DdlDiagram.Files

open Text

/-- What stands at a place. -/
inductive Entry where
  | directory
  | file (content : ByteArray)

/-- Files are the same when their bytes are. -/
instance : DecidableEq Entry
  | .directory, .directory => isTrue rfl
  | .directory, .file _ => isFalse nofun
  | .file _, .directory => isFalse nofun
  | .file left, .file right =>
      decidable_of_iff (left.data = right.data)
        ⟨fun h => congrArg Entry.file (ByteArray.ext h),
          fun h => congrArg ByteArray.data (Entry.file.inj h)⟩

/-- A place: the names on the way from the working directory. -/
abbrev Place := List Text

/-- The entries below the working directory. -/
structure Tree where
  entries : List (Place × Entry)
deriving DecidableEq

namespace Tree

def empty : Tree := ⟨[]⟩

/-- The entry at a place; the working directory always is one. -/
def entryAt? (tree : Tree) : Place → Option Entry
  | [] => some .directory
  | name :: names => tree.entries.lookup (name :: names)

/-- The place that names lead to from another; the last name need not exist. -/
def follow (tree : Tree) (here : Place) : List Text → Option Place
  | [] => some here
  | name :: rest =>
      if tree.entryAt? here ≠ some .directory then none
      else if isStay name then follow tree here rest
      else if name = parentName then
        if here.isEmpty then none else follow tree here.dropLast rest
      else follow tree (here ++ [name]) rest

/-- The place of a path.  Paths that leave the working directory have none. -/
def place? (tree : Tree) (path : Text) : Option Place :=
  if path.head? = some '/' then none
  else tree.follow [] (splitAt '/' path)

/-- The entry a path leads to. -/
def entry? (tree : Tree) (path : Text) : Option Entry :=
  (tree.place? path).bind tree.entryAt?

/-- Put an entry at a place, in place of what stands there. -/
def put (tree : Tree) (place : Place) (entry : Entry) : Tree :=
  ⟨(place, entry) :: tree.entries.filter fun item => item.1 != place⟩

/-- Write a file, where its path leads to a place that is no directory. -/
def write? (tree : Tree) (path : Text) (content : ByteArray) :
    Option Tree := do
  let place ← tree.place? path
  if tree.entryAt? place = some .directory then none
  else some (tree.put place (.file content))

/-- Put an entry at a place and make the directories on the way to it.  The tree of a map of
files is what its entries make of the empty one. -/
def putDeep (tree : Tree) (place : Place) (entry : Entry) : Tree :=
  let ways := (List.range place.length).tail.map (place.take ·)
  (ways.foldl (fun tree way => tree.put way .directory) tree).put place entry

/-- The files that are new or have other contents than in an earlier tree. -/
def changed (earlier later : Tree) : List (Place × ByteArray) :=
  later.entries.filterMap fun (place, entry) =>
    match entry with
    | .directory => none
    | .file content =>
        if earlier.entryAt? place = some (.file content) then none
        else some (place, content)

end Tree

end DdlDiagram.Files
