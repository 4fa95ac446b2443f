import EsModules.FileTree
import EsModules.Module.Id

/-!
# Reading file trees from disk

A command works on a file tree, so what it may look at is read before it runs: all that lies at
and below some places, and on the way to them the manifests and installed packages.  The targets
of links are read in the same way.
-/

namespace EsModules.Disk

/-- The names that lead to a place from the root. -/
abbrev Place := List String

/-- The path of a place. -/
def pathOf (place : Place) : String := "/" ++ "/".intercalate place

/-- The place that an absolute path without dots leads to. -/
def placeOf (path : String) : Place :=
  (Text.splitOn '/' path.toList).filterMap fun name =>
    if name.isEmpty then none else some (String.ofList name)

/-- An entry of a file tree with its place. -/
def entry (place : Place) (e : Entry) : List FilePath × Entry :=
  (place.map fun name => FilePath.ofText name.toList, e)

/-- What stands at a place in a directory that is no link; nothing if it cannot be read.  A link
leads straight to its real target. -/
def entryAt (place : Place) : IO (Option Entry) := do
  try
    let real ← IO.FS.realPath (pathOf place)
    if real.toString != pathOf place then
      return some (.link (FilePath.ofText real.toString.toList))
    match (← real.metadata).type with
    | .dir => return some .directory
    | .file => return some (.file (← IO.FS.readBinFile (pathOf place)).toList)
    | _ => return none
  catch _ => return none

/-- The names in a directory. -/
def namesIn (place : Place) : IO (List String) := do
  try
    let real ← IO.FS.realPath (pathOf place)
    return (← real.readDir).toList.map (·.fileName)
  catch _ => return []

/-- The entries at and below a place. -/
partial def entriesBelow (place : Place) : IO (List (List FilePath × Entry)) := do
  match ← entryAt place with
  | none => return []
  | some .directory =>
    let below ← (← namesIn place).mapM fun name => entriesBelow (place ++ [name])
    return entry place .directory :: below.flatten
  | some e => return [entry place e]

/-- The entries on the way to a place: each directory with its manifest and the packages installed
in it. -/
def entriesAround (place : Place) : IO (List (List FilePath × Entry)) := do
  let onWay ← (List.range (place.length + 1)).mapM fun n => do
    let here := place.take n
    let manifest := here ++ ["package.json"]
    let packages ← entriesBelow (here ++ ["node_modules"])
    let own := ((← entryAt here).map (entry here)).toList
    return own ++ ((← entryAt manifest).map (entry manifest)).toList ++ packages
  return onWay.flatten

/-- The targets of the links among entries. -/
def targets (entries : List (List FilePath × Entry)) : List Place :=
  entries.filterMap fun e => match e.2 with
    | .link target => some (placeOf (String.ofList target.display))
    | _ => none

/-- The entries at, below and around places, and those that links among them lead to; the root
itself is not searched. -/
partial def entriesFrom (done : List Place) : List Place → IO (List (List FilePath × Entry))
  | [] => return []
  | place :: rest => do
    if done.contains place || place.isEmpty then entriesFrom done rest
    else
      let found := (← entriesAround place) ++ (← entriesBelow place)
      return found ++ (← entriesFrom (place :: done) (targets found ++ rest))

/-- The places that a word of a command line may name: the path in it, and the directory of that
path. -/
def placesOf (cwd : Place) (word : String) : List Place :=
  let value := ((Text.splitOnce ['='] word.toList).map (·.2)).getD word.toList
  match Id.toPath value with
  | .error _ => []
  | .ok path =>
    let whole := FilePath.absolute (FilePath.ofText (pathOf cwd).toList) (FilePath.ofText path)
    let place := placeOf (String.ofList whole.display)
    [place, place.dropLast]

/-- The file tree that a command line works on. -/
def treeFor (words : List String) : IO FileTree := do
  let cwd := placeOf (← IO.FS.realPath (← IO.currentDir)).toString
  let named ← (words.flatMap (placesOf cwd)).filterM fun place => return (← entryAt place).isSome
  let entries ← entriesFrom [] (cwd :: named)
  let sorted := entries.mergeSort fun a b => decide (a.1 ≤ b.1)
  return ⟨(sorted.eraseRepsBy fun a b => a.1 == b.1).filter fun e => !e.1.isEmpty,
    cwd.map fun name => FilePath.ofText name.toList⟩

end EsModules.Disk
