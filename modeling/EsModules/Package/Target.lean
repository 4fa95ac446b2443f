import EsModules.Json

/-!
# Targets of package maps

The value of an `exports` or `imports` field, or of an entry in it: a path, a branch by subpaths
or conditions, a list of fallbacks, or an exclusion.
-/

namespace EsModules

/-- A target of a package map. -/
inductive Target
  /-- A path or a package name. -/
  | path (text : List Char)
  /-- Targets under subpaths or conditions, in the order they are written in. -/
  | branch (entries : List (List Char × Target))
  /-- Targets tried in turn. -/
  | fallback (items : List Target)
  /-- Nothing, on purpose. -/
  | excluded
  deriving Repr, BEq

namespace Target

mutual

/-- The target that a JSON value stands for; what is no text, object or list excludes. -/
def ofJson : JsonValue → Target
  | .string text => .path text
  | .object members => .branch (ofMembers members)
  | .list items => .fallback (ofItems items)
  | _ => .excluded
termination_by structural v => v

/-- The entries that members stand for. -/
def ofMembers : List (List Char × JsonValue) → List (List Char × Target)
  | [] => []
  | m :: ms => ofMember m :: ofMembers ms
termination_by structural ms => ms

/-- The entry that a member stands for. -/
def ofMember : List Char × JsonValue → List Char × Target
  | (key, v) => (key, ofJson v)
termination_by structural m => m

/-- The fallbacks that items stand for. -/
def ofItems : List JsonValue → List Target
  | [] => []
  | v :: vs => ofJson v :: ofItems vs
termination_by structural vs => vs

end

/-- The entries of a branch. -/
def entries? : Target → Option (List (List Char × Target))
  | branch entries => some entries
  | _ => none

/-- The target under a key of a branch. -/
def get? (t : Target) (key : List Char) : Option Target :=
  (t.entries?.getD []).findSome? fun entry => if entry.1 == key then some entry.2 else none

mutual

/-- The paths in a target, each with the subpath it is published under: the nearest key that
starts with a dot. -/
def leaves (key : List Char) : Target → List (List Char × List Char)
  | .path text => [(key, text)]
  | .branch entries => entryLeaves key entries
  | .fallback items => itemLeaves key items
  | .excluded => []
termination_by structural t => t

/-- The paths in the entries of a branch. -/
def entryLeaves (key : List Char) : List (List Char × Target) → List (List Char × List Char)
  | [] => []
  | e :: es => oneEntryLeaves key e ++ entryLeaves key es
termination_by structural es => es

/-- The paths in one entry of a branch. -/
def oneEntryLeaves (key : List Char) : List Char × Target → List (List Char × List Char)
  | (k, t) => leaves (if k.head? == some '.' then k else key) t
termination_by structural e => e

/-- The paths in fallbacks. -/
def itemLeaves (key : List Char) : List Target → List (List Char × List Char)
  | [] => []
  | t :: ts => leaves key t ++ itemLeaves key ts
termination_by structural ts => ts

end

/-- The published subpaths of an exports map with the paths they lead to. -/
def publishedPaths (exports : Target) : List (List Char × List Char) := leaves ['.'] exports

end Target

end EsModules
