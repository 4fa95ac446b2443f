import EsModules.Resolution.Resolver

/-!
# CommonJS modules

What a CommonJS module knows of itself: the name of its file, its directory, and how it resolves
what it requires.
-/

namespace EsModules

/-- What a CommonJS module knows of itself. -/
structure CommonJs where
  /-- Its path. -/
  filename : List Char
  /-- The path of its directory. -/
  dirname : List Char
  /-- How it resolves what it requires. -/
  resolver : Resolver

namespace CommonJs

/-- The conditions that hold when a module is required. -/
def conditions : List (List Char) := ["node", "require"].map String.toList

/-- The directory of a path; the dot stands for that of a path without slashes. -/
def directory (path : List Char) : List Char :=
  match Text.splitLast ['/'] path with
  | some ([], _) => ['/']
  | some (dir, _) => dir
  | none => ['.']

/-- The module with a file URL or a path. -/
def ofId (config : ResolverConfig) (id : List Char) : Except Error CommonJs := do
  let filename ← Id.toPath id
  return {
    filename := filename
    dirname := directory filename
    resolver := Resolver.new { config with conditions := conditions }
      (ResolveOptions.none.withAnchors [id]) }

/-- The path of the module that an id stands for in this module. -/
def require (m : CommonJs) (tree : FileTree) (id : List Char) : Except Error (List Char) :=
  m.resolver.resolvePath tree ResolveOptions.none id

end CommonJs

end EsModules
