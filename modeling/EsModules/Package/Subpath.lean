import EsModules.Module.Id
import EsModules.Package.Manifest

/-!
# Published subpaths

A file of an installed package is found under the subpath that the package's exports map
publishes it by.
-/

namespace EsModules

/-- A location split at the package it is installed in. -/
structure InstalledPath where
  /-- Everything up to and including the last installation directory. -/
  dir : List Char
  /-- The name of the package, its scope included. -/
  name : List Char
  /-- The rest, behind a dot; empty for the package itself. -/
  subpath : List Char
  deriving DecidableEq, Repr

namespace InstalledPath

/-- What stands between an installation directory and a package name. -/
def marker : List Char := "/node_modules/".toList

/-- The directory of the package. -/
def packageDir (p : InstalledPath) : List Char := p.dir ++ p.name

/-- The name of the package at the front of a text, its scope included, and what follows the
slash behind it. -/
def splitName? (text : List Char) : Option (List Char × Option (List Char)) :=
  match text with
  | '@' :: behind => match Text.splitOnce ['/'] behind with
    | none => none
    | some (scope, rest) =>
      let (package, remainder) := match Text.splitOnce ['/'] rest with
        | none => (rest, none)
        | some (package, remainder) => (package, some remainder)
      if scope.isEmpty || package.isEmpty then none
      else some ('@' :: scope ++ '/' :: package, remainder)
  | _ => match Text.splitOnce ['/'] text with
    | none => some (text, none)
    | some (name, remainder) => some (name, some remainder)

/-- The parts of a location with slashes only. -/
def ofLocation? (location : List Char) : Option InstalledPath := do
  let (before, rest) ← Text.splitLast marker location
  let (name, remainder) ← splitName? rest
  if name.isEmpty || (name.drop 1).contains '@' then none
  else
    let subpath := match remainder with
      | some (c :: cs) => "./".toList ++ c :: cs
      | _ => []
    some ⟨before ++ marker, name, subpath⟩

/-- The parts of a path or file URL. -/
def parse (path : List Char) : Except Error (Option InstalledPath) :=
  (Id.toPath path).map ofLocation?

end InstalledPath

namespace Subpath

/-- A text without a leading `./`. -/
def stripDot (text : List Char) : List Char := (Text.dropPrefix? "./".toList text).getD text

/-- The subpath under which a key publishes a file through a target; a star in the target stands
for any text, which takes the place of the star in the key. -/
def published? (key target subpath : List Char) : Option (List Char) :=
  let target := stripDot target
  let subpath := stripDot subpath
  match Text.splitOnce ['*'] target with
  | none => if target == subpath then some key else none
  | some (before, after) => do
    let rest ← Text.dropPrefix? before subpath
    let middle ← Text.dropSuffix? after rest
    if key.contains '*' then some (Text.replaceFirst '*' middle key) else none

/-- The exports map of the package that a location is installed in; a manifest that is absent or
not valid publishes nothing. -/
def exportsOf (tree : FileTree) (p : InstalledPath) : Except Error (Option Target) :=
  match Manifest.load tree ((FilePath.ofText p.packageDir).join Manifest.fileName) with
  | .ok manifest => .ok manifest.exports
  | .error (.manifestAbsent _) | .error (.invalidConfig ..) => .ok none
  | .error e => .error e

/-- The subpath that publishes a path or file URL, or the path without its extension. -/
def resolve (tree : FileTree) (path : List Char) : Except Error (List Char) := do
  let location ← Id.toPath path
  let fallback := Location.withoutExtension location
  match ← InstalledPath.parse location with
  | none => return fallback
  | some p =>
    if p.subpath.isEmpty then return fallback
    match ← exportsOf tree p with
    | none => return fallback
    | some exports =>
      let found := exports.publishedPaths.findSome? fun (key, target) =>
        published? key target p.subpath
      return found.getD fallback

end Subpath

end EsModules
