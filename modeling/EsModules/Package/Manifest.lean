import EsModules.Error
import EsModules.FileTree
import EsModules.Package.Target

/-!
# Package manifests

The fields of a `package.json` that matter for finding modules, and the package that a place in
the file tree belongs to.
-/

namespace EsModules

/-- What a package says about its modules. -/
structure Manifest where
  /-- The name of the package. -/
  name : Option (List Char)
  /-- The kind of module its `.js` files are. -/
  moduleType : Option (List Char)
  /-- The file that the package name stands for without an exports map. -/
  main : Option (List Char)
  /-- The exports map. -/
  exports : Option Target
  /-- The imports map. -/
  imports : Option Target
  deriving Repr, BEq

namespace Manifest

/-- The file name of a manifest. -/
def fileName : FilePath := .ofText "package.json".toList

/-- The manifest that says nothing. -/
def empty : Manifest := ⟨none, none, none, none, none⟩

/-- The manifest that a JSON value stands for; a field of the wrong kind is ignored. -/
def ofJson (v : JsonValue) : Manifest where
  name := (v.get? "name".toList).bind JsonValue.text?
  moduleType := (v.get? "type".toList).bind JsonValue.text?
  main := (v.get? "main".toList).bind JsonValue.text?
  exports := match v.get? "exports".toList with
    | none | some .null => none
    | some e => some (Target.ofJson e)
  imports := match v.get? "imports".toList with
    | some (.object members) => some (Target.ofJson (.object members))
    | _ => none

/-- The manifest in a text; the path is told in the error. -/
def parse (path : FilePath) (text : List Char) : Except Error Manifest :=
  match JsonValue.parse? text with
  | some v => .ok (ofJson v)
  | none => .error (.invalidConfig path.display "invalid JSON".toList)

/-- The manifest in a file; one that cannot be read is absent. -/
def load (tree : FileTree) (path : FilePath) : Except Error Manifest :=
  match tree.readText path with
  | .ok text => parse path text
  | .error _ => .error (.manifestAbsent path.display)

/-- Whether the package consists of modules rather than scripts. -/
def isModule (m : Manifest) : Bool := m.moduleType == some "module".toList

end Manifest

/-- The package that a place belongs to. -/
structure PackageScope where
  /-- The directory of the manifest. -/
  dir : FilePath
  /-- The file of the manifest. -/
  manifestPath : FilePath
  /-- The manifest. -/
  manifest : Manifest
  deriving Repr

namespace PackageScope

/-- The name of the directory that packages are installed in. -/
def installDir : FilePath := .ofText "node_modules".toList

/-- The nearest manifest in directories given from the inside out.  The search ends at an
installation directory, passes over what cannot be read, and fails at a manifest that is not
valid. -/
def search (tree : FileTree) : List FilePath → Except Error (Option PackageScope)
  | [] => .ok none
  | dir :: rest =>
    if dir.fileName? == some installDir then .ok none
    else
      let path := dir.join Manifest.fileName
      if !tree.isFile path then search tree rest
      else match Manifest.load tree path with
        | .ok manifest => .ok (some ⟨dir, path, manifest⟩)
        | .error (.manifestAbsent _) => search tree rest
        | .error e => .error e

/-- The package that a place belongs to. -/
def find (tree : FileTree) (start : FilePath) : Except Error (Option PackageScope) :=
  search tree start.ancestors

end PackageScope

end EsModules
