import EsModules.Module.Format
import EsModules.Resolution.Resolver

/-!
# Importable modules

Whether Node can import a module as it is.  Builtin modules and data URLs can be imported, other
protocols only if they are allowed.  A file is judged by its extension, then by the type of its
package, then by its name and at last by its content.
-/

namespace EsModules

/-- How importability is judged. -/
structure ImportPolicy where
  /-- The protocols that may be loaded. -/
  protocols : List (List Char)
  /-- The content of the module, if it is known. -/
  code : Option (List Char)
  /-- Whether comments are left out of account. -/
  strip : Bool
  /-- How the module is resolved. -/
  options : ResolveOptions

namespace ImportPolicy

/-- The protocols that may be loaded unless others are chosen. -/
def usualProtocols : List (List Char) := ["node", "file", "data"].map String.toList

/-- The answer that an id gives without being resolved. -/
def decideId? (policy : ImportPolicy) (builtins : Builtins) (id : List Char) : Option Bool :=
  if builtins.contains id then some true
  else match Id.protocol? id with
    | none => none
    | some protocol =>
      if !policy.protocols.contains protocol then some false
      else if protocol == "data".toList then some true
      else none

/-- The extensions of files that are loaded whatever their package says. -/
def nativeExtensions : List (List Char) := [".mjs", ".cjs", ".node", ".wasm"].map String.toList

open Pattern in
/-- The marks of a module in the name of a file. -/
def moduleName : Pattern Unit :=
  alt
    (char (· == '.') ++ orNothing (run1 Ascii.isWordChar ++ char (· == '-')) ++ word "es"
      ++ orNothing (char (· == 'm')) ++ orNothing (char (· == '-') ++ run1 Ascii.isWordChar)
      ++ word ".js" ++ textEnd)
    (word "/es" ++ orNothing (char (· == 'm')) ++ char (· == '/'))

/-- Whether a path lies in a package of modules; a manifest that is not valid says nothing. -/
def inModulePackage (tree : FileTree) (path : FilePath) : Bool :=
  match PackageScope.find tree (path.parent?.getD path) with
  | .ok (some packageScope) => packageScope.manifest.isModule
  | _ => false

/-- The answer that a path gives without its content. -/
def decidePath? (tree : FileTree) (path : List Char) : Option Bool :=
  let extension := Location.extension path
  if nativeExtensions.contains extension then some true
  else if extension != ".js".toList then some false
  else if inModulePackage tree (.ofText path) then some true
  else if moduleName.occursIn path then some false
  else none

/-- The content of a module: the one that is known or else that of its file, nothing if it cannot
be read. -/
def content (policy : ImportPolicy) (tree : FileTree) (path : List Char) : List Char :=
  policy.code.getD <| match tree.read (.ofText path) with
    | .ok bytes => Utf8.decodeLossy bytes
    | .error _ => []

/-- The answer that a content gives: it is that of a script, or at least not that of a module. -/
def decideContent (policy : ImportPolicy) (source : List Char) : Except Error Bool :=
  match Format.ofSource policy.strip source with
  | .ok format => .ok (format.hasScript || !format.hasModule)
  | .error f => .error (.fault f)

/-- Whether Node can import a module. -/
def allows (policy : ImportPolicy) (r : Resolver) (tree : FileTree) (id : List Char) :
    Except Error Bool :=
  match policy.decideId? r.config.builtins id with
  | some answer => .ok answer
  | none => do
    let path ← r.resolvePath tree policy.options id
    match decidePath? tree path with
    | some answer => return answer
    | none => policy.decideContent (policy.content tree path)

end ImportPolicy

end EsModules
