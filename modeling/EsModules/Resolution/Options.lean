import EsModules.FilePath
import EsModules.Module.Builtins

/-!
# Options of a resolution

A resolver is set up once with a configuration; each call may choose anchors, conditions and
extensions, and what it leaves open comes from the resolver's own defaults and then from the
configuration.
-/

namespace EsModules

/-- What a resolver is set up with. -/
structure ResolverConfig where
  /-- The directory that specifiers are resolved from. -/
  cwd : FilePath
  /-- The modules that the runtime supplies. -/
  builtins : Builtins
  /-- The conditions that hold. -/
  conditions : List (List Char)
  /-- The extensions that are tried. -/
  extensions : List (List Char)

/-- The usual configuration for a directory. -/
def ResolverConfig.new (cwd : FilePath) : ResolverConfig where
  cwd := cwd
  builtins := .node
  conditions := ["node", "import"].map String.toList
  extensions := [".mjs", ".cjs", ".js", ".json"].map String.toList

/-- What a call chooses. -/
structure ResolveOptions where
  /-- The paths or URLs to resolve from; none are chosen if the list is empty. -/
  anchors : List (List Char)
  /-- The conditions that hold. -/
  conditions : Option (List (List Char))
  /-- The extensions that are tried. -/
  extensions : Option (List (List Char))
  deriving DecidableEq, Repr

namespace ResolveOptions

/-- No choice at all. -/
def none : ResolveOptions := ⟨[], .none, .none⟩

/-- Choices, with those left open taken from others. -/
def orElse (o defaults : ResolveOptions) : ResolveOptions where
  anchors := if o.anchors.isEmpty then defaults.anchors else o.anchors
  conditions := o.conditions.or defaults.conditions
  extensions := o.extensions.or defaults.extensions

/-- Choices with other anchors. -/
def withAnchors (o : ResolveOptions) (anchors : List (List Char)) : ResolveOptions :=
  { o with anchors := anchors }

end ResolveOptions

end EsModules
