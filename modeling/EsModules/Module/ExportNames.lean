import EsModules.Declaration.Analyzer
import EsModules.Resolution.Resolver

/-!
# Exported names

The names that a module exports, with those it passes on from other modules by `export * from`.
The modules are walked depth first along these star exports, and each is read once; what is not
a file contributes nothing.

* `StarWalk.next?`: the first request that leads to a module not yet read.
* `StarWalk.walk`: the modules read and the names found on a walk, as far as its steps go.
* `moduleExportNames`: the names that a specifier stands for.
-/

namespace EsModules

/-- A module that is asked for. -/
structure ModuleRequest where
  /-- The specifier. -/
  specifier : List Char
  /-- What it is resolved from; nothing if that is left open. -/
  anchors : List (List Char)
  deriving DecidableEq, Repr

/-- What a module exports. -/
structure ModuleExports where
  /-- The names that it exports itself. -/
  names : List (List Char)
  /-- The modules whose names it passes on. -/
  stars : List (List Char)
  deriving DecidableEq, Repr

namespace ModuleExports

/-- The specifier of a record that passes on all names of another module. -/
def star? (r : ExportRecord) : Option (List Char) :=
  if r.kind == .star && r.name.isNone then r.specifier.map Specifier.text else none

/-- What a list of records exports. -/
def ofRecords (records : List ExportRecord) : ModuleExports where
  names := (records.filter fun r => (star? r).isNone).flatMap ExportRecord.names
  stars := records.filterMap star?

end ModuleExports

/-! ## Walking along star exports -/

/-- A walk along star exports: where it takes place and how. -/
structure StarWalk where
  /-- What finds the exports of a source. -/
  analyzer : Analyzer
  /-- What finds the modules. -/
  resolver : Resolver
  /-- How it finds them. -/
  options : ResolveOptions
  /-- The files. -/
  tree : FileTree

namespace StarWalk

/-- The URL of the file that a request leads to, if it is a file. -/
def target (w : StarWalk) (q : ModuleRequest) : Except Error (Option (List Char)) :=
  (w.resolver.resolve w.tree (w.options.withAnchors q.anchors) q.specifier).map fun url =>
    if "file:".toList.isPrefixOf url then some url else none

/-- What the module at a URL exports. -/
def exportsAt (w : StarWalk) (url : List Char) : Except Error ModuleExports := do
  let source ← Id.load w.tree url
  let records ← (w.analyzer.exports source).mapError Error.fault
  return .ofRecords records

/-- The first of some requests that leads to a module not yet read: its URL, and the requests
behind it. -/
def next? (w : StarWalk) (seen : List (List Char)) :
    List ModuleRequest → Except Error (Option (List Char × List ModuleRequest))
  | [] => .ok none
  | q :: rest => match w.target q with
    | .error e => .error e
    | .ok none => next? w seen rest
    | .ok (some url) => if seen.contains url then next? w seen rest else .ok (some (url, rest))

/-- Follows requests with at most a given number of steps, each of which reads a module or ends the
walk: the modules read, in order, and the names found.  The requests of a module come before those
that were there. -/
def walk (w : StarWalk) : Nat → List (List Char) → List ModuleRequest →
    List (List Char) × Except Error (List (List Char))
  | 0, _, _ => ([], .error (.internal "more modules than files".toList))
  | steps + 1, seen, requests => match w.next? seen requests with
    | .error e => ([], .error e)
    | .ok none => ([], .ok [])
    | .ok (some (url, rest)) => match w.exportsAt url with
      | .error e => ([url], .error e)
      | .ok found =>
        let stars := found.stars.map fun s => ⟨s, [url]⟩
        let (read, names) := walk w steps (url :: seen) (stars ++ rest)
        (url :: read, names.map (found.names ++ ·))

/-- How many steps a walk may need: one for each place that a file can have, and one to end. -/
def maxSteps (w : StarWalk) : Nat := w.tree.ends.length + 1

/-- The walk that starts with a specifier. -/
def run (w : StarWalk) (specifier : List Char) :
    List (List Char) × Except Error (List (List Char)) :=
  w.walk w.maxSteps [] [⟨specifier, w.options.anchors⟩]

end StarWalk

/-- The names that the module a specifier stands for exports, in their order, each once. -/
def moduleExportNames (a : Analyzer) (r : Resolver) (tree : FileTree) (options : ResolveOptions)
    (specifier : List Char) : Except Error (List (List Char)) :=
  let w : StarWalk := ⟨a, r, options, tree⟩
  (w.run specifier).2.map Text.sortDistinct

end EsModules
