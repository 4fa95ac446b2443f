import EsModules.CommandLine.Command
import EsModules.CommandLine.Report
import EsModules.CommandLine.Sources
import EsModules.Module.ExportNames
import EsModules.Module.Importable
import EsModules.Module.Rewriting
import EsModules.Package.Subpath

/-!
# Running commands

A command line is run on a file tree: it gives an exit status and what goes to standard output.
-/

namespace EsModules

/-- What a command gives. -/
structure Outcome where
  /-- The exit status. -/
  status : Nat
  /-- What goes to standard output. -/
  stdout : List Char
  deriving DecidableEq, Repr

namespace Outcome

/-- The outcome of words that make no sense. -/
def misuse : Outcome := ⟨2, []⟩

/-- The outcome of a failure that has no code. -/
def failure : Outcome := ⟨1, []⟩

/-- The outcome of a run that breaks off. -/
def abort : Outcome := ⟨101, []⟩

/-- Lines of text as output. -/
def lines (ls : List (List Char)) : Outcome := ⟨0, ls.flatMap (· ++ ['\n'])⟩

/-- A JSON value as output. -/
def json (v : JsonValue) : Outcome := ⟨0, v.pretty 0 ++ ['\n']⟩

/-- The outcome of an error: with JSON it is told on one line. -/
def ofError (json : Bool) (e : Error) : Outcome :=
  match e with
  | .fault _ => abort
  | e =>
    if json then
      let error : JsonValue :=
        .object [JsonField.text "code" e.code.toList, JsonField.text "message" e.message]
      ⟨1, (JsonValue.object [JsonField.bool "ok" false, JsonField.of "error" error]).compact
        ++ ['\n']⟩
    else failure

/-- The outcome of a result that is told as JSON fields or in another way. -/
def ofResult {α : Type} (json : Bool) (fields : α → List JsonField) (plain : α → Outcome) :
    Except Error α → Outcome
  | .error e => ofError json e
  | .ok a =>
    if json then .json (.object (JsonField.bool "ok" true :: fields a)) else plain a

end Outcome

/-! ## Commands about sources -/

/-- What is found in a source: fields and lines of text. -/
structure SourceReport where
  /-- The fields behind the name of the file. -/
  fields : List JsonField
  /-- The lines, given the name of the file. -/
  lines : List Char → List (List Char)

namespace SourceReport

/-- The imports of a source. -/
def imports (source : List Char) : Except Fault SourceReport := do
  let static := (← Analyzer.standard.staticImports source).map fun i => (i, Bindings.ofStatic i)
  let dynamic ← Analyzer.standard.dynamicImports source
  let types := (← Analyzer.standard.typeImports source).map fun i => (i, Bindings.ofTypes i)
  let object := fun p : StaticImport × Bindings => Report.staticImport p.1 p.2
  let line := fun (label : String) (p : StaticImport × Bindings) =>
    label.toList ++ p.1.specifier.text ++ Report.bindingsText p.2
  return {
    fields := [JsonField.of "staticImports" (.list (static.map object)),
      JsonField.of "dynamicImports" (.list (dynamic.map Report.dynamicImport)),
      JsonField.of "typeImports" (.list (types.map object))]
    lines := fun file => file :: (static.map (line "  static   ")
      ++ dynamic.map (fun d => "  dynamic  ".toList ++ Text.trim d.argument)
      ++ types.map (line "  type     ")) }

/-- The exports of a source. -/
def exports (types : Bool) (source : List Char) : Except Fault (List ExportRecord) :=
  if types then Analyzer.standard.typeExports source else Analyzer.standard.exports source

/-- The exports of a source in full. -/
def exportRecords (types : Bool) (source : List Char) : Except Fault SourceReport := do
  let records ← exports types source
  return {
    fields := [JsonField.of "exports" (.list (records.map Report.exportRecord))]
    lines := fun file => file :: records.map fun r => "  ".toList ++ Report.exportText r }

/-- The names that a source exports. -/
def exportNames (types : Bool) (source : List Char) : Except Fault SourceReport := do
  let names := (← exports types source).flatMap ExportRecord.names
  return {
    fields := [JsonField.texts "names" names]
    lines := fun file => [file ++ ": ".toList ++ Text.joinWith ", ".toList names] }

/-- The format of a source. -/
def format (strip : Bool) (source : List Char) : Except Fault SourceReport := do
  let f ← Format.ofSource strip source
  return {
    fields := Report.formatFields f
    lines := fun file => [file ++ ": ".toList ++ (Report.formatWord f).toList] }

end SourceReport

namespace CommandLine

/-- The name of a file in a report. -/
def fileText (path : FilePath) : List Char := Location.normalize path.display

/-- The reports on files, each with the name of its file; a file that cannot be read is a
failure. -/
def reports (tree : FileTree) (report : List Char → Except Fault SourceReport) :
    List FilePath → Except Outcome (List (List Char × SourceReport))
  | [] => .ok []
  | path :: rest => match tree.read path with
    | .error _ => .error .failure
    | .ok bytes => match report (Utf8.decodeLossy bytes) with
      | .error _ => .error .abort
      | .ok r => (reports tree report rest).map fun rs => (fileText path, r) :: rs

/-- The reports on all source files at a path. -/
def runOnSources (tree : FileTree) (json : Bool) (path : FilePath)
    (report : List Char → Except Fault SourceReport) : Outcome :=
  match Sources.at? tree path with
  | none => .failure
  | some files => match reports tree report files with
    | .error outcome => outcome
    | .ok rs =>
      if json then
        .json (.list (rs.map fun (file, r) => .object (JsonField.text "file" file :: r.fields)))
      else .lines (rs.flatMap fun (file, r) => r.lines file)

/-! ## Commands about modules -/

/-- An anchor as it is, if it looks like a URL, and else relative to a directory. -/
def anchorText (cwd : FilePath) (anchor : List Char) : List Char :=
  if anchor.contains ':' && anchor.head? != some '/' then anchor
  else (cwd.join (.ofText anchor)).display

/-- An extension with its dot. -/
def dotted (extension : List Char) : List Char :=
  if extension.head? == some '.' then extension else '.' :: extension

/-- Choices, unless there are none. -/
def chosen? (choices : List (List Char)) : Option (List (List Char)) :=
  if choices.isEmpty then none else some choices

/-- The choices that flags make in a directory. -/
def optionsOf (cwd : FilePath) (flags : ResolveFlags) : ResolveOptions where
  anchors := flags.anchors.map (anchorText cwd)
  conditions := chosen? flags.conditions
  extensions := chosen? (flags.extensions.map dotted)

/-- The policy that protocols stand for; colons behind them do not count. -/
def policyOf (options : ResolveOptions) (protocols : List (List Char)) : ImportPolicy where
  protocols :=
    if protocols.isEmpty then ImportPolicy.usualProtocols
    else protocols.map fun p => (p.reverse.dropWhile (· == ':')).reverse
  code := none
  strip := false
  options := options

/-- The fields of an installed package. -/
def packageValue : Option InstalledPath → JsonValue
  | none => .null
  | some p => .object
    [JsonField.text "dir" p.dir, JsonField.text "name" p.name, JsonField.text "subpath" p.subpath]

/-- The package of a file and the subpath that publishes it. -/
def publication (tree : FileTree) (path : List Char) :
    Except Error (Option InstalledPath × List Char) := do
  let package ← InstalledPath.parse path
  let subpath ← Subpath.resolve tree path
  return (package, subpath)

/-- Rewrites a file; its specifiers are resolved from the file unless anchors are chosen. -/
def runRewrite (tree : FileTree) (json : Bool) (r : Resolver) (path : FilePath)
    (options : ResolveOptions) : Outcome :=
  match tree.read path with
  | .error _ => .failure
  | .ok bytes =>
    let options :=
      if options.anchors.isEmpty then options.withAnchors [path.display] else options
    Outcome.ofResult json
      (fun code => [JsonField.text "file" (fileText path), JsonField.text "code" code])
      (fun code => ⟨0, code⟩)
      (Rewriting.rewrite (r.resolve tree options) (Utf8.decodeLossy bytes))

/-- Runs a command in a directory of a file tree. -/
def execute (tree : FileTree) (cwd : FilePath) (json : Bool) (command : Command) : Outcome :=
  let r := Resolver.new (.new cwd) .none
  let file := fun path => cwd.join (.ofText path)
  let line := fun text => Outcome.lines [text]
  match command with
  | .resolve specifier flags asPath =>
    let run := if asPath then r.resolvePath else r.resolve
    Outcome.ofResult json
      (fun found => [JsonField.text "specifier" specifier, JsonField.text "resolved" found])
      line (run tree (optionsOf cwd flags) specifier)
  | .imports path => runOnSources tree json (file path) SourceReport.imports
  | .exports path types namesOnly =>
    runOnSources tree json (file path)
      (if namesOnly then SourceReport.exportNames types else SourceReport.exportRecords types)
  | .exportNames specifier flags =>
    Outcome.ofResult json
      (fun names => [JsonField.text "specifier" specifier, JsonField.texts "names" names])
      Outcome.lines (moduleExportNames .standard r tree (optionsOf cwd flags) specifier)
  | .formats path strip => runOnSources tree json (file path) (SourceReport.format strip)
  | .check specifier flags protocols =>
    Outcome.ofResult json
      (fun valid => [JsonField.text "specifier" specifier, JsonField.bool "valid" valid])
      (fun valid => line (if valid then "valid" else "invalid").toList)
      ((policyOf (optionsOf cwd flags) protocols).allows r tree specifier)
  | .subpath path =>
    Outcome.ofResult json
      (fun found => [JsonField.text "path" path, JsonField.of "package" (packageValue found.1),
        JsonField.text "subpath" found.2])
      (fun found => line found.2) (publication tree path)
  | .rewrite path flags => runRewrite tree json r (file path) (optionsOf cwd flags)

/-- Runs the words of a command line in a file tree. -/
def run (tree : FileTree) (words : List (List Char)) : Outcome :=
  match parse words with
  | none => .misuse
  | some c => execute tree ((c.cwd.map FilePath.ofText).getD tree.cwdPath) c.json c.command

end CommandLine

end EsModules
