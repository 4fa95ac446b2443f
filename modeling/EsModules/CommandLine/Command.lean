import EsModules.CommandLine.Arguments
import EsModules.Resolution.Options

/-!
# Commands

What a command line asks for.  `CommandLine.parse` gives nothing when the words make no sense.
-/

namespace EsModules

/-- The choices that a command makes about resolution. -/
structure ResolveFlags where
  /-- The paths or URLs to resolve from. -/
  anchors : List (List Char)
  /-- The conditions that hold. -/
  conditions : List (List Char)
  /-- The extensions that are tried, with or without their dots. -/
  extensions : List (List Char)
  deriving DecidableEq, Repr

/-- What is to be done. -/
inductive Command
  /-- Tell the location of a module. -/
  | resolve (specifier : List Char) (flags : ResolveFlags) (asPath : Bool)
  /-- List the imports of sources. -/
  | imports (path : List Char)
  /-- List the exports of sources. -/
  | exports (path : List Char) (types namesOnly : Bool)
  /-- List the names that a module exports. -/
  | exportNames (specifier : List Char) (flags : ResolveFlags)
  /-- Tell the formats of sources. -/
  | formats (path : List Char) (strip : Bool)
  /-- Tell whether a module can be imported. -/
  | check (specifier : List Char) (flags : ResolveFlags) (protocols : List (List Char))
  /-- Tell the subpath that publishes a file. -/
  | subpath (path : List Char)
  /-- Rewrite the specifiers of a source. -/
  | rewrite (path : List Char) (flags : ResolveFlags)
  deriving DecidableEq, Repr

/-- A command with what holds for all commands. -/
structure CommandLine where
  /-- The directory to work in, if another than the working directory. -/
  cwd : Option (List Char)
  /-- Whether the answer is to be JSON. -/
  json : Bool
  /-- What is to be done. -/
  command : Command
  deriving DecidableEq, Repr

namespace CommandLine

/-! ## Known options -/

/-- The options of all commands. -/
def commonOptions : OptionSet := ⟨["json"], ["cwd"], [], [('v', "verbose")]⟩

/-- The options of commands that resolve specifiers. -/
def resolveOptions : OptionSet := ⟨[], [], ["from", "condition", "extension"], []⟩

/-- No options. -/
def noOptions : OptionSet := ⟨[], [], [], []⟩

/-- The options of a command by its name. -/
def ownOptions? (name : List Char) : Option OptionSet :=
  match String.ofList name with
  | "resolve" => some (resolveOptions.union ⟨["path"], [], [], []⟩)
  | "imports" => some noOptions
  | "exports" => some ⟨["types", "names"], [], [], []⟩
  | "export-names" => some resolveOptions
  | "syntax" => some ⟨["strip-comments"], [], [], []⟩
  | "check" => some (resolveOptions.union ⟨[], [], ["allow-protocol"], []⟩)
  | "subpath" => some noOptions
  | "rewrite" => some resolveOptions
  | _ => none

/-! ## Reading -/

/-- The choices about resolution among arguments. -/
def resolveFlags (arguments : List Argument) : ResolveFlags where
  anchors := arguments.filterMap (Argument.valueOf? "from")
  conditions := arguments.filterMap (Argument.valueOf? "condition")
  extensions := arguments.filterMap (Argument.valueOf? "extension")

/-- A path that is not empty. -/
def path? (text : List Char) : Option (List Char) := if text.isEmpty then none else some text

/-- The command with a name, a single word and arguments. -/
def command? (name word : List Char) (arguments : List Argument) : Option Command :=
  let has := fun flag => arguments.any (Argument.isFlag flag)
  let flags := resolveFlags arguments
  match String.ofList name with
  | "resolve" => some (.resolve word flags (has "path"))
  | "imports" => (path? word).map .imports
  | "exports" => (path? word).map fun p => .exports p (has "types") (has "names")
  | "export-names" => some (.exportNames word flags)
  | "syntax" => (path? word).map fun p => .formats p (has "strip-comments")
  | "check" =>
    some (.check word flags (arguments.filterMap (Argument.valueOf? "allow-protocol")))
  | "subpath" => some (.subpath word)
  | "rewrite" => (path? word).map fun p => .rewrite p flags
  | _ => none

/-- What the words of a command line ask for.  The options of all commands may stand on both
sides of the name of the command; behind it they count more. -/
def parse (words : List (List Char)) : Option CommandLine := do
  let (front, name, behind) ← commonOptions.readLeading words
  let own ← ownOptions? name
  let known := commonOptions.union own
  let arguments ← known.read behind
  guard (commonOptions.allowsCounts front && known.allowsCounts arguments)
  let cwds := (arguments ++ front).filterMap (Argument.valueOf? "cwd")
  guard (cwds.all fun cwd => !cwd.isEmpty)
  let [word] := arguments.filterMap Argument.word? | none
  let command ← command? name word arguments
  return ⟨cwds.head?, (arguments ++ front).any (Argument.isFlag "json"), command⟩

end CommandLine

end EsModules
