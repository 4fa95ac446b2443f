import EsModules.Resolution.Node
import EsModules.Resolution.Options

/-!
# The resolver

A resolver tries a specifier against a list of anchors: first as it is against each of them, then
for one anchor after another with extensions and as a directory with an index file.  An attempt
that fails with a not-found error lets the search go on; any other outcome ends it.  What is found
is given by its real path.
-/

namespace EsModules

/-- How a single specifier is resolved against a base under conditions. -/
abbrev Delegate := List Char → Url → List (List Char) → Except Error Url

/-- One try of a resolver. -/
structure Attempt where
  /-- The specifier tried. -/
  specifier : List Char
  /-- The URL it is tried against. -/
  anchor : Url
  /-- The conditions that hold. -/
  conditions : List (List Char)
  deriving DecidableEq, Repr

namespace Attempt

/-- What an attempt gives. -/
def outcome (delegate : Delegate) (a : Attempt) : Except Error Url :=
  delegate a.specifier a.anchor a.conditions

/-- A specifier as a directory, with the name of an index file behind it. -/
def indexBase (specifier : List Char) : List Char :=
  (specifier.reverse.dropWhile (· == '/')).reverse ++ "/index".toList

end Attempt

/-! ## Searching -/

/-- A search for a module. -/
structure Search where
  /-- The attempts made, in order. -/
  made : List Attempt
  /-- The URL found, if one is. -/
  found : Except Error (Option Url)

namespace Search

/-- The search that makes no attempt. -/
def nothing : Search := ⟨[], .ok none⟩

/-- Makes one attempt; a not-found error is no failure of the search. -/
def once (delegate : Delegate) (a : Attempt) : Search where
  made := [a]
  found := match a.outcome delegate with
    | .ok url => .ok (some url)
    | .error e => if e.isNotFound then .ok none else .error e

/-- A search and, if it ends without a URL and without an error, a further one. -/
def orElse (s : Search) (further : Unit → Search) : Search :=
  match s.found with
  | .ok none =>
    let t := further ()
    ⟨s.made ++ t.made, t.found⟩
  | _ => s

/-- Searches for one item after another, until a search ends with a URL or an error. -/
def each {α : Type} (search : α → Search) : List α → Search
  | [] => nothing
  | x :: xs => (search x).orElse fun _ => each search xs

/-- Tries a specifier against every anchor; then, for one anchor after another, with each extension
and as a directory with each index file. -/
def acrossAnchors (delegate : Delegate) (conditions extensions : List (List Char))
    (specifier : List Char) (anchors : List Url) : Search :=
  let attempt := fun specifier anchor => once delegate ⟨specifier, anchor, conditions⟩
  (each (fun anchor => attempt specifier anchor) anchors).orElse fun _ =>
    each (fun anchor =>
      (each (fun x => attempt (specifier ++ x) anchor) extensions).orElse fun _ =>
        each (fun x => attempt (Attempt.indexBase specifier ++ x) anchor) extensions) anchors

end Search

/-! ## Anchors -/

namespace Anchor

/-- The URL of a directory. -/
def ofDirectory (tree : FileTree) (dir : FilePath) : Except Error Url := do
  let path ← (tree.absolute dir).mapError .io
  match Url.ofDirectoryPath? path with
  | some url => return url
  | none => throw (.invalidSpecifier path.display "not a valid directory path".toList)

/-- Whether the path of a URL ends in a slash. -/
def endsInSlash (url : Url) : Bool := url.path.getLast? == some '/'

/-- The path of a file URL that leads to a directory but does not say so. -/
def hiddenDirectory? (tree : FileTree) (url : Url) : Option FilePath :=
  if url.isFile && !endsInSlash url then url.toFilePath?.filter tree.isDirectory else none

/-- The URL of an anchor with a protocol. -/
def ofUrlText (anchor : List Char) : Except Error Url :=
  (Url.parse anchor).mapError fun e => .invalidSpecifier anchor e.message.toList

/-- The URL of an anchor given as a URL or a path; that of a directory ends in a slash. -/
def ofText (tree : FileTree) (anchor : List Char) : Except Error Url := do
  let url ←
    if (Id.protocol? anchor).isSome then ofUrlText anchor
    else
      let path ← (tree.absolute (.ofText anchor)).mapError .io
      if tree.isDirectory path then ofDirectory tree path else NodeResolution.fileUrl path
  match hiddenDirectory? tree url with
  | some path => ofDirectory tree path
  | none => return url

/-- The URL of an index file in the place that a URL names. -/
def indexProbe (url : Url) : Url :=
  url.setPath ((url.path.reverse.dropWhile (· == '/')).reverse ++ "/_index.js".toList)

/-- The anchors that a file URL brings along: its directory, an index file and the installation
directory beside it. -/
def derived (url : Url) : Except Error (List Url) := do
  let join := fun reference : String =>
    (url.join reference.toList).mapError fun e => Error.invalidSpecifier url.href e.message.toList
  return [← join "./", indexProbe url, ← join "node_modules"]

/-- URLs without those that stand before in the list. -/
def distinct (urls : List Url) : List Url :=
  urls.foldl (fun kept u => if kept.contains u then kept else kept ++ [u]) []

end Anchor

/-- A resolver. -/
structure Resolver where
  /-- What it is set up with. -/
  config : ResolverConfig
  /-- How it resolves a single specifier in a file tree. -/
  delegate : FileTree → Delegate
  /-- What it chooses when a call does not. -/
  defaults : ResolveOptions

namespace Resolver

/-- The resolver that resolves single specifiers as Node does. -/
def new (config : ResolverConfig) (defaults : ResolveOptions) : Resolver where
  config := config
  delegate := fun tree => NodeResolution.resolve tree config.builtins
  defaults := defaults

/-- The anchors of a call, in order: those chosen, or the working directory, and then what each
file URL among them brings along. -/
def anchors (r : Resolver) (tree : FileTree) (options : ResolveOptions) :
    Except Error (List Url) := do
  let chosen ← options.anchors.mapM (Anchor.ofText tree)
  let primary ←
    if chosen.isEmpty then (Anchor.ofDirectory tree r.config.cwd).map ([·]) else pure chosen
  let derived ← (primary.filter Url.isFile).mapM Anchor.derived
  return Anchor.distinct (primary ++ derived.flatten)

/-- What a specifier starts with if it is left alone. -/
def remoteProtocols : List (List Char) := ["node:", "data:", "http:", "https:"].map String.toList

/-- The file URL of the real path of a file. -/
def realUrl (tree : FileTree) (path : FilePath) : Except Error (List Char) := do
  let real ← (tree.realPath path).mapError .io
  let url ← NodeResolution.fileUrl real
  return url.href

/-- The answer that needs no search: a remote module, a builtin one, or the absolute path of a
file. -/
def immediate? (r : Resolver) (tree : FileTree) (specifier : List Char) :
    Option (Except Error (List Char)) :=
  if remoteProtocols.any (·.isPrefixOf specifier) then some (.ok specifier)
  else match r.config.builtins.canonical? specifier with
    | some id => some (.ok id)
    | none =>
      let path := FilePath.ofText specifier
      if path.isAbsolute && tree.isFile path then some (realUrl tree path) else none

/-- The conditions that hold in a call. -/
def conditions (r : Resolver) (options : ResolveOptions) : List (List Char) :=
  options.conditions.getD r.config.conditions

/-- The extensions that are tried in a call. -/
def extensions (r : Resolver) (options : ResolveOptions) : List (List Char) :=
  options.extensions.getD r.config.extensions

/-- The answer for what a search has found. -/
def settle (tree : FileTree) (specifier : List Char) (anchors : List Url) (found : Option Url) :
    Except Error (List Char) := do
  match found with
  | none => throw (.notFound specifier (anchors.map Url.href))
  | some url =>
    if url.isFile then
      let path ← NodeResolution.filePath url
      realUrl tree path
    else return url.href

/-- The attempts made for a specifier that needs a search, and the answer. -/
def searchAll (r : Resolver) (tree : FileTree) (options : ResolveOptions)
    (specifier : List Char) : List Attempt × Except Error (List Char) :=
  let options := options.orElse r.defaults
  match r.anchors tree options with
  | .error e => ([], .error e)
  | .ok anchors =>
    let search := Search.acrossAnchors (r.delegate tree) (r.conditions options)
      (r.extensions options) specifier anchors
    (search.made, search.found.bind (settle tree specifier anchors))

/-- The attempts made for a specifier, and the URL of the module it stands for. -/
def trace (r : Resolver) (tree : FileTree) (options : ResolveOptions) (specifier : List Char) :
    List Attempt × Except Error (List Char) :=
  match r.immediate? tree specifier with
  | some answer => ([], answer)
  | none => r.searchAll tree options specifier

/-- The URL of the module that a specifier stands for. -/
def resolve (r : Resolver) (tree : FileTree) (options : ResolveOptions) (specifier : List Char) :
    Except Error (List Char) := (r.trace tree options specifier).2

/-- The path of the module that a specifier stands for; what is no file keeps its URL. -/
def resolvePath (r : Resolver) (tree : FileTree) (options : ResolveOptions)
    (specifier : List Char) : Except Error (List Char) :=
  r.resolve tree options specifier >>= Id.toPath

end Resolver

end EsModules
