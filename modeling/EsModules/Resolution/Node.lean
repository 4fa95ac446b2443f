import EsModules.Package.Manifest
import EsModules.Package.Map

/-!
# Resolving one specifier

A specifier is resolved against the URL of the module it stands in: as a path, as an internal
import, as a URL or as the name of a package, which is looked for in the installation
directories from the inside out.
-/

namespace EsModules.NodeResolution

/-! ## Kinds of specifier -/

/-- Whether a specifier is a path. -/
def isPath (specifier : List Char) : Bool :=
  specifier.head? == some '/' || specifier == ".".toList || specifier == "..".toList
    || "./".toList.isPrefixOf specifier || "../".toList.isPrefixOf specifier

/-- The URL that a specifier with a protocol is. -/
def url? (specifier : List Char) : Option Url :=
  match Id.protocol? specifier with
  | none => none
  | some _ => (Url.parse specifier).toOption

/-- The characters of a specifier up to its second slash, or all of it, for a name with a scope. -/
def scopedName? (specifier : List Char) : Option (List Char) :=
  match Text.splitOnce ['/'] specifier with
  | none => none
  | some (scope, rest) => some (scope ++ '/' :: rest.takeWhile (· != '/'))

/-- The package name of a specifier and the subpath behind a dot. -/
def packageName (specifier : List Char) : Except Error (List Char × List Char) :=
  let invalid := Error.invalidSpecifier specifier "is not a valid package name".toList
  let name? := if specifier.head? == some '@' then scopedName? specifier
    else some (specifier.takeWhile (· != '/'))
  match name? with
  | none => .error invalid
  | some name =>
    if specifier.isEmpty || name.head? == some '.' || name.contains '%' || name.contains '\\' then
      .error invalid
    else .ok (name, '.' :: specifier.drop name.length)

/-! ## Files -/

/-- The file path of a URL. -/
def filePath (url : Url) : Except Error FilePath :=
  match url.toFilePath? with
  | some path => .ok path
  | none => .error (.invalidSpecifier url.href "not a valid file URL".toList)

/-- The file URL of an absolute path. -/
def fileUrl (path : FilePath) : Except Error Url :=
  match Url.ofFilePath? path with
  | some url => .ok url
  | none => .error (.invalidSpecifier path.display "not an absolute path".toList)

/-- The directory of a module. -/
def directory (base : Url) : Except Error FilePath := do
  match base.join "./".toList with
  | .ok dir => filePath dir
  | .error e => throw (.invalidSpecifier base.href e.message.toList)

/-- Whether a text holds a slash or a backslash as an escape. -/
def hasEscapedSeparator (path : List Char) : Bool :=
  let lower := path.map Char.toLower
  Text.contains "%2f".toList lower || Text.contains "%5c".toList lower

/-- The URL of the regular file that a URL leads to, links followed; query and fragment stay. -/
def finalize (tree : FileTree) (url base : Url) : Except Error Url :=
  if hasEscapedSeparator url.path then
    .error (.invalidSpecifier url.path
      "must not include encoded \"/\" or \"\\\" characters".toList)
  else do
    let path ← filePath url
    match tree.stat path with
    | .ok .directory => throw (.directoryImport path.display base.href)
    | .ok (.file _) =>
      let real ← (tree.realPath path).mapError .io
      let found ← fileUrl real
      return { found with query := url.query, fragment := url.fragment }
    | _ => throw (.moduleNotFound path.display base.href)

/-! ## Packages -/

/-- The files that a package without exports may mean, its main file first. -/
def mainCandidates (main : Option (List Char)) : List (List Char) :=
  let index := ["./index.js", "./index.json", "./index.node"].map String.toList
  match main.filter fun m => !m.isEmpty with
  | none => index
  | some m =>
    m :: ([".js", ".json", ".node", "/index.js", "/index.json", "/index.node"].map
      fun ending => "./".toList ++ m ++ ending.toList) ++ index

/-- Whether a URL leads to a regular file. -/
def leadsToFile (tree : FileTree) (url : Url) : Bool := (url.toFilePath?.map tree.isFile).getD false

/-- The main file of a package without exports. -/
def mainFile (tree : FileTree) (manifestUrl : Url) (manifest : Manifest) (base : Url) :
    Except Error Url :=
  let urls := (mainCandidates manifest.main).filterMap fun c => (manifestUrl.join c).toOption
  match urls.find? (leadsToFile tree) with
  | some url => .ok url
  | none =>
    let dir := match manifestUrl.join ['.'] with
      | .ok url => url
      | .error _ => manifestUrl
    .error (.moduleNotFound dir.href base.href)

/-- What an exports map gives for a subpath. -/
def exported (manifestPath : FilePath) (exports : Target) (subpath : List Char) (base : Url)
    (conditions : List (List Char)) : Except Error Url := do
  let manifestUrl ← fileUrl manifestPath
  let ctx : PackageMap.Context := ⟨manifestUrl, manifestPath, base, conditions, none⟩
  ctx.resolveExport exports subpath

/-- The manifest in a package directory; an absent one says nothing. -/
def manifestOf (tree : FileTree) (path : FilePath) : Except Error Manifest :=
  match Manifest.load tree path with
  | .error (.manifestAbsent _) => .ok .empty
  | r => r

/-- What a subpath of an installed package leads to. -/
def installed (tree : FileTree) (packageDir : FilePath) (specifier subpath : List Char)
    (base : Url) (conditions : List (List Char)) : Except Error Url := do
  let manifestPath := packageDir.join Manifest.fileName
  let manifest ← manifestOf tree manifestPath
  match manifest.exports with
  | some exports => exported manifestPath exports subpath base conditions
  | none =>
    let manifestUrl ← fileUrl manifestPath
    if subpath == ['.'] then mainFile tree manifestUrl manifest base
    else (manifestUrl.join subpath).mapError fun e => .invalidSpecifier specifier e.message.toList

/-- The exports of the package that a directory belongs to, if it has a given name. -/
def selfExports? (tree : FileTree) (dir : FilePath) (name : List Char) :
    Except Error (Option (FilePath × Target)) := do
  match ← PackageScope.find tree dir with
  | some scope =>
    if scope.manifest.name == some name then
      return scope.manifest.exports.map fun exports => (scope.manifestPath, exports)
    else return none
  | none => return none

/-- The first directory, from the inside out, in which a package is installed. -/
def installDir? (tree : FileTree) (dir : FilePath) (name : List Char) : Option FilePath :=
  (dir.ancestors.map fun d => (d.join PackageScope.installDir).join (.ofText name)).find?
    tree.isDirectory

/-- Resolves a builtin module or a package, by its own name or as an installed one. -/
def resolvePackage (tree : FileTree) (builtins : Builtins) (base : Url)
    (conditions : List (List Char)) (specifier : List Char) : Except Error Url :=
  match builtins.canonical? specifier with
  | some id => (Url.parse id).mapError fun e => .invalidSpecifier specifier e.message.toList
  | none => do
    let (name, subpath) ← packageName specifier
    let dir ← directory base
    match ← selfExports? tree dir name with
    | some (manifestPath, exports) => exported manifestPath exports subpath base conditions
    | none => match installDir? tree dir name with
      | some packageDir => installed tree packageDir specifier subpath base conditions
      | none => throw (.moduleNotFound name base.href)

/-- Resolves an internal import through the imports map of the package that the module belongs
to. -/
def resolveInternal (tree : FileTree) (builtins : Builtins) (base : Url)
    (conditions : List (List Char)) (name : List Char) : Except Error Url := do
  if name == ['#'] || "#/".toList.isPrefixOf name || name.getLast? == some '/' then
    throw (.invalidSpecifier name "is not a valid internal imports specifier name".toList)
  let undefined := Error.importNotDefined name base.href
  let dir ← directory base
  match ← PackageScope.find tree dir with
  | none => throw undefined
  | some scope => match scope.manifest.imports with
    | none => throw undefined
    | some imports =>
      let manifestUrl ← fileUrl scope.manifestPath
      let ctx : PackageMap.Context :=
        ⟨manifestUrl, scope.manifestPath, base, conditions,
          some (resolvePackage tree builtins manifestUrl conditions)⟩
      match ← ctx.resolveImport imports name with
      | some url => return url
      | none => throw undefined

/-! ## Specifiers -/

/-- The schemes with which a URL is left alone. -/
def remoteSchemes : List (List Char) := ["node", "data", "http", "https"].map String.toList

/-- The URL that a specifier stands for, before it is known that a file is there. -/
def locate (tree : FileTree) (builtins : Builtins) (specifier : List Char) (base : Url)
    (conditions : List (List Char)) : Except Error Url :=
  if isPath specifier then
    (base.join specifier).mapError fun e => .invalidSpecifier specifier e.message.toList
  else if base.isFile && specifier.head? == some '#' then
    resolveInternal tree builtins base conditions specifier
  else match url? specifier with
    | some url => .ok url
    | none => resolvePackage tree builtins base conditions specifier

/-- Resolves a specifier that stands in a module. -/
def resolve (tree : FileTree) (builtins : Builtins) (specifier : List Char) (base : Url)
    (conditions : List (List Char)) : Except Error Url := do
  let url ← locate tree builtins specifier base conditions
  if url.isFile then finalize tree url base
  else if remoteSchemes.contains url.scheme then return url
  else throw (.unsupportedProtocol specifier (url.scheme ++ [':']))

end EsModules.NodeResolution
