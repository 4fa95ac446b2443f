import EsModules.Error
import EsModules.FileTree
import EsModules.Module.Builtins
import EsModules.Module.Location
import EsModules.Url.File

/-!
# Module ids

A module is named by a path, a URL or the name of a builtin module.  This file finds the
protocol of an id and turns ids into paths and URLs.
-/

namespace EsModules.Id

/-- The protocol of an id: what stands in front of the first colon behind at least two
characters, if something follows that colon and the id has no line end. -/
def protocol? (id : List Char) : Option (List Char) :=
  if id.any fun c => c == '\n' || c == '\r' || c == '\u2028' || c == '\u2029' then none
  else
    let (more, rest) := (id.drop 2).span (· != ':')
    match rest with
    | _ :: _ :: _ => some (id.take 2 ++ more)
    | _ => none

/-- What an id starts with if it is a file URL. -/
def fileProtocol : List Char := "file://".toList

/-- The path of a file URL; any other id with slashes only. -/
def toPath (id : List Char) : Except Error (List Char) :=
  if fileProtocol.isPrefixOf id then
    match Url.parse id with
    | .error e => .error (.invalidSpecifier id e.message.toList)
    | .ok url => match url.toFilePath? with
      | none => .error (.invalidSpecifier id "not a valid file URL".toList)
      | some path => .ok (Location.normalize path.display)
  else .ok (Location.normalize id)

/-- The file URL of a path or file URL, relative to a working directory. -/
def toFileUrl (cwd : FilePath) (id : List Char) : Except Error (List Char) := do
  let path ← toPath id
  if path.isEmpty then throw (.io .emptyPath)
  match Url.ofFilePath? (FilePath.absolute cwd (FilePath.ofText path)) with
  | some url => return url.href
  | none => throw (.invalidSpecifier id "cannot be expressed as a file URL".toList)

/-- The protocols with which an id is left alone. -/
def knownProtocols : List (List Char) :=
  ["node:", "data:", "http:", "https:", "file:"].map String.toList

/-- The characters that a whole URI is written with as they are. -/
def isUriChar (c : Char) : Bool :=
  Ascii.isAlphanumeric c || "-_.!~*'();/?:@&=+$,#".toList.contains c

/-- An id with a protocol: that of builtin modules, or that of files. -/
def normalize (builtins : Builtins) (id : List Char) : List Char :=
  if knownProtocols.any (·.isPrefixOf id) then id
  else if builtins.contains id && !id.contains '/' then Builtins.protocol ++ id
  else fileProtocol ++ PercentEncoding.encode (fun c => !isUriChar c) (Location.normalize id)

/-- The text of the file that an id names. -/
def load (tree : FileTree) (id : List Char) : Except Error (List Char) := do
  let path ← toPath id
  (tree.readText (FilePath.ofText path)).mapError .io

end EsModules.Id
