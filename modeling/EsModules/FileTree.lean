import EsModules.FilePath
import EsModules.IoError

/-!
# File trees

A file tree is what resolution sees of a file system: regular files, directories and symbolic
links, each under the list of names that leads to it from the root, and a working directory.
Walking a path follows links; a name is looked up only in a directory.
-/

namespace EsModules

/-- What stands at a place of a file tree. -/
inductive Entry
  | file (content : List UInt8)
  | directory
  | link (target : FilePath)
  deriving DecidableEq, Repr

/-- A file tree with its working directory. -/
structure FileTree where
  /-- The entries below the root, each under the names that lead to it. -/
  entries : List (List FilePath × Entry)
  /-- The names that lead to the working directory. -/
  cwd : List FilePath
  deriving Repr

namespace FileTree

/-- The entry under a list of names; the root is a directory. -/
def find? (t : FileTree) (place : List FilePath) : Option Entry :=
  if place.isEmpty then some .directory
  else (t.entries.find? fun e => e.1 == place).map (·.2)

/-- The working directory as a path. -/
def cwdPath (t : FileTree) : FilePath := .ofNames t.cwd

/-! ## Walking -/

/-- The steps that a path asks for; a slash at the end asks for a directory. -/
def steps (p : FilePath) : List FilePath :=
  let named := p.pieces.filter fun piece => !piece.isEmpty
  if p.getLast? == some FilePath.slash then named ++ [FilePath.here] else named

/-- The longest name of an entry, in bytes. -/
def maxName : Nat := 255

/-- The longest path, in bytes, its closing zero included. -/
def maxPath : Nat := 4096

/-- How many links one walk may follow. -/
def maxLinks : Nat := 40

/-- Walks from a place along steps.  A link at the end is followed only if `followLast` holds; how
the walk goes on behind a link is given by `follow`, from the link's target, the place it stands in
and the steps behind it. -/
def walkWith (t : FileTree) (followLast : Bool)
    (follow : FilePath → List FilePath → List FilePath → Except IoError (List FilePath))
    (place : List FilePath) : List FilePath → Except IoError (List FilePath)
  | [] => .ok place
  | s :: rest =>
    if t.find? place != some .directory then .error .notDirectory
    else if s == FilePath.here then walkWith t followLast follow place rest
    else if s == FilePath.above then walkWith t followLast follow place.dropLast rest
    else if s.length > maxName then .error .nameTooLong
    else match t.find? (place ++ [s]) with
      | none => .error .notFound
      | some (.link target) =>
        if rest.isEmpty && !followLast then .ok (place ++ [s]) else follow target place rest
      | some _ => walkWith t followLast follow (place ++ [s]) rest

/-- Walks from a place along steps, following at most a given number of links. -/
def walk (t : FileTree) (followLast : Bool) :
    Nat → List FilePath → List FilePath → Except IoError (List FilePath)
  | 0 => walkWith t followLast fun _ _ _ => .error .tooManyLinks
  | links + 1 => walkWith t followLast fun target place rest =>
    if target.isEmpty then .error .notFound
    else walk t followLast links (if target.isAbsolute then [] else place) (steps target ++ rest)

/-- The places at which a walk can end: the root, the working directory, the entries and the
places above them. -/
def ends (t : FileTree) : List (List FilePath) :=
  [] :: t.cwd :: (t.entries.map (·.1) ++ t.entries.map fun e => e.1.dropLast)

/-- The place that a path leads to. -/
def locate (t : FileTree) (p : FilePath) : Except IoError (List FilePath) :=
  if p.contains 0 then .error .nulInPath
  else if p.isEmpty then .error .notFound
  else if p.length ≥ maxPath then .error .nameTooLong
  else walk t true maxLinks (if p.isAbsolute then [] else t.cwd) (steps p)

/-- The entry that a path leads to. -/
def stat (t : FileTree) (p : FilePath) : Except IoError Entry :=
  match t.locate p with
  | .error e => .error e
  | .ok place => match t.find? place with
    | some entry => .ok entry
    | none => .error .notFound

/-- Whether a path leads to a regular file. -/
def isFile (t : FileTree) (p : FilePath) : Bool :=
  match t.stat p with
  | .ok (.file _) => true
  | _ => false

/-- Whether a path leads to a directory. -/
def isDirectory (t : FileTree) (p : FilePath) : Bool :=
  match t.stat p with
  | .ok .directory => true
  | _ => false

/-- The absolute path without links and dots that leads to the same place, if that path is not too
long itself. -/
def realPath (t : FileTree) (p : FilePath) : Except IoError FilePath :=
  match t.locate p with
  | .error e => .error e
  | .ok place =>
    let real := FilePath.ofNames place
    if real.length ≥ maxPath then .error .nameTooLong else .ok real

/-- The content of a file. -/
def read (t : FileTree) (p : FilePath) : Except IoError (List UInt8) :=
  match t.stat p with
  | .error e => .error e
  | .ok (.file content) => .ok content
  | .ok _ => .error .isDirectory

/-- The content of a file as text. -/
def readText (t : FileTree) (p : FilePath) : Except IoError (List Char) :=
  match t.read p with
  | .error e => .error e
  | .ok content => match Utf8.decode? content with
    | some text => .ok text
    | none => .error .invalidUtf8

/-- A path made absolute against the working directory. -/
def absolute (t : FileTree) (p : FilePath) : Except IoError FilePath :=
  if p.isEmpty then .error .emptyPath else .ok (FilePath.absolute t.cwdPath p)

/-! ## Changing -/

/-- The tree with an entry under a list of names, in the place of what was there. -/
def insert (t : FileTree) (place : List FilePath) (e : Entry) : FileTree :=
  { t with entries := t.entries.filter (fun old => old.1 != place) ++ [(place, e)] }

/-- The tree without what stands at and below a list of names. -/
def erase (t : FileTree) (place : List FilePath) : FileTree :=
  { t with entries := t.entries.filter fun e => !place.isPrefixOf e.1 }

/-- The place that names below the root lead to once the directories on the way are made, links
followed. -/
def settle (t : FileTree) : Nat → List FilePath → List FilePath → FileTree × List FilePath
  | 0, place, names => (t, place ++ names)
  | _ + 1, place, [] => (t, place)
  | n + 1, place, s :: rest =>
    if s == FilePath.here then settle t n place rest
    else if s == FilePath.above then settle t n place.dropLast rest
    else match t.find? (place ++ [s]) with
      | some (.link target) =>
        settle t n (if target.isAbsolute then [] else place) (steps target ++ rest)
      | some _ => settle t n (place ++ [s]) rest
      | none => settle (t.insert (place ++ [s]) .directory) n (place ++ [s]) rest

/-- The tree with an entry at a path below the working directory; missing directories are made,
and a file is written through a link that stands there. -/
def put (t : FileTree) (p : FilePath) (e : Entry) : FileTree :=
  let fuel := maxPath
  let ns := steps p
  match e with
  | .directory => (t.settle fuel t.cwd ns).1
  | .link _ =>
    let (t, dir) := t.settle fuel t.cwd ns.dropLast
    t.insert (dir ++ (ns.getLast?.map fun s => [s]).getD []) e
  | .file _ =>
    let (t, dir) := t.settle fuel t.cwd ns.dropLast
    let place := dir ++ (ns.getLast?.map fun s => [s]).getD []
    match t.find? place with
    | some (.link target) =>
      let names := steps target
      let (t, dir) := t.settle fuel (if target.isAbsolute then [] else dir) names.dropLast
      t.insert (dir ++ (names.getLast?.map fun s => [s]).getD []) e
    | _ => t.insert place e

/-- The tree without the file, link or directory at a path below the working directory. -/
def remove (t : FileTree) (p : FilePath) : FileTree :=
  match t.walk false maxLinks t.cwd (steps p) with
  | .ok place => t.erase place
  | .error _ => t

/-- The tree that holds nothing but a working directory. -/
def empty (cwd : List FilePath) : FileTree :=
  ⟨(List.range cwd.length).map fun n => (cwd.take (n + 1), .directory), cwd⟩

end FileTree

end EsModules
