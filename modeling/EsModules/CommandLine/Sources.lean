import EsModules.FileTree

/-!
# Source files

The source files at a path: the file itself, or those below a directory in the order of their
names.  Installed packages and hidden directories are passed over, and links are not followed.
-/

namespace EsModules.Sources

/-- The byte in front of an extension. -/
def dot : UInt8 := 0x2E

/-- The extension of a file name, without its dot; a dot in front of a name starts none. -/
def extension? (name : FilePath) : Option FilePath :=
  match name.reverse.span (· != dot) with
  | (back, _ :: _ :: _) => some back.reverse
  | _ => none

/-- The extensions of source files. -/
def extensions : List FilePath :=
  ["js", "mjs", "cjs", "jsx", "ts", "mts", "cts", "tsx"].map fun e => FilePath.ofText e.toList

/-- Whether a file with a name is a source file. -/
def isSource (name : FilePath) : Bool := (extension? name).any extensions.contains

/-- Whether a directory with a name is passed over. -/
def isSkipped (name : FilePath) : Bool :=
  (Utf8.decode? name).any fun n => n == "node_modules".toList || n.head? == some '.'

/-- Whether the names below a directory lead to a source file that is listed. -/
def isListed (names : List FilePath) : Bool :=
  !names.dropLast.any isSkipped && names.getLast?.any isSource

/-- The names that lead from a place to an entry below it, if that is a file. -/
def fileBelow? (place : List FilePath) (entry : List FilePath × Entry) : Option (List FilePath) :=
  match entry.2 with
  | .file _ =>
    if place.isPrefixOf entry.1 && place.length < entry.1.length then
      some (entry.1.drop place.length)
    else none
  | _ => none

/-- The source files below a place, each by the names that lead to it. -/
def below (tree : FileTree) (place : List FilePath) : List (List FilePath) :=
  ((tree.entries.filterMap (fileBelow? place)).filter isListed).mergeSort fun a b => decide (a ≤ b)

/-- The source files at a path; nothing if it leads nowhere. -/
def at? (tree : FileTree) (path : FilePath) : Option (List FilePath) :=
  if tree.isFile path then some [path]
  else if tree.isDirectory path then
    match tree.locate path with
    | .ok place => some ((below tree place).map fun names => names.foldl FilePath.join path)
    | .error _ => none
  else none

end EsModules.Sources
