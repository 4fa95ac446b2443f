import EsModules.Text.Basic
import EsModules.Text.Utf8

/-!
# File paths

A file path is a list of bytes in which slashes separate names; it need not be UTF-8.  Working
on a path never looks at the files: two dots stay, and only what is between slashes counts.
-/

namespace EsModules

/-- The bytes of a file path. -/
abbrev FilePath := List UInt8

namespace FilePath

/-- The byte that separates names. -/
def slash : UInt8 := 0x2F

/-- The name of the directory itself. -/
def here : FilePath := [0x2E]

/-- The name of the directory above. -/
def above : FilePath := [0x2E, 0x2E]

/-- The path that a text spells. -/
def ofText (cs : List Char) : FilePath := Utf8.encode cs

/-- A path as text, with U+FFFD for what is not UTF-8. -/
def display (p : FilePath) : List Char := Utf8.decodeLossy p

/-- Whether a path starts at the root. -/
def isAbsolute (p : FilePath) : Bool := p.head? == some slash

/-- What stands between the slashes of a path. -/
def pieces (p : FilePath) : List FilePath := Text.splitWhere (· == slash) p

/-- Whether a piece names nothing: it is empty or a single dot. -/
def isIdle (piece : FilePath) : Bool := piece.isEmpty || piece == here

/-- The names in a path, two dots among them. -/
def names (p : FilePath) : List FilePath := p.pieces.filter fun piece => !isIdle piece

/-- The absolute path with given names. -/
def ofNames (ns : List FilePath) : FilePath :=
  if ns.isEmpty then [slash] else ns.flatMap (slash :: ·)

/-- A path behind another one; an absolute path stands alone. -/
def join (p q : FilePath) : FilePath :=
  if q.isAbsolute then q
  else if p.isEmpty || p.getLast? == some slash then p ++ q
  else p ++ slash :: q

/-! ## Directories above -/

/-- What a path starts with before its pieces: the root, or a leading dot. -/
def lead (p : FilePath) : FilePath :=
  if p.isAbsolute then [slash]
  else if p == here || (here ++ [slash]).isPrefixOf p then here
  else []

/-- The pieces of a path behind its lead, the last one first. -/
def piecesBack (p : FilePath) : List FilePath := (pieces (p.drop p.lead.length)).reverse

/-- A lead with pieces, given the last one first, without the idle ones at the end. -/
def rebuild (lead : FilePath) (back : List FilePath) : FilePath :=
  lead ++ Text.joinWith [slash] (back.dropWhile isIdle).reverse

/-- The paths above a lead with pieces, given the last one first. -/
def parents (lead : FilePath) : List FilePath → List FilePath
  | [] => if lead == here then [[]] else []
  | piece :: back =>
    if isIdle piece then parents lead back else rebuild lead back :: parents lead back

/-- A path and the paths above it, up to the root or to the empty path. -/
def ancestors (p : FilePath) : List FilePath := p :: parents p.lead p.piecesBack

/-- The directory that a path lies in; the root and the empty path lie in none. -/
def parent? (p : FilePath) : Option FilePath := (parents p.lead p.piecesBack).head?

/-- The last name of a path, unless it is two dots. -/
def fileName? (p : FilePath) : Option FilePath :=
  (p.piecesBack.find? fun piece => !isIdle piece).filter (· != above)

/-! ## Absolute paths -/

/-- A path put behind a working directory if it is relative, without idle pieces.  Two slashes in
front stay two, and a slash at the end stays. -/
def absolute (cwd p : FilePath) : FilePath :=
  let two := [slash, slash]
  let root := if two.isPrefixOf p && !(slash :: two).isPrefixOf p then two else [slash]
  let start := if p.isAbsolute then root else cwd
  let whole := p.names.foldl join start
  if p.getLast? == some slash then whole.join [] else whole

end FilePath

end EsModules
