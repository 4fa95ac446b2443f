import EsModules.Url.Basic

/-!
# Paths of URLs, segment by segment

Reading a path adds its segments to those already there: a single dot adds nothing, two dots
remove the last segment.  In a file URL a drive letter at the front is kept, and empty segments
at the front are dropped.

The path of a file URL is read with its breaks, the tabs and line ends that do not count: one of
them behind the drive letter at the front ends the segment.
-/

namespace EsModules.Url

/-! ## Breaks -/

/-- The characters within a text that do not count. -/
def isBreak (c : Char) : Bool := c == '\t' || Ascii.isLineEnd c

/-- A text without its breaks. -/
def withoutBreaks (text : List Char) : List Char := text.filter fun c => !isBreak c

/-! ## Special segments -/

/-- The texts that stand for the segment itself. -/
def isSingleDot (t : List Char) : Bool :=
  (["." , "%2e", "%2E"].map String.toList).contains t

/-- The texts that stand for the segment before. -/
def isDoubleDot (t : List Char) : Bool :=
  (["..", "%2e%2e", "%2e%2E", "%2E%2e", "%2E%2E", "%2e.", "%2E.", ".%2e", ".%2E"].map
    String.toList).contains t

/-- A letter and a colon or a bar. -/
def isDriveLetter : List Char → Bool
  | [a, b] => Ascii.isLetter a && (b == ':' || b == '|')
  | _ => false

/-- A letter and a colon. -/
def isNormalDriveLetter : List Char → Bool
  | [a, b] => Ascii.isLetter a && b == ':'
  | _ => false

/-- Whether an input starts with a drive letter that is a whole segment. -/
def startsWithDriveLetter : List Char → Bool
  | [a, b] => isDriveLetter [a, b]
  | a :: b :: c :: _ => isDriveLetter [a, b] && "/\\?#".toList.contains c
  | _ => false

/-! ## One segment -/

/-- Segments without the text of the last one; the drive letter of a file URL stays. -/
def clearLast (isFile : Bool) (segs : List (List Char)) : List (List Char) :=
  match segs.getLast? with
  | none => []
  | some last => if isFile && isNormalDriveLetter last then segs else segs.dropLast ++ [[]]

/-- Segments without an empty last one, unless it is the only one or follows a drive letter,
alone or in front of a backslash. -/
def dropEmptyLast (segs : List (List Char)) : List (List Char) :=
  match segs.reverse with
  | [] :: before :: front =>
    if startsWithDriveLetter before then segs else (before :: front).reverse
  | _ => segs

/-- Segments with an empty last one. -/
def openLast (segs : List (List Char)) : List (List Char) :=
  if segs.getLast? == some [] then segs else segs ++ [[]]

/-- Segments with a text added to the last one. -/
def extendLast (segs : List (List Char)) (t : List Char) : List (List Char) :=
  match segs.getLast? with
  | none => if t.isEmpty then [] else [t]
  | some last => segs.dropLast ++ [last ++ t]

/-- Adds one segment, given its encoded text and whether a slash follows it. -/
def addSegment (isFile : Bool) (segs : List (List Char)) (t : List Char) (slash : Bool) :
    List (List Char) :=
  let segs := match segs with
    | [d] => if isFile && isNormalDriveLetter d && !t.isEmpty then [d, []] else segs
    | _ => segs
  if isDoubleDot t then
    let shorter := clearLast isFile (dropEmptyLast segs)
    if slash then openLast shorter else shorter
  else if isSingleDot t then openLast segs
  else
    let drive := isFile && segs == [[]] && isDriveLetter t
    let longer := extendLast segs (if drive then t.take 1 ++ [':'] else t)
    if slash then longer ++ [[]] else longer

/-- The drive letter of a text that has a break right behind it, and what stands behind that. -/
def brokenDrive? (text : List Char) : Option (List Char × List Char) :=
  match text.span (· != ':') with
  | (front, mark :: c :: r) =>
    let drive := withoutBreaks front ++ [mark]
    let rest := withoutBreaks r
    if isBreak c && isNormalDriveLetter drive && !rest.isEmpty then some (drive, rest) else none
  | _ => none

/-- Adds the segment that a piece between slashes stands for. -/
def addPiece (isFile : Bool) (segs : List (List Char)) (piece : List Char) (slash : Bool) :
    List (List Char) :=
  let escaped := PercentEncoding.encode PercentEncoding.inPath
  match if isFile && segs == [[]] then brokenDrive? piece else none with
  | some (drive, rest) => [drive, escaped rest] ++ (if slash then [[]] else [])
  | none => addSegment isFile segs (escaped (withoutBreaks piece)) slash

/-- Adds the segments that the pieces of a path stand for, in order. -/
def addPieces (isFile : Bool) : List (List Char) → List (List Char) → List (List Char)
  | segs, [] => segs
  | segs, p :: ps => addPieces isFile (addPiece isFile segs p (!ps.isEmpty)) ps

/-- Segments without the empty ones in front; one segment is always left. -/
def dropEmptyFront (segs : List (List Char)) : List (List Char) :=
  match segs.dropWhile List.isEmpty with
  | [] => [[]]
  | kept => kept

/-! ## A whole path -/

/-- The pieces of a path between slashes; a special scheme reads backslashes as slashes. -/
def pathPieces (scheme text : List Char) : List (List Char) :=
  Text.splitWhere (fun c => c == '/' || (isSpecialScheme scheme && c == '\\')) text

/-- The segments after a path text is read behind given ones. -/
def readPath (scheme : List Char) (segs : List (List Char)) (text : List Char) :
    List (List Char) :=
  let isFile := isFileScheme scheme
  let read := addPieces isFile segs (pathPieces scheme text)
  if isFile then dropEmptyFront read else read

/-- Whether a piece of a path is the drive letter at the front, for which a host makes room. -/
def meetsDrive : List (List Char) → List (List Char) → Bool
  | _, [] => false
  | segs, p :: ps =>
    (segs == [[]] && isDriveLetter (withoutBreaks p))
      || meetsDrive (addPiece true segs p (!ps.isEmpty)) ps

end EsModules.Url
