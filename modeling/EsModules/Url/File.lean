import EsModules.FilePath
import EsModules.Url.Parser

/-!
# File URLs and file paths

An absolute file path becomes a file URL name by name, each name escaped; dots are not resolved.
A URL becomes a file path by percent-decoding its segments, unless it names another host.
-/

namespace EsModules.Url

/-- The file URL of an absolute path. -/
def ofFilePath? (p : FilePath) : Option Url :=
  if p.isAbsolute then
    let segs := p.names.map (PercentEncoding.encodeBytes PercentEncoding.inSegment)
    some { bareFile with location := .segments (if segs.isEmpty then [[]] else segs) }
  else none

/-- The file URL of an absolute path to a directory: it ends in a slash. -/
def ofDirectoryPath? (p : FilePath) : Option Url :=
  (ofFilePath? p).map fun u => { u with location := .segments (openLast u.segments) }

/-- The letters of ASCII as bytes. -/
def isLetterByte (b : UInt8) : Bool := Ascii.isLetter (Char.ofNat b.toNat)

/-- A path with a slash behind a drive letter at its end. -/
def closeDrive (p : FilePath) : FilePath :=
  match p.reverse with
  | mark :: letter :: _ :: _ =>
    if (mark == 0x3A || mark == 0x7C) && isLetterByte letter then p ++ [FilePath.slash] else p
  | _ => p

/-- The file path of a URL that names no other host. -/
def toFilePath? (u : Url) : Option FilePath :=
  let isLocal := match u.host? with
    | none => true
    | some host => host == .domain "localhost".toList
  if isLocal && !u.segments.isEmpty then
    some (closeDrive (u.segments.flatMap fun s => FilePath.slash :: PercentEncoding.decode s))
  else none

end EsModules.Url
