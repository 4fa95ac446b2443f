import EsModules.Text.Basic
import EsModules.Url.PercentEncoding

/-!
# Sanitised names

File names made from module ids must not hold characters that mean something in a URI.  Each run
of such characters, and each percent escape, gives way to a replacement text.
-/

namespace EsModules.Sanitized

/-- The characters that a name must not hold. -/
def isForbidden (c : Char) : Bool :=
  PercentEncoding.inControls c || "\"#$&*+,/:;<=>?@[]^\x60\x7b|\x7d".toList.contains c

/-- A text with each run of forbidden characters replaced; `inRun` says that one goes on. -/
def replaceRuns (replacement : List Char) : Bool → List Char → List Char
  | _, [] => []
  | inRun, c :: r =>
    if isForbidden c then (if inRun then [] else replacement) ++ replaceRuns replacement true r
    else c :: replaceRuns replacement false r

/-- A text with each percent sign and the two characters behind it replaced. -/
def replaceEscapes (replacement : List Char) : List Char → List Char
  | [] => []
  | '%' :: _ :: _ :: r => replacement ++ replaceEscapes replacement r
  | '%' :: r => '%' :: r
  | c :: r => c :: replaceEscapes replacement r

/-- A name without forbidden characters and escapes. -/
def component (replacement name : List Char) : List Char :=
  replaceEscapes replacement (replaceRuns replacement false name)

/-- Restores the colon behind a drive letter at the front of a path. -/
def restoreDrive : List Char → List Char
  | d :: '_' :: '/' :: r =>
    if Ascii.isLetter d then d :: ':' :: '/' :: r
    else d :: '_' :: '/' :: r
  | r => r

/-- A file path with every segment sanitised; what follows a question mark is dropped. -/
def filePath (path : List Char) : List Char :=
  let segments := Text.splitWhere (fun c => c == '/' || c == '\\') (path.takeWhile (· != '?'))
  restoreDrive (Text.joinWith ['/'] (segments.map (component ['_'])))

end EsModules.Sanitized
