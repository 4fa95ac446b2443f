import EsModules.Url.Segments

/-!
# Reading URLs

A URL is read from text, alone or relative to a base URL.  Controls and spaces around the text
and breaks within it do not count.  What stands behind the scheme of a file is read with its
breaks, since its path needs them; all other parts are read without.
-/

namespace EsModules.Url

/-! ## Query and fragment -/

/-- The input in front of a query or fragment, and the rest. -/
def splitPath (input : List Char) : List Char × List Char :=
  input.span fun c => c != '?' && c != '#'

/-- A URL with the fragment of a text that stands behind a number sign. -/
def withFragment (u : Url) (text : List Char) : Url :=
  { u with fragment := some (PercentEncoding.encode PercentEncoding.inFragment text) }

/-- A URL with the query and the fragment that an input starts with. -/
def withTail (u : Url) (input : List Char) : Url :=
  let u := { u with query := none, fragment := none }
  match input with
  | '?' :: r =>
    let (text, rest) := r.span (· != '#')
    let escaped :=
      if isSpecialScheme u.scheme then PercentEncoding.inSpecialQuery else PercentEncoding.inQuery
    let u := { u with query := some (PercentEncoding.encode escaped text) }
    match rest with
    | _ :: f => u.withFragment f
    | [] => u
  | '#' :: f => u.withFragment f
  | _ => u

/-- A URL with a path read behind given segments, and with the query and fragment behind it. -/
def withPath (u : Url) (segs : List (List Char)) (input : List Char) : Url :=
  let (text, rest) := splitPath input
  { u with location := .segments (readPath u.scheme segs text) }.withTail (withoutBreaks rest)

/-! ## Authorities -/

/-- Whether a character ends an authority. -/
def endsAuthority (special : Bool) (c : Char) : Bool :=
  c == '/' || c == '?' || c == '#' || (special && c == '\\')

/-- Reads a user name and a password, if an at sign stands in the authority. -/
def readUserInfo (special : Bool) (input : List Char) :
    Except UrlError (List Char × List Char × List Char) :=
  let (authority, rest) := input.span fun c => !endsAuthority special c
  match Text.splitLast ['@'] authority with
  | none => .ok ([], [], input)
  | some ([], host) =>
    if host.isEmpty && !rest.isEmpty then .error .emptyHost else .ok ([], [], host ++ rest)
  | some (info, host) =>
    let (username, password) := info.span (· != ':')
    let escaped := PercentEncoding.encode PercentEncoding.inUserInfo
    .ok (escaped username, escaped (password.drop 1), host ++ rest)

/-- The text of a host and what stands behind it; colons within brackets belong to the host. -/
def splitHost (special : Bool) : Bool → List Char → List Char × List Char
  | _, [] => ([], [])
  | inBrackets, c :: r =>
    if endsAuthority special c || (c == ':' && !inBrackets) then ([], c :: r)
    else
      let (host, rest) := splitHost special (if c == '[' then true else if c == ']' then false
        else inBrackets) r
      (c :: host, rest)

/-- Reads a port behind its colon. -/
def readPort (scheme : List Char) (input : List Char) : Except UrlError (Option Nat × List Char) :=
  let (digits, rest) := input.span Ascii.isDigit
  let n := Ascii.decimalValue digits
  let ends := match rest with
    | [] => true
    | c :: _ => "/\\?#".toList.contains c
  if n > 65535 || !ends then .error .invalidPort
  else if digits.isEmpty || defaultPort? scheme == some n then .ok (none, rest)
  else .ok (some n, rest)

/-- Reads what stands behind two slashes: authority, path, query and fragment. -/
def readAuthority (scheme : List Char) (input : List Char) : Except UrlError Url := do
  let special := isSpecialScheme scheme
  let (username, password, input) ← readUserInfo special input
  let (hostText, rest) := splitHost special false input
  if special && hostText.isEmpty then throw .emptyHost
  let host ← if special then Host.parse hostText else Host.parseOpaque hostText
  let host := if host == .domain [] then none else some host
  if host.isNone && rest.head? == some ':' then throw .emptyHost
  let (port, rest) ← match rest with
    | ':' :: r => readPort scheme r
    | _ => .ok (none, rest)
  if host.isNone && !(username.isEmpty && password.isEmpty) then throw .emptyHost
  let u : Url := ⟨scheme, some ⟨username, password, host, port⟩, .segments [], none, none⟩
  match rest with
  | '/' :: r => return u.withPath [[]] r
  | [] => return if special then u.withPath [[]] [] else u
  | c :: r =>
    if special then return u.withPath [[]] (if c == '\\' then r else c :: r)
    else if c == '?' || c == '#' then return u.withTail (c :: r)
    else return u.withPath [[]] (c :: r)

/-! ## Relative to a base -/

/-- The segments of a path that is not opaque. -/
def segments (u : Url) : List (List Char) := u.segments?.getD []

/-- The slashes of special schemes. -/
def isSlash (c : Char) : Bool := c == '/' || c == '\\'

/-- Reads a reference relative to a base that is not a file. -/
def readRelative (base : Url) (input : List Char) : Except UrlError Url :=
  match input with
  | [] => .ok { base with fragment := none }
  | '?' :: _ => .ok (base.withTail input)
  | '#' :: f => .ok (base.withFragment f)
  | c :: r =>
    if isSlash c then
      if (r.head?.map isSlash).getD false then
        match input with
        | '/' :: '/' :: rest => readAuthority base.scheme rest
        | _ => readAuthority base.scheme (input.dropWhile isSlash)
      else .ok (base.withPath [[]] r)
    else
      let segs := clearLast false base.segments
      .ok (base.withPath (if segs.isEmpty then [[]] else segs) input)

/-- A file URL without host and path. -/
def bareFile : Url := ⟨"file".toList, some Authority.empty, .segments [], none, none⟩

/-- A file URL with a given host. -/
def fileOn (host : Option Host) : Url := { bareFile with authority := some ⟨[], [], host, none⟩ }

/-- Reads the host of a file URL; the local host is the empty one. -/
def readFileHost (text : List Char) : Except UrlError (Option Host) :=
  if text.isEmpty then .ok none
  else (Host.parse text).map fun h => if h == .domain "localhost".toList then none else some h

/-- Reads what stands behind the two slashes of a file URL. -/
def readFileAuthority (input : List Char) : Except UrlError Url :=
  let (hostText, rest) := input.span fun c => !"/\\?#".toList.contains c
  if isDriveLetter (withoutBreaks hostText) then .ok (bareFile.withPath [[]] input)
  else do
    match ← readFileHost (withoutBreaks hostText) with
    | none => return bareFile.withPath [[]] rest
    | some host =>
      let rest := match rest with
        | c :: r => if isSlash c then r else rest
        | [] => []
      let pieces := pathPieces bareFile.scheme (splitPath rest).1
      let u := if meetsDrive [[]] pieces then bareFile else fileOn (some host)
      return u.withPath [[]] rest

/-- Reads what stands behind one slash of a file URL, the slash included. -/
def readFileRoot (base : Option Url) (input : List Char) : Url :=
  match base with
  | none => bareFile.withPath [] input
  | some b =>
    if startsWithDriveLetter ((withoutBreaks input).drop 1) then bareFile.withPath [] input
    else match b.segments with
      | d :: _ =>
        if isNormalDriveLetter d then bareFile.withPath [d] input
        else (fileOn b.host?).withPath [] input
      | [] => (fileOn b.host?).withPath [] input

/-- Reads a file URL behind its scheme, or a reference relative to a file URL, breaks included. -/
def readFile (base : Option Url) (input : List Char) : Except UrlError Url :=
  match input.dropWhile isBreak, base with
  | c :: r, _ =>
    if isSlash c then match r.dropWhile isBreak with
      | c2 :: r2 => if isSlash c2 then readFileAuthority r2 else .ok (readFileRoot base (c :: r))
      | [] => .ok (readFileRoot base (c :: r))
    else match base with
      | none => .ok (bareFile.withPath [[]] input)
      | some b =>
        if c == '?' then .ok (b.withTail (withoutBreaks (c :: r)))
        else if c == '#' then .ok (b.withFragment (withoutBreaks r))
        else if startsWithDriveLetter (withoutBreaks input) then
          .ok (bareFile.withPath [[]] input)
        else .ok (b.withPath (clearLast true b.segments) input)
  | [], none => .ok (bareFile.withPath [[]] [])
  | [], some b => .ok { b with fragment := none }

/-! ## Whole texts -/

/-- A text without the controls and spaces around it. -/
def trimControls (text : List Char) : List Char :=
  ((text.dropWhile (· ≤ ' ')).reverse.dropWhile (· ≤ ' ')).reverse

/-- The characters of a scheme behind its first one. -/
def isSchemeChar (c : Char) : Bool :=
  Ascii.isAlphanumeric c || c == '+' || c == '-' || c == '.'

/-- The scheme in front of an input, in lower case, and what stands behind its colon, breaks
included. -/
def splitScheme? (input : List Char) : Option (List Char × List Char) :=
  let (scheme, rest) := input.span fun c => isSchemeChar c || isBreak c
  match withoutBreaks scheme, rest with
  | c :: s, ':' :: r => if Ascii.isLetter c then some ((c :: s).map Char.toLower, r) else none
  | _, _ => none

/-- Reads what stands behind a scheme that is not special. -/
def readGeneral (scheme : List Char) (input : List Char) : Except UrlError Url :=
  let u : Url := ⟨scheme, none, .segments [], none, none⟩
  match input with
  | '/' :: '/' :: r => readAuthority scheme r
  | '/' :: r => .ok (u.withPath [[]] r)
  | _ =>
    let (text, rest) := splitPath input
    let opaqueText := PercentEncoding.encode PercentEncoding.inControls text
    .ok ({ u with location := .opaqueText opaqueText }.withTail rest)

/-- Reads what stands behind a special scheme that is not that of files. -/
def readSpecial (base : Option Url) (scheme : List Char) (input : List Char) :
    Except UrlError Url :=
  let slashes := input.takeWhile isSlash
  match base.filter fun b => b.scheme == scheme && slashes.length < 2 with
  | some b => readRelative b input
  | none => readAuthority scheme (input.drop slashes.length)

/-- Reads what stands behind a scheme, breaks included. -/
def readScheme (base : Option Url) (scheme : List Char) (input : List Char) :
    Except UrlError Url :=
  if isFileScheme scheme then readFile (base.filter isFile) input
  else if isSpecialScheme scheme then readSpecial base scheme (withoutBreaks input)
  else readGeneral scheme (withoutBreaks input)

/-- Reads a text without a scheme relative to a base, breaks included. -/
def readReference (base : Url) (input : List Char) : Except UrlError Url :=
  match withoutBreaks input with
  | '#' :: f => .ok (base.withFragment f)
  | plain =>
    if base.isOpaque then .error .relativeToOpaque
    else if base.isFile then readFile (some base) input
    else readRelative base plain

/-- The URL of a text, relative to a base if there is one. -/
def read (base : Option Url) (text : List Char) : Except UrlError Url :=
  let input := trimControls text
  match splitScheme? input, base with
  | some (scheme, rest), _ => readScheme base scheme rest
  | none, some b => readReference b input
  | none, none => .error .relativeWithoutBase

/-- The URL of a text on its own. -/
def parse (text : List Char) : Except UrlError Url := read none text

/-- The URL of a reference relative to a base. -/
def join (base : Url) (reference : List Char) : Except UrlError Url := read (some base) reference

/-- A file URL with its path read anew from a text. -/
def setPath (u : Url) (text : List Char) : Url :=
  { u with location := .segments (readPath u.scheme [] text) }

end EsModules.Url
