import EsModules.Url.Host

/-!
# URLs

A URL is kept in its parts: scheme, authority, path, query and fragment, each already
percent-encoded.  A path is either opaque text or a list of segments, each written behind a
slash.
-/

namespace EsModules

/-- Who serves a URL. -/
structure Authority where
  /-- The user name, possibly empty. -/
  username : List Char
  /-- The password, possibly empty. -/
  password : List Char
  /-- The host; none is the empty host. -/
  host : Option Host
  /-- The port, unless it is the scheme's own. -/
  port : Option Nat
  deriving DecidableEq, Repr

/-- The authority that names nobody, as most file URLs have it. -/
def Authority.empty : Authority := ⟨[], [], none, none⟩

/-- The path of a URL. -/
inductive UrlPath
  /-- A text without structure. -/
  | opaqueText (text : List Char)
  /-- Segments, each written behind a slash. -/
  | segments (segments : List (List Char))
  deriving DecidableEq, Repr

/-- A URL. -/
structure Url where
  /-- The scheme, in lower case. -/
  scheme : List Char
  /-- The authority, if there is one. -/
  authority : Option Authority
  /-- The path. -/
  location : UrlPath
  /-- What stands behind the question mark. -/
  query : Option (List Char)
  /-- What stands behind the number sign. -/
  fragment : Option (List Char)
  deriving DecidableEq, Repr

namespace Url

/-- Segments, each behind a slash. -/
def joinSegments (segments : List (List Char)) : List Char := segments.flatMap ('/' :: ·)

/-- The text of the path. -/
def path (u : Url) : List Char :=
  match u.location with
  | .opaqueText text => text
  | .segments segments => joinSegments segments

/-- The segments of the path, unless it is opaque. -/
def segments? (u : Url) : Option (List (List Char)) :=
  match u.location with
  | .opaqueText _ => none
  | .segments segments => some segments

/-- Whether nothing can be resolved against a URL. -/
def isOpaque (u : Url) : Bool := u.segments?.isNone

/-- The host, if there is one. -/
def host? (u : Url) : Option Host := u.authority.bind Authority.host

/-- The text of a user name and a password. -/
def renderUserInfo (a : Authority) : List Char :=
  if a.username.isEmpty && a.password.isEmpty then []
  else a.username ++ (if a.password.isEmpty then [] else ':' :: a.password) ++ ['@']

/-- The text of an authority. -/
def renderAuthority (a : Authority) : List Char :=
  renderUserInfo a ++ (a.host.map Host.render).getD []
    ++ (a.port.map fun n => ':' :: (toString n).toList).getD []

/-- The text between scheme and path; a path that starts with two slashes is kept from being
read as an authority. -/
def beforePath (u : Url) : List Char :=
  match u.authority with
  | some a => "//".toList ++ renderAuthority a
  | none => if "//".toList.isPrefixOf u.path then "/.".toList else []

/-- The text of a URL. -/
def href (u : Url) : List Char :=
  u.scheme ++ ':' :: (u.beforePath ++ u.path
    ++ (u.query.map ('?' :: ·)).getD [] ++ (u.fragment.map ('#' :: ·)).getD [])

/-! ## Schemes -/

/-- The special schemes but `file`, each with the port it uses unless another is given. -/
def defaultPorts : List (String × Nat) :=
  [("http", 80), ("https", 443), ("ws", 80), ("wss", 443), ("ftp", 21)]

/-- The port that a scheme uses unless another is given. -/
def defaultPort? (scheme : List Char) : Option Nat :=
  (defaultPorts.find? fun entry => entry.1.toList == scheme).map (·.2)

/-- Whether a scheme is that of files. -/
def isFileScheme (scheme : List Char) : Bool := scheme == "file".toList

/-- Whether a scheme has hosts and hierarchical paths, and reads backslashes as slashes. -/
def isSpecialScheme (scheme : List Char) : Bool :=
  isFileScheme scheme || (defaultPort? scheme).isSome

/-- Whether a URL names a file. -/
def isFile (u : Url) : Bool := isFileScheme u.scheme

end Url

end EsModules
