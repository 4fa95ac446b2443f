import EsModules.Module.Id
import EsModules.Package.Target

/-!
# Exports and imports maps

A package maps the subpaths it exports, and the internal names it imports, to targets.  A key
may hold one star, which stands for any text; of the keys that match, the most specific one is
taken.  Conditions are tried in the order they are written in, and a target never leads out of
the package.
-/

namespace EsModules.PackageMap

/-! ## Keys with a star -/

/-- What stands before and after the star of a key that holds exactly one. -/
def splitKey? (key : List Char) : Option (List Char × List Char) :=
  match Text.splitOnce ['*'] key with
  | none => none
  | some (before, after) => if after.contains '*' then none else some (before, after)

/-- The text, never empty, that the star of a key stands for in a name. -/
def matchKey? (key name : List Char) : Option (List Char) := do
  let (before, after) ← splitKey? key
  let rest ← Text.dropPrefix? before name
  let middle ← Text.dropSuffix? after rest
  if middle.isEmpty then none else some middle

/-- Whether a key with a star is more specific than another: it has more before its star, or as
much there and more in all. -/
def isMoreSpecific (key other : List Char) : Bool :=
  let base := fun k : List Char => (k.takeWhile (· != '*')).length
  base other < base key || (base other == base key && other.length < key.length)

/-- An entry that matches a name, with the text its star stands for. -/
structure KeyMatch where
  /-- The key. -/
  key : List Char
  /-- The target under the key. -/
  target : Target
  /-- What the star stands for. -/
  text : List Char
  deriving Repr

/-- The better of the best match so far and an entry. -/
def better (name : List Char) (best : Option KeyMatch) (entry : List Char × Target) :
    Option KeyMatch :=
  match matchKey? entry.1 name with
  | none => best
  | some text => match best with
    | none => some ⟨entry.1, entry.2, text⟩
    | some b => if isMoreSpecific entry.1 b.key then some ⟨entry.1, entry.2, text⟩ else best

/-- The most specific entry that matches a name. -/
def bestMatch (entries : List (List Char × Target)) (name : List Char) : Option KeyMatch :=
  entries.foldl (better name) none

/-! ## Checks -/

/-- The names that no segment of a target may have. -/
def forbiddenSegments : List (List Char) := [".", "..", "node_modules"].map String.toList

/-- Whether a path has a segment that may lead out of its package, written plainly or with
escapes and in either case. -/
def hasForbiddenSegment (path : List Char) : Bool :=
  (Text.splitWhere (fun c => c == '/' || c == '\\') path).any fun segment =>
    forbiddenSegments.contains ((PercentEncoding.decodeText segment).map Char.toLower)

/-- Whether a key is the index of a list: a number below 2³² - 1, without superfluous zeros. -/
def isListIndex (key : List Char) : Bool :=
  match key with
  | [] => false
  | '0' :: _ :: _ => false
  | _ => key.all Ascii.isDigit && Ascii.decimalValue key < 0xffffffff

/-! ## Targets -/

/-- What a target is evaluated for. -/
structure Request where
  /-- The key under which the target stands. -/
  key : List Char
  /-- The text behind the key or in the place of its star. -/
  text : List Char
  /-- Whether the key has a star. -/
  isPattern : Bool
  deriving DecidableEq, Repr

/-- What maps of a package are evaluated in. -/
structure Context where
  /-- The file URL of the manifest. -/
  manifestUrl : Url
  /-- The path of the manifest. -/
  manifestPath : FilePath
  /-- The module that asks. -/
  base : Url
  /-- The conditions that hold besides `default`. -/
  conditions : List (List Char)
  /-- How the name of another package is resolved; only an imports map may hold such names. -/
  resolvePackage : Option (List Char → Except Error Url)

/-- What evaluating a target gives. -/
inductive Outcome
  /-- A module. -/
  | resolved (url : Url)
  /-- Nothing, on purpose. -/
  | excluded
  /-- Nothing, because no condition holds. -/
  | unmatched
  deriving DecidableEq, Repr

/-- The module of an outcome. -/
def Outcome.url? : Outcome → Option Url
  | .resolved url => some url
  | _ => none

namespace Context

/-- The error for a target that is not valid. -/
def invalidTarget (ctx : Context) (target key : List Char) : Error :=
  .invalidTarget target key ctx.manifestPath.display

/-- The error for a subpath that is not exported. -/
def notExported (ctx : Context) (subpath : List Char) : Error :=
  .subpathNotExported subpath ctx.manifestPath.display ctx.base.href

/-- The URL of the package directory. -/
def packageUrl (ctx : Context) : Except UrlError Url := ctx.manifestUrl.join ['.']

/-- Resolves a target that does not start with a dot and a slash: the name of another package. -/
def resolveForeign (ctx : Context) (target : List Char) (r : Request) : Except Error Url :=
  match ctx.resolvePackage with
  | none => .error (ctx.invalidTarget target r.key)
  | some resolvePackage =>
    let leadsOut := "../".toList.isPrefixOf target || "/".toList.isPrefixOf target
    if leadsOut || (Url.parse target).toOption.isSome then .error (ctx.invalidTarget target r.key)
    else resolvePackage
      (if r.isPattern then Text.replaceChar '*' r.text target else target ++ r.text)

/-- The URL of a target within the package. -/
def locate (ctx : Context) (target : List Char) (r : Request) : Except Error Url :=
  if hasForbiddenSegment (target.drop 2) then .error (ctx.invalidTarget target r.key)
  else match ctx.manifestUrl.join target, ctx.packageUrl with
    | .ok url, .ok package =>
      if package.path.isPrefixOf url.path then .ok url
      else .error (ctx.invalidTarget target r.key)
    | _, _ => .error (ctx.invalidTarget target r.key)

/-- The error for a text that a star must not stand for. -/
def invalidMatch (ctx : Context) (r : Request) : Error :=
  let request := if r.isPattern then Text.replaceFirst '*' r.text r.key else r.key ++ r.text
  let field := if ctx.resolvePackage.isSome then "imports" else "exports"
  .invalidSpecifier request
    ("request is not a valid match in pattern \"".toList ++ r.key ++ "\" for the \"".toList
      ++ field.toList ++ "\" resolution of ".toList ++ ctx.manifestPath.display)

/-- The URL of a target path for a request. -/
def resolvePath (ctx : Context) (target : List Char) (r : Request) : Except Error Url :=
  if !r.text.isEmpty && !r.isPattern && target.getLast? != some '/' then
    .error (ctx.invalidTarget target r.key)
  else if !"./".toList.isPrefixOf target then ctx.resolveForeign target r
  else match ctx.locate target r with
    | .error e => .error e
    | .ok url =>
      if r.text.isEmpty then .ok url
      else if hasForbiddenSegment r.text then .error (ctx.invalidMatch r)
      else if r.isPattern then
        let href := Text.replaceChar '*' r.text url.href
        (Url.parse href).mapError fun e => .invalidSpecifier href e.message.toList
      else (url.join r.text).mapError fun e => .invalidSpecifier r.text e.message.toList

/-- Whether a condition holds. -/
def holds (ctx : Context) (condition : List Char) : Bool :=
  condition == "default".toList || ctx.conditions.contains condition

/-- The error for a branch with numbers among its keys. -/
def numericKeys (ctx : Context) : Error :=
  .invalidConfig ctx.manifestPath.display "\"exports\" cannot contain numeric property keys".toList

mutual

/-- Evaluates a target for a request. -/
def evaluate (ctx : Context) (r : Request) : Target → Except Error Outcome
  | .path text => (ctx.resolvePath text r).map .resolved
  | .fallback items => if items.isEmpty then .ok .excluded else evaluateItems ctx r none items
  | .branch entries =>
    if entries.any fun e => isListIndex e.1 then .error ctx.numericKeys
    else evaluateEntries ctx r entries
  | .excluded => .ok .excluded
termination_by structural t => t

/-- Evaluates fallbacks in turn: a target that is not valid is remembered until another item is
excluded, and is the error if no item gives a module. -/
def evaluateItems (ctx : Context) (r : Request) (failure : Option Error) :
    List Target → Except Error Outcome
  | [] => match failure with
    | some e => .error e
    | none => .ok .unmatched
  | t :: ts => match evaluate ctx r t with
    | .ok (.resolved url) => .ok (.resolved url)
    | .ok .unmatched => evaluateItems ctx r failure ts
    | .ok .excluded => evaluateItems ctx r none ts
    | .error (.invalidTarget target key manifest) =>
      evaluateItems ctx r (some (.invalidTarget target key manifest)) ts
    | .error e => .error e
termination_by structural ts => ts

/-- Evaluates the entries of a branch in turn until one whose condition holds matches. -/
def evaluateEntries (ctx : Context) (r : Request) :
    List (List Char × Target) → Except Error Outcome
  | [] => .ok .unmatched
  | e :: es => match evaluateEntry ctx r e with
    | .ok .unmatched => evaluateEntries ctx r es
    | outcome => outcome
termination_by structural es => es

/-- Evaluates an entry of a branch; it does not match if its condition does not hold. -/
def evaluateEntry (ctx : Context) (r : Request) : List Char × Target → Except Error Outcome
  | (condition, t) => if ctx.holds condition then evaluate ctx r t else .ok .unmatched
termination_by structural e => e

end

/-! ## Maps -/

/-- The module that the best entry for a name gives: one with exactly that key, or else the most
specific one with a star. -/
def lookup (ctx : Context) (map : Target) (exact : Bool) (name : List Char) :
    Except Error (Option Url) :=
  match if exact then map.get? name else none with
  | some target => (ctx.evaluate ⟨name, [], false⟩ target).map Outcome.url?
  | none => match bestMatch (map.entries?.getD []) name with
    | some m => (ctx.evaluate ⟨m.key, m.text, true⟩ m.target).map Outcome.url?
    | none => .ok none

/-- The error for a branch that mixes subpaths and conditions. -/
def mixedKeys (ctx : Context) : Error :=
  .invalidConfig ctx.manifestPath.display
    "\"exports\" cannot contain some keys starting with '.' and some not".toList

/-- Whether a key is a subpath. -/
def isSubpathKey (key : List Char) : Bool := key.head? == some '.'

/-- Whether an exports map is shorthand for one with the single key `.`: it is no branch, or one
by conditions. -/
def isShorthand (ctx : Context) (exports : Target) : Except Error Bool :=
  match exports with
  | .path _ | .fallback _ => .ok true
  | .excluded => .ok false
  | .branch [] => .ok false
  | .branch ((key, _) :: rest) =>
    if rest.any fun e => isSubpathKey e.1 != isSubpathKey key then .error ctx.mixedKeys
    else .ok !(isSubpathKey key)

/-- The module that an exports map gives for a subpath. -/
def resolveExport (ctx : Context) (exports : Target) (subpath : List Char) : Except Error Url := do
  let shorthand ← ctx.isShorthand exports
  let map := if shorthand then .branch [(['.'], exports)] else exports
  let exact := !subpath.contains '*' && subpath.getLast? != some '/'
  match ← ctx.lookup map exact subpath with
  | some url => return url
  | none => throw (ctx.notExported subpath)

/-- The module that an imports map gives for an internal name, if it defines it. -/
def resolveImport (ctx : Context) (imports : Target) (name : List Char) :
    Except Error (Option Url) :=
  ctx.lookup imports (!name.contains '*') name

end Context

end EsModules.PackageMap
