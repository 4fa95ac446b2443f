import EsModules.Text.Basic
import EsModules.Url.DomainName
import EsModules.Url.PercentEncoding

/-!
# Hosts

The host of a URL is a domain name, an IPv4 address or an IPv6 address.  In a URL with a special
scheme the host text is percent-decoded, brought into the ASCII form of domain names and, if its
last label is a number, read as an IPv4 address.
-/

namespace EsModules

/-- Why a text is no URL. -/
inductive UrlError
  | relativeWithoutBase
  | relativeToOpaque
  | emptyHost
  | invalidDomain
  | invalidHostCharacter
  | invalidPort
  | invalidIPv4
  | invalidIPv6
  deriving DecidableEq, Repr

/-- The text of an error. -/
def UrlError.message : UrlError → String
  | .relativeWithoutBase => "relative URL without a base"
  | .relativeToOpaque => "relative URL with a cannot-be-a-base base"
  | .emptyHost => "empty host"
  | .invalidDomain => "invalid international domain name"
  | .invalidHostCharacter => "invalid domain character"
  | .invalidPort => "invalid port number"
  | .invalidIPv4 => "invalid IPv4 address"
  | .invalidIPv6 => "invalid IPv6 address"

/-- The host of a URL. -/
inductive Host
  | domain (name : List Char)
  | ipv4 (address : Nat)
  | ipv6 (pieces : List Nat)
  deriving DecidableEq, Repr

namespace Host

/-! ## Numbers -/

/-- A number in a given base, all of whose digits satisfy a bound. -/
def number? (base : Nat) (cs : List Char) : Option Nat :=
  cs.foldl (fun acc c => do
    let n ← acc
    let d ← Ascii.hexValue? c
    if d < base then some (n * base + d) else none) (some 0)

/-- A number in decimal, or in octal behind a zero, or in hexadecimal behind `0x`. -/
def ipv4Number? (cs : List Char) : Option Nat :=
  match cs with
  | [] => none
  | '0' :: 'x' :: r => number? 16 r
  | '0' :: 'X' :: r => number? 16 r
  | '0' :: d :: r => number? 8 (d :: r)
  | _ => number? 10 cs

/-- The labels of a domain, without an empty one at the end. -/
def labels (name : List Char) : List (List Char) :=
  let parts := Text.splitOn '.' name
  if parts.length > 1 && parts.getLast? == some [] then parts.dropLast else parts

/-- Whether the last label of a domain is a number. -/
def endsInNumber (name : List Char) : Bool :=
  match (labels name).getLast? with
  | none => false
  | some last =>
    (!last.isEmpty && last.all Ascii.isDigit) || (ipv4Number? last).isSome

/-- The address that numbers between points stand for; the last number fills all bytes left. -/
def ipv4Address? (parts : List (List Char)) : Option Nat := do
  let numbers ← parts.mapM ipv4Number?
  let last ← numbers.getLast?
  let front := numbers.dropLast
  let room := 8 * (4 - front.length)
  if front.length > 3 || last ≥ 1 <<< room || front.any (fun n => n > 255) then none
  else some (last + front.foldl (fun value n => value * 256 + n) 0 <<< room)

/-- An IPv4 address in its usual form. -/
def renderIPv4 (address : Nat) : List Char :=
  Text.joinWith ['.'] ([3, 2, 1, 0].map fun i => (toString ((address >>> (8 * i)) % 256)).toList)

/-! ## IPv6 addresses -/

/-- A byte of an embedded IPv4 address: decimal, without superfluous zeros. -/
def ipv4Byte? (cs : List Char) : Option Nat :=
  match cs with
  | [] => none
  | '0' :: _ :: _ => none
  | _ => (number? 10 cs).filter (· ≤ 255)

/-- A piece of an IPv6 address: one to four hexadecimal digits. -/
def ipv6Piece? (cs : List Char) : Option Nat :=
  if cs.isEmpty || cs.length > 4 then none else number? 16 cs

/-- The pieces between colons; the last may be an IPv4 address if that is allowed. -/
def ipv6Pieces? (allowIPv4 : Bool) (cs : List Char) : Option (List Nat) :=
  if cs.isEmpty then some []
  else do
    let parts := Text.splitOn ':' cs
    let last ← parts.getLast?
    if last.contains '.' && allowIPv4 then
      let front ← parts.dropLast.mapM ipv6Piece?
      match ← (Text.splitOn '.' last).mapM ipv4Byte? with
      | [a, b, c, d] => some (front ++ [a * 256 + b, c * 256 + d])
      | _ => none
    else parts.mapM ipv6Piece?

/-- The eight pieces of an IPv6 address; two colons stand for at least one zero piece. -/
def ipv6? (cs : List Char) : Option (List Nat) :=
  match Text.splitOnce "::".toList cs with
  | none => (ipv6Pieces? true cs).filter (·.length == 8)
  | some (a, b) => do
    let left ← ipv6Pieces? false a
    let right ← ipv6Pieces? true b
    if left.length + right.length > 7 then none
    else some (left ++ List.replicate (8 - left.length - right.length) 0 ++ right)

/-- The length of the run of zeros in front. -/
def zeroRun (pieces : List Nat) : Nat := (pieces.takeWhile (· == 0)).length

/-- Where the first longest run of at least two zeros starts, and its length. -/
def longestZeroRun (pieces : List Nat) : Option (Nat × Nat) :=
  (List.range pieces.length).foldl (fun best i =>
    let n := zeroRun (pieces.drop i)
    if n > (best.map Prod.snd).getD 1 then some (i, n) else best) none

/-- A number in hexadecimal. -/
def hex (n : Nat) : List Char := Nat.toDigits 16 n

/-- An IPv6 address in its usual form: the first longest run of zero pieces is left out. -/
def renderIPv6 (pieces : List Nat) : List Char :=
  match longestZeroRun pieces with
  | none => Text.joinWith [':'] (pieces.map hex)
  | some (i, n) =>
    Text.joinWith [':'] ((pieces.take i).map hex) ++ "::".toList
      ++ Text.joinWith [':'] ((pieces.drop (i + n)).map hex)

/-! ## Domains -/

/-- The characters that no host of a URL without a special scheme contains. -/
def isForbiddenInHost (c : Char) : Bool := "\x00\t\n\r #/:<>?@[\\]^|".toList.contains c

/-- The host that a bracketed text stands for. -/
def bracketed (cs : List Char) : Except UrlError Host :=
  match Text.dropSuffix? [']'] cs with
  | none => .error .invalidIPv6
  | some inner => match ipv6? inner with
    | some pieces => .ok (.ipv6 pieces)
    | none => .error .invalidIPv6

/-- The host that a text stands for in a URL with a special scheme. -/
def parse (cs : List Char) : Except UrlError Host :=
  match cs with
  | '[' :: r => bracketed r
  | _ => match Utf8.decode? (PercentEncoding.decode cs) with
    | none => .error .invalidDomain
    | some decoded => match DomainName.toAscii? decoded with
      | none => .error .invalidDomain
      | some name =>
        if name.isEmpty then .error .emptyHost
        else if endsInNumber name then
          match ipv4Address? (labels name) with
          | some address => .ok (.ipv4 address)
          | none => .error .invalidIPv4
        else .ok (.domain name)

/-- The host that a text stands for in a URL without a special scheme. -/
def parseOpaque (cs : List Char) : Except UrlError Host :=
  match cs with
  | '[' :: r => bracketed r
  | _ =>
    if cs.any isForbiddenInHost then .error .invalidHostCharacter
    else .ok (.domain (PercentEncoding.encode PercentEncoding.inControls cs))

/-- The text of a host. -/
def render : Host → List Char
  | .domain name => name
  | .ipv4 address => renderIPv4 address
  | .ipv6 pieces => '[' :: renderIPv6 pieces ++ [']']

end Host

end EsModules
