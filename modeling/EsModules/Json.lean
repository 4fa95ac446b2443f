import EsModules.Text.Basic
import EsModules.Url.PercentEncoding

/-!
# JSON

JSON texts are read into values that keep the order of members; a repeated key keeps its first
place and takes its last value.  Values can be written on one line or indented.
-/

namespace EsModules

/-- A JSON value; a number is kept as its text. -/
inductive JsonValue
  | null
  | bool (value : Bool)
  | number (text : List Char)
  | string (text : List Char)
  | list (items : List JsonValue)
  | object (members : List (List Char × JsonValue))
  deriving Repr, BEq

namespace JsonValue

/-! ## Access -/

/-- The value under a key of an object. -/
def get? (v : JsonValue) (key : List Char) : Option JsonValue :=
  match v with
  | object members => (members.find? fun m => m.1 == key).map (·.2)
  | _ => none

/-- The text of a string. -/
def text? : JsonValue → Option (List Char)
  | string text => some text
  | _ => none

/-- Members with one more; a key that is there keeps its place. -/
def setMember (key : List Char) (value : JsonValue) :
    List (List Char × JsonValue) → List (List Char × JsonValue)
  | [] => [(key, value)]
  | (k, v) :: rest => if k == key then (k, value) :: rest else (k, v) :: setMember key value rest

/-! ## Reading strings and numbers -/

/-- The blanks between JSON tokens. -/
def isJsonBlank (c : Char) : Bool := c == ' ' || c == '\t' || c == '\n' || c == '\r'

/-- An input without the blanks in front. -/
def skipBlanks (input : List Char) : List Char := input.dropWhile isJsonBlank

/-- The number that four hexadecimal digits stand for. -/
def hexUnit? (a b c d : Char) : Option Nat := do
  let a ← Ascii.hexValue? a
  let b ← Ascii.hexValue? b
  let c ← Ascii.hexValue? c
  let d ← Ascii.hexValue? d
  some (((a * 16 + b) * 16 + c) * 16 + d)

/-- The character behind a backslash, other than a numeric escape. -/
def simpleEscape? (c : Char) : Option Char :=
  match c with
  | '"' => some '"'
  | '\\' => some '\\'
  | '/' => some '/'
  | 'b' => some '\x08'
  | 'f' => some '\x0c'
  | 'n' => some '\n'
  | 'r' => some '\r'
  | 't' => some '\t'
  | _ => none

/-- A string behind its opening quote.  A numeric escape of a high surrogate must be followed by
one of a low surrogate, and a low one stands nowhere else. -/
def readString? : List Char → Option (List Char × List Char)
  | [] => none
  | '"' :: r => some ([], r)
  | '\\' :: 'u' :: a :: b :: c :: d :: r => do
    let n ← hexUnit? a b c d
    if 0xD800 ≤ n && n < 0xDC00 then
      match r with
      | '\\' :: 'u' :: e :: f :: g :: h :: r' =>
        let m ← hexUnit? e f g h
        if 0xDC00 ≤ m && m < 0xE000 then
          let (text, rest) ← readString? r'
          some (Char.ofNat (0x10000 + (n - 0xD800) * 0x400 + (m - 0xDC00)) :: text, rest)
        else none
      | _ => none
    else if 0xDC00 ≤ n && n < 0xE000 then none
    else
      let (text, rest) ← readString? r
      some (Char.ofNat n :: text, rest)
  | '\\' :: c :: r => do
    let e ← simpleEscape? c
    let (text, rest) ← readString? r
    some (e :: text, rest)
  | c :: r =>
    if c.toNat < 0x20 || c == '\\' then none
    else do
      let (text, rest) ← readString? r
      some (c :: text, rest)

/-- The greatest whole number a significand is kept exactly up to. -/
def maxSignificand : Nat := 0xffffffffffffffff

/-- The leading digits that fit a significand, their value, and the digits left. -/
def significand (n : Nat) : List Char → Nat × List Char
  | [] => (n, [])
  | c :: r =>
    let m := n * 10 + (c.toNat - 0x30)
    if m > maxSignificand then (n, c :: r) else significand m r

/-- Whether a number, given by its digits before and behind the point and its exponent, lies in
the range of double precision. -/
def inDoubleRange (whole fraction : List Char) (exponent : Int) : Bool :=
  let (n, left) := significand 0 whole
  let (n, dropped) := if left.isEmpty then significand n fraction else (n, fraction)
  let e : Int := exponent + left.length - (fraction.length - dropped.length)
  n == 0 || e < 0 || (e ≤ 308 && n * Nat.pow 10 e.toNat < 1 <<< 1024 - 1 <<< 970)

/-- The fraction of a number: a point and digits, or nothing. -/
def readFraction? : List Char → Option (List Char × List Char)
  | '.' :: r =>
    let (digits, rest) := r.span Ascii.isDigit
    if digits.isEmpty then none else some (digits, rest)
  | r => some ([], r)

/-- The exponent of a number, or zero. -/
def readExponent? (input : List Char) : Option (Int × List Char) :=
  match input with
  | e :: r =>
    if e == 'e' || e == 'E' then
      let (negative, r) := match r with
        | '-' :: r => (true, r)
        | '+' :: r => (false, r)
        | r => (false, r)
      let (digits, rest) := r.span Ascii.isDigit
      if digits.isEmpty then none
      else
        let n : Int := Ascii.decimalValue digits
        some (if negative then -n else n, rest)
    else some (0, input)
  | [] => some (0, [])

/-- A number: no superfluous zero in front, digits on both sides of a point, and in the range of
double precision. -/
def readNumber? (input : List Char) : Option (JsonValue × List Char) := do
  let unsigned := match input with
    | '-' :: r => r
    | r => r
  let (whole, rest) := unsigned.span Ascii.isDigit
  match whole with
  | [] => none
  | '0' :: _ :: _ => none
  | _ =>
    let (fraction, rest) ← readFraction? rest
    let (exponent, rest) ← readExponent? rest
    if inDoubleRange whole fraction exponent then
      some (.number (input.take (input.length - rest.length)), rest)
    else none

/-! ## Reading values -/

/-- How deep lists and objects may lie in each other. -/
def maxDepth : Nat := 127

mutual

/-- Reads a value, given how many more steps may be taken and how deep lists may still go. -/
def readValue? : Nat → Nat → List Char → Option (JsonValue × List Char)
  | 0, _, _ => none
  | fuel + 1, depth, input =>
    match skipBlanks input with
    | 'n' :: 'u' :: 'l' :: 'l' :: r => some (.null, r)
    | 't' :: 'r' :: 'u' :: 'e' :: r => some (.bool true, r)
    | 'f' :: 'a' :: 'l' :: 's' :: 'e' :: r => some (.bool false, r)
    | '"' :: r => (readString? r).map fun (text, rest) => (.string text, rest)
    | '[' :: r => match depth with
      | 0 => none
      | depth + 1 => match skipBlanks r with
        | ']' :: rest => some (.list [], rest)
        | items => (readItems? fuel depth items).map fun (vs, rest) => (.list vs, rest)
    | '\x7b' :: r => match depth with
      | 0 => none
      | depth + 1 => match skipBlanks r with
        | '\x7d' :: rest => some (.object [], rest)
        | members => (readMembers? fuel depth [] members).map fun (ms, rest) => (.object ms, rest)
    | input => readNumber? input

/-- Reads the items of a list and its closing bracket. -/
def readItems? : Nat → Nat → List Char → Option (List JsonValue × List Char)
  | 0, _, _ => none
  | fuel + 1, depth, input => do
    let (v, rest) ← readValue? fuel depth input
    match skipBlanks rest with
    | ']' :: rest => some ([v], rest)
    | ',' :: rest =>
      let (vs, rest) ← readItems? fuel depth rest
      some (v :: vs, rest)
    | _ => none

/-- Reads the members of an object behind those already read, and its closing brace. -/
def readMembers? : Nat → Nat → List (List Char × JsonValue) → List Char →
    Option (List (List Char × JsonValue) × List Char)
  | 0, _, _, _ => none
  | fuel + 1, depth, done, input =>
    match skipBlanks input with
    | '"' :: r => do
      let (key, rest) ← readString? r
      match skipBlanks rest with
      | ':' :: rest =>
        let (v, rest) ← readValue? fuel depth rest
        let done := setMember key v done
        match skipBlanks rest with
        | '\x7d' :: rest => some (done, rest)
        | ',' :: rest => readMembers? fuel depth done rest
        | _ => none
      | _ => none
    | _ => none

end

/-- The value that a whole text stands for; every step but the last takes a character. -/
def parse? (text : List Char) : Option JsonValue :=
  match readValue? (2 * text.length + 1) maxDepth text with
  | some (v, rest) => if (skipBlanks rest).isEmpty then some v else none
  | none => none

/-! ## Writing -/

/-- A character within a quoted string. -/
def escapeChar (c : Char) : List Char :=
  match c with
  | '"' => "\\\"".toList
  | '\\' => "\\\\".toList
  | '\x08' => "\\b".toList
  | '\x0c' => "\\f".toList
  | '\n' => "\\n".toList
  | '\r' => "\\r".toList
  | '\t' => "\\t".toList
  | c =>
    if c.toNat < 0x20 then
      let digit := fun n => Char.ofNat (if n < 10 then 0x30 + n else 0x57 + n)
      ['\\', 'u', '0', '0', digit (c.toNat / 16), digit (c.toNat % 16)]
    else [c]

/-- A quoted string. -/
def quote (text : List Char) : List Char := '"' :: text.flatMap escapeChar ++ ['"']

mutual

/-- A value on one line, without blanks. -/
def compact : JsonValue → List Char
  | null => "null".toList
  | bool b => (if b then "true" else "false").toList
  | number text => text
  | string text => quote text
  | list items => '[' :: Text.joinWith [','] (compactItems items) ++ [']']
  | object members => '\x7b' :: Text.joinWith [','] (compactMembers members) ++ ['\x7d']
termination_by structural v => v

/-- The items of a list, each on one line. -/
def compactItems : List JsonValue → List (List Char)
  | [] => []
  | v :: vs => compact v :: compactItems vs
termination_by structural vs => vs

/-- The members of an object, each on one line. -/
def compactMembers : List (List Char × JsonValue) → List (List Char)
  | [] => []
  | m :: ms => compactMember m :: compactMembers ms
termination_by structural ms => ms

/-- A member of an object on one line. -/
def compactMember : List Char × JsonValue → List Char
  | (key, v) => quote key ++ ':' :: compact v
termination_by structural m => m

end

/-- The blanks in front of a line at a depth. -/
def indent (depth : Nat) : List Char := List.replicate (2 * depth) ' '

/-- Lines between brackets, each at a depth, or nothing between them. -/
def block (left right : Char) (depth : Nat) (lines : List (List Char)) : List Char :=
  if lines.isEmpty then [left, right]
  else
    left :: '\n' :: Text.joinWith ",\n".toList (lines.map (indent (depth + 1) ++ ·)) ++ '\n' ::
      indent depth ++ [right]

mutual

/-- A value over several lines, its first line at a depth. -/
def pretty (depth : Nat) : JsonValue → List Char
  | list items => block '[' ']' depth (prettyItems (depth + 1) items)
  | object members => block '\x7b' '\x7d' depth (prettyMembers (depth + 1) members)
  | null => "null".toList
  | bool b => (if b then "true" else "false").toList
  | number text => text
  | string text => quote text
termination_by structural v => v

/-- The items of a list at a depth. -/
def prettyItems (depth : Nat) : List JsonValue → List (List Char)
  | [] => []
  | v :: vs => pretty depth v :: prettyItems depth vs
termination_by structural vs => vs

/-- The members of an object at a depth. -/
def prettyMembers (depth : Nat) : List (List Char × JsonValue) → List (List Char)
  | [] => []
  | m :: ms => prettyMember depth m :: prettyMembers depth ms
termination_by structural ms => ms

/-- A member of an object at a depth. -/
def prettyMember (depth : Nat) : List Char × JsonValue → List Char
  | (key, v) => quote key ++ ": ".toList ++ pretty depth v
termination_by structural m => m

end

end JsonValue

end EsModules
