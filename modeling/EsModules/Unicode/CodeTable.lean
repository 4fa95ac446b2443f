import EsModules.Text.Ascii
import EsModules.Text.Basic

/-!
# Tables of codes

A table lists ranges of code points in their order, most of them with a value: a sequence of
codes.  It is written as words.  `C0-C3:41.300` gives the codes from C0 to C3 a value that starts
as 41 300 and whose last code grows with the code it is given to; `100-12E/2:101` does so for
every second code from 100 to 12E; `5BF` lists one code and gives it nothing.

* `CodeTable.find?` finds the range of a code, and a range that is found covers the code
  (`covers_of_find?_eq_some`).
-/

namespace EsModules.Unicode

/-! ## Ranges -/

/-- The codes between two bounds, or every second or later one of them, with their value. -/
structure CodeRange where
  /-- The first code. -/
  first : Nat
  /-- The last code. -/
  last : Nat
  /-- How far one code is from the next. -/
  step : Nat
  /-- The value of the first code. -/
  value : List Nat
  deriving DecidableEq, Repr

namespace CodeRange

/-- Whether a range has a code. -/
def covers (r : CodeRange) (n : Nat) : Bool :=
  r.first ≤ n && n ≤ r.last && (n - r.first) % r.step == 0

/-- The value of a code of a range. -/
def valueAt (r : CodeRange) (n : Nat) : List Nat :=
  match r.value.reverse with
  | [] => []
  | grows :: front => ((grows + (n - r.first)) :: front).reverse

/-- The number that hexadecimal digits stand for. -/
def hexNumber (digits : List Char) : Nat :=
  digits.foldl (fun n c => 16 * n + (Ascii.hexValue? c).getD 0) 0

/-- The range that a word stands for. -/
def ofWord (word : List Char) : CodeRange :=
  let (codes, value) := (Text.splitOnce [':'] word).getD (word, [])
  let (bounds, step) := (Text.splitOnce ['/'] codes).getD (codes, ['1'])
  let (first, last) := (Text.splitOnce ['-'] bounds).getD (bounds, bounds)
  { first := hexNumber first
    last := hexNumber last
    step := hexNumber step
    value := if value.isEmpty then [] else (Text.splitOn '.' value).map hexNumber }

/-- The codes of a range, each with its value. -/
def entries (r : CodeRange) : List (Nat × List Nat) :=
  (List.range (r.last + 1 - r.first)).filterMap fun i =>
    let n := r.first + i
    if r.covers n then some (n, r.valueAt n) else none

end CodeRange

/-! ## Tables -/

/-- Ranges in the order of their codes; no two have a code in common. -/
structure CodeTable where
  /-- The ranges. -/
  ranges : Array CodeRange

namespace CodeTable

/-- The table that words stand for. -/
def ofText (text : String) : CodeTable :=
  let words := (Text.splitWhere Ascii.isSpace text.toList).filter fun word => !word.isEmpty
  ⟨(words.map CodeRange.ofWord).toArray⟩

/-- How many ranges start at a code or before it, given a lower and an upper bound of that. -/
def countUpTo (t : CodeTable) (n low high : Nat) : Nat :=
  if low < high then
    let middle := (low + high) / 2
    if t.ranges[middle]?.any fun r => r.first ≤ n then t.countUpTo n (middle + 1) high
    else t.countUpTo n low middle
  else low
termination_by high - low
decreasing_by all_goals omega

/-- The range of a code. -/
def find? (t : CodeTable) (n : Nat) : Option CodeRange :=
  t.ranges[t.countUpTo n 0 t.ranges.size - 1]?.filter fun r => r.covers n

theorem covers_of_find?_eq_some {t : CodeTable} {n : Nat} {r : CodeRange}
    (h : t.find? n = some r) : r.covers n = true :=
  (Option.filter_eq_some_iff.1 h).2

/-- Whether a table lists a code. -/
def contains (t : CodeTable) (n : Nat) : Bool := (t.find? n).isSome

/-- The value of a code. -/
def values? (t : CodeTable) (n : Nat) : Option (List Nat) :=
  (t.find? n).map fun r => r.valueAt n

/-- The codes of a table, each with its value. -/
def entries (t : CodeTable) : List (Nat × List Nat) :=
  t.ranges.toList.flatMap CodeRange.entries

end CodeTable

end EsModules.Unicode
