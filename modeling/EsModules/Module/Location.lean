import EsModules.Text.Basic

/-!
# Locations as text

Locations are compared and shown as texts with slashes between their segments.
-/

namespace EsModules.Location

/-- A location with slashes in the place of backslashes. -/
def normalize (cs : List Char) : List Char := cs.map fun c => if c == '\\' then '/' else c

/-- The last segment. -/
def lastSegment (cs : List Char) : List Char := (cs.reverse.takeWhile (· != '/')).reverse

/-- The extension of the last segment, its dot included; a dot in front of a segment starts
none. -/
def extension (cs : List Char) : List Char :=
  let name := lastSegment cs
  match Text.splitLast ['.'] name with
  | none => []
  | some ([], _) => []
  | some (_, after) => '.' :: after

/-- A location without its extension. -/
def withoutExtension (cs : List Char) : List Char := cs.take (cs.length - (extension cs).length)

end EsModules.Location
