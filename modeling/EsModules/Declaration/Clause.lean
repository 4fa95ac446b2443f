import EsModules.Declaration.Import

/-!
# Import clauses

A clause binds a default name, a namespace name and a list of named entries.  Comments and the
amount of space between its words do not matter.

* `Bindings.ofStatic`: the bindings of values.
* `Bindings.ofTypes`: the bindings of types.
-/

namespace EsModules

/-- What an import clause binds. -/
structure Bindings where
  /-- The name bound to the default export. -/
  defaultName : Option (List Char)
  /-- The name bound to the whole module. -/
  namespaceName : Option (List Char)
  /-- The named entries, each with its local name, in the order of the names in the other
  module. -/
  named : List (List Char × List Char)
  deriving DecidableEq, Repr

/-- An entry of a list of named imports. -/
structure ClauseEntry where
  /-- Whether it is marked as a type. -/
  isType : Bool
  /-- The name in the other module. -/
  imported : List Char
  /-- The name in this module. -/
  localName : List Char
  deriving DecidableEq, Repr

namespace ClauseEntry

/-- What follows the word that marks a type. -/
def dropType? (entry : List Char) : Option (List Char) :=
  (Text.dropPrefix? "type".toList entry).bind fun rest =>
    if rest.head?.any Text.isBlank then some (Text.trimStart rest) else none

/-- The entry in a text; one without a name is none. -/
def parse? (text : List Char) : Option ClauseEntry :=
  let text := Text.trim text
  let marked := dropType? text
  let names := marked.getD text
  let (imported, localName) := match Text.splitOnce " as ".toList names with
    | some (front, back) => (Text.trim front, Text.trim back)
    | none => (names, names)
  if imported.isEmpty then none else some ⟨marked.isSome, imported, localName⟩

end ClauseEntry

namespace Bindings

/-- A clause without comments and with one space for each run of them. -/
def tidy (clause : List Char) : List Char :=
  (Pattern.spaces1 : Pattern Part).replaceAll [' ']
    (Shape.clauseComment.replaceAll [] clause)

/-- The entries of the first list in curly brackets. -/
def entries (clause : List Char) : List ClauseEntry :=
  let list := (Shape.bracedList.first? clause).bind (·.part? .entries)
  (Text.splitOn ',' ((list.map (·.text clause)).getD [])).filterMap ClauseEntry.parse?

/-- Named entries, ordered by name, with one more; it takes the place of one of its name. -/
def setName (imported localName : List Char) :
    List (List Char × List Char) → List (List Char × List Char)
  | [] => [(imported, localName)]
  | (s, l) :: rest =>
    if s == imported then (imported, localName) :: rest
    else if Text.le imported s then (imported, localName) :: (s, l) :: rest
    else (s, l) :: setName imported localName rest

/-- Named entries in the order of their names. -/
def collect (entries : List ClauseEntry) : List (List Char × List Char) :=
  entries.foldl (fun named e => setName e.imported e.localName named) []

/-- A text, unless it is empty. -/
def nonEmpty? (cs : List Char) : Option (List Char) := if cs.isEmpty then none else some cs

/-- The name of a namespace binding in a clause without its list. -/
def namespaceIn (clause : List Char) : Option (List Char) :=
  ((Shape.namespaceBinding.first? clause).bind (·.part? .name)).bind fun s =>
    nonEmpty? (s.text clause)

/-- The name of the default binding in a clause without its list. -/
def defaultIn (clause : List Char) : Option (List Char) :=
  ((Text.splitOn ',' clause).find? fun piece =>
    !piece.any fun c => c == '*' || c == '\x7b' || c == '\x7d').bind
    fun piece => nonEmpty? (Text.trim piece)

/-- The bindings of a clause, with those of its entries that are wanted. -/
def parse (wanted : ClauseEntry → Bool) (clause : List Char) : Bindings :=
  let clause := tidy clause
  let outside := Shape.bracedList.replaceFirst [] clause
  { defaultName := defaultIn outside
    namespaceName := namespaceIn outside
    named := collect ((entries clause).filter wanted) }

/-- The values that a declaration binds. -/
def ofStatic (i : StaticImport) : Bindings := parse (fun e => !e.isType) i.clause

/-- The types that a declaration binds: all its names if it asks for types only, and else the
entries marked as types. -/
def ofTypes (i : StaticImport) : Bindings :=
  match i.kind with
  | .typeOnly => ofStatic i
  | .value => parse (·.isType) i.clause

end Bindings

end EsModules
