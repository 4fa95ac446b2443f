import EsModules.Declaration.Import

/-!
# Export declarations

The places of a source that look like exports, as records of what they export.

* `ExportRecord.candidates`: the exports of values.
* `ExportRecord.typeCandidates`: the exports of types only.
* `ExportRecord.normalize`: fills in what follows from the rest of a record.
* `ExportRecord.collapse`: of neighbours that export the same name in the same way, the last.
-/

namespace EsModules

/-- The ways to export. -/
inductive ExportKind
  /-- A declaration with its names. -/
  | declaration
  /-- A list of names. -/
  | named
  /-- The default export. -/
  | default
  /-- All that another module exports. -/
  | star
  deriving DecidableEq, Repr

/-- An export declaration. -/
structure ExportRecord where
  /-- How it exports. -/
  kind : ExportKind
  /-- How it would export if its name were not that of the default export. -/
  kindByForm : Option ExportKind
  /-- Its text. -/
  code : List Char
  /-- Its place. -/
  span : Span
  /-- The only name that it exports. -/
  name : Option (List Char)
  /-- All the names that it exports. -/
  names : List (List Char)
  /-- The module that it passes on from. -/
  specifier : Option Specifier
  /-- The words that say what is declared. -/
  declaration : Option (List Char)
  /-- What is declared. -/
  declarationType : Option (List Char)
  /-- The value of a default export. -/
  defaultName : Option (List Char)
  deriving DecidableEq, Repr

namespace ExportRecord

/-! ## Names in lists -/

/-- Whether an entry of a list is marked as a type. -/
def isTypeEntry (entry : List Char) : Bool :=
  (Text.dropPrefix? "type".toList entry).any fun rest => rest.head?.any Text.isBlank

/-- The exported name behind the first word `as` that stands between blanks. -/
def alias? : List Char → Option (List Char)
  | [] => none
  | c :: r =>
    let found := if Text.isBlank c then
        (Text.dropPrefix? "as".toList (Text.trimStart r)).bind fun rest =>
          if rest.head?.any Text.isBlank then some (Text.trim rest) else none
      else none
    found.orElse fun _ => alias? r

/-- The name under which an entry of a list is exported. -/
def exportedName (entry : List Char) : List Char := (alias? entry).getD entry

/-- The name that an entry binds when a value is taken apart: what stands behind the colon and in
front of the default value. -/
def boundName (entry : List Char) : List Char :=
  let binding := ((Text.splitOnce [':'] entry).map (·.2)).getD entry
  Text.trim (((Text.splitOnce ['='] binding).map (·.1)).getD binding)

/-- The names of a list, without the entries marked as types. -/
def listNames (name : List Char → List Char) (list : List Char) : List (List Char) :=
  ((((Text.splitOn ',' list).map Text.trim).filter fun e => !isTypeEntry e).map name).filter
    fun n => !n.isEmpty

/-! ## Records -/

/-- The record that a match has found. -/
def ofMatch (kind : ExportKind) (source : List Char) (m : Match Part) : ExportRecord where
  kind := kind
  kindByForm := none
  code := m.span.text source
  span := m.span
  name := (m.part? .name).map (·.text source)
  names := []
  specifier := Specifier.ofMatch? source m
  declaration := (m.part? .declaration).map (·.text source)
  declarationType := none
  defaultName := none

/-- A record with its name, names and kind made to agree: a single name is the only one, the name
of the default export makes a default export, and a declaration says what it declares. -/
def normalize (r : ExportRecord) : ExportRecord :=
  let name := match r.name, r.names with
    | none, [single] => some single
    | name, _ => name
  let isDefault := name == some "default".toList && r.kind != .default
  let kind := if isDefault then .default else r.kind
  { r with
    kind := kind
    kindByForm := if isDefault then some r.kind else r.kindByForm
    name := name
    names := if r.names.isEmpty then name.toList else r.names
    declarationType :=
      if kind == .declaration then
        r.declaration.map fun words =>
          ((Text.dropPrefix? "declare".toList words).map Text.trimStart).getD words
      else r.declarationType }

/-- Whether words declare variables. -/
def declaresVariables (words : List Char) : Bool :=
  ["let", "const", "var"].any fun w => w.toList == words

/-- The names of the declarators in a text. -/
def declaratorNames (text : List Char) : List (List Char) :=
  (Shape.declaratorStep.matchesIn text).filterMap fun m => (m.part? .name).map (·.text text)

/-- An exported declaration of values. -/
def ofDeclaration (source : List Char) (m : Match Part) : ExportRecord :=
  let r := ofMatch .declaration source m
  match r.name, m.part? .extra with
  | some name, some extra =>
    if r.declaration.any declaresVariables then
      { r with names := name :: declaratorNames (extra.text source) }
    else r
  | _, _ => r

/-- An export of the names in a list. -/
def ofList (name : List Char → List Char) (source : List Char) (m : Match Part) : ExportRecord :=
  { ofMatch .named source m with
    names := listNames name (((m.part? .entries).map (·.text source)).getD []) }

/-- The text of a default value: without blanks around it and semicolons behind it. -/
def defaultText? (text : List Char) : Option (List Char) :=
  let bare := Text.trimEnd ((Text.trim text).reverse.dropWhile (· == ';')).reverse
  if bare.isEmpty then none else some bare

/-- A default export. -/
def ofDefault (source : List Char) (m : Match Part) : ExportRecord :=
  { ofMatch .default source m with
    name := some "default".toList
    defaultName := (m.part? .value).bind fun s => defaultText? (s.text source) }

/-! ## Candidates -/

/-- The exports of values in a source, kind after kind. -/
def candidates (source : List Char) : List ExportRecord :=
  ((Shape.exportDeclaration.matchesIn source).map (ofDeclaration source)
    ++ (Shape.exportNamed.matchesIn source).map (ofList exportedName source)
    ++ (Shape.exportDestructured.matchesIn source).map (ofList boundName source)
    ++ (Shape.exportDefault.matchesIn source).map (ofDefault source)
    ++ (Shape.exportDefaultClass.matchesIn source).map (ofMatch .declaration source)
    ++ (Shape.exportStar.matchesIn source).map (ofMatch .star source)).map normalize

/-- The exports of types in a source: declarations, then lists. -/
def typeCandidates (source : List Char) : List ExportRecord :=
  ((Shape.exportTypeDeclaration.matchesIn source).map (ofMatch .declaration source)
    ++ (Shape.exportNamedTypes.matchesIn source).map (ofList exportedName source)).map normalize

/-! ## Order and duplicates -/

/-- Whether a record stands in front of another, or in its place. -/
def before (a b : ExportRecord) : Bool :=
  a.span.start < b.span.start || (a.span.start == b.span.start && a.span.stop ≤ b.span.stop)

/-- Whether two records export the same name in the same way. -/
def sameName (a b : ExportRecord) : Bool := a.kind == b.kind && a.name.isSome && a.name == b.name

/-- Records without those whose successor exports the same name in the same way. -/
def collapse : List ExportRecord → List ExportRecord
  | [] => []
  | [r] => [r]
  | r :: next :: rest =>
    if r.sameName next then collapse (next :: rest) else r :: collapse (next :: rest)

end ExportRecord

end EsModules
