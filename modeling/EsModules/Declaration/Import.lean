import EsModules.Declaration.Shape
import EsModules.Pattern.Search

/-!
# Import declarations

The places of a source that look like imports.

* `StaticImport`: a declaration with a specifier and, in front of it, perhaps a clause.
* `DynamicImport`: a call of `import`; `DynamicImport.literal?` is its argument when that is a
  single quoted text.

What is found is a candidate: whether it starts with a real keyword is asked elsewhere.
-/

namespace EsModules

/-- The name of another module in a source. -/
structure Specifier where
  /-- The name, without its quotes. -/
  text : List Char
  /-- The place of the name. -/
  span : Span
  deriving DecidableEq, Repr

/-- The specifier that a match has found. -/
def Specifier.ofMatch? (source : List Char) (m : Match Part) : Option Specifier :=
  (m.part? .specifier).map fun s => ⟨s.text source, s⟩

/-! ## Static imports -/

/-- Whether an import declaration asks for values or for types only. -/
inductive ImportKind
  | value | typeOnly
  deriving DecidableEq, Repr

/-- An import declaration. -/
structure StaticImport where
  /-- What it asks for. -/
  kind : ImportKind
  /-- Its text. -/
  code : List Char
  /-- Its place. -/
  span : Span
  /-- What stands between `import` and `from`; nothing if there is no `from`. -/
  clause : List Char
  /-- The module that it imports. -/
  specifier : Specifier
  deriving DecidableEq, Repr

namespace StaticImport

/-- Whether a declaration starts behind a space, a semicolon or a closing brace, or at the front
of the source. -/
def startsStatement (m : Match Part) : Bool :=
  m.front.before.all fun c => Text.isBlank c || c == ';' || c == '\x7d'

/-- The declaration that a match has found. -/
def ofMatch? (kind : ImportKind) (source : List Char) (m : Match Part) : Option StaticImport :=
  (Specifier.ofMatch? source m).map fun specifier =>
    { kind := kind
      code := m.span.text source
      span := m.span
      clause := ((m.part? .clause).map (·.text source)).getD []
      specifier := specifier }

/-- The declarations of one shape. -/
def ofShape (shape : Pattern Part) (kind : ImportKind) (source : List Char) : List StaticImport :=
  (shape.select startsStatement source).filterMap (ofMatch? kind source)

/-- The import declarations of a source. -/
def candidates (source : List Char) : List StaticImport :=
  ofShape Shape.staticImport .value source

/-- Whether an entry of the clause asks for a type. -/
def hasInlineType (i : StaticImport) : Bool := Shape.inlineType.occursIn i.clause

/-- The import declarations of a source that ask for types, in source order: those that ask for
nothing else, and those with a type among their entries. -/
def typeCandidates (source : List Char) : List StaticImport :=
  (ofShape Shape.typeImport .typeOnly source ++ (candidates source).filter hasInlineType).mergeSort
    fun a b => a.span.start ≤ b.span.start

end StaticImport

/-! ## Dynamic imports -/

/-- A call of `import`. -/
structure DynamicImport where
  /-- Its text. -/
  code : List Char
  /-- Its place. -/
  span : Span
  /-- Its argument. -/
  argument : List Char
  /-- The place of its argument. -/
  argumentSpan : Span
  deriving DecidableEq, Repr

namespace DynamicImport

/-- The call that a match has found. -/
def ofMatch? (source : List Char) (m : Match Part) : Option DynamicImport :=
  (m.part? .expression).map fun s =>
    { code := m.span.text source
      span := m.span
      argument := s.text source
      argumentSpan := s }

/-- The calls of `import` in a source. -/
def candidates (source : List Char) : List DynamicImport :=
  (Shape.dynamicImport.matchesIn source).filterMap (ofMatch? source)

/-- The text between two quotes of one kind; a template must not hold a substitution. -/
def unquoted? : List Char → Option (List Char)
  | [] => none
  | quote :: r =>
    if quote == '"' || quote == '\'' || quote == '\x60' then
      match Text.dropSuffix? [quote] r with
      | some inner =>
        if inner.contains quote || (quote == '\x60' && Text.contains ['$', '\x7b'] inner) then none
        else some inner
      | none => none
    else none

/-- The argument when it is a single quoted text. -/
def literal? (d : DynamicImport) : Option Specifier :=
  (unquoted? (Text.trim d.argument)).map fun inner =>
    let lead := Text.byteLength (d.argument.takeWhile Text.isBlank)
    let start := d.argumentSpan.start + lead + 1
    ⟨inner, ⟨start, start + Text.byteLength inner⟩⟩

end DynamicImport

end EsModules
