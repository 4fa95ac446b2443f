import EsModules.Declaration.Analyzer
import EsModules.Declaration.Clause
import EsModules.Json
import EsModules.Module.Format

/-!
# Reports

What is found in a source, as JSON and as lines of text.  In JSON the fields come in a fixed
order, and what is absent has no field.
-/

namespace EsModules

/-- A member of an object. -/
abbrev JsonField := List Char × JsonValue

namespace JsonField

/-- A field with any value. -/
def of (key : String) (value : JsonValue) : JsonField := (key.toList, value)

/-- A field with a text. -/
def text (key : String) (value : List Char) : JsonField := of key (.string value)

/-- A field with a whole number. -/
def nat (key : String) (value : Nat) : JsonField := of key (.number (Nat.toDigits 10 value))

/-- A field with a truth value. -/
def bool (key : String) (value : Bool) : JsonField := of key (.bool value)

/-- A field with texts. -/
def texts (key : String) (values : List (List Char)) : JsonField :=
  of key (.list (values.map .string))

/-- A field with a text, if there is one. -/
def text? (key : String) (value : Option (List Char)) : List JsonField :=
  (value.map (text key)).toList

/-- The fields of the text and place of a declaration. -/
def place (code : List Char) (span : Span) : List JsonField :=
  [text "code" code, nat "start" span.start, nat "end" span.stop]

end JsonField

namespace Report

/-! ## Imports -/

/-- The word for what an import asks for. -/
def importWord : ImportKind → String
  | .value => "static"
  | .typeOnly => "type"

/-- A static import with its bindings. -/
def staticImport (i : StaticImport) (b : Bindings) : JsonValue :=
  .object ([JsonField.text "type" (importWord i.kind).toList] ++ JsonField.place i.code i.span
    ++ [JsonField.text "imports" i.clause, JsonField.text "specifier" i.specifier.text]
    ++ JsonField.text? "defaultImport" b.defaultName
    ++ JsonField.text? "namespacedImport" b.namespaceName
    ++ [JsonField.of "namedImports" (.object (b.named.map fun (s, l) => (s, .string l)))])

/-- A dynamic import. -/
def dynamicImport (d : DynamicImport) : JsonValue :=
  .object ([JsonField.text "type" "dynamic".toList] ++ JsonField.place d.code d.span
    ++ [JsonField.text "expression" d.argument])

/-- A named entry with its local name, if that is another one. -/
def entryText (entry : List Char × List Char) : List Char :=
  if entry.1 == entry.2 then entry.1 else entry.1 ++ " as ".toList ++ entry.2

/-- What is bound, behind a specifier. -/
def bindingsText (b : Bindings) : List Char :=
  ((b.defaultName.map (" default=".toList ++ ·)).getD [])
    ++ ((b.namespaceName.map (" namespace=".toList ++ ·)).getD [])
    ++ if b.named.isEmpty then []
      else " named=\x7b".toList ++ Text.joinWith ", ".toList (b.named.map entryText) ++ ['\x7d']

/-! ## Exports -/

/-- The word for a way to export. -/
def exportWord : ExportKind → String
  | .declaration => "declaration"
  | .named => "named"
  | .default => "default"
  | .star => "star"

/-- An export. -/
def exportRecord (r : ExportRecord) : JsonValue :=
  .object ([JsonField.text "type" (exportWord r.kind).toList]
    ++ JsonField.text? "_type" (r.kindByForm.map fun k => (exportWord k).toList)
    ++ JsonField.place r.code r.span ++ JsonField.text? "name" r.name
    ++ [JsonField.texts "names" r.names]
    ++ JsonField.text? "specifier" (r.specifier.map Specifier.text)
    ++ JsonField.text? "declaration" r.declaration
    ++ JsonField.text? "declarationType" r.declarationType
    ++ JsonField.text? "defaultName" r.defaultName)

/-- A text filled up with spaces. -/
def padTo (width : Nat) (cs : List Char) : List Char :=
  cs ++ List.replicate (width - cs.length) ' '

/-- An export as a line. -/
def exportText (r : ExportRecord) : List Char :=
  let what := (r.declarationType.map (· ++ [' '])).getD []
  let names := if r.names.isEmpty then ['*'] else Text.joinWith ", ".toList r.names
  let source := (r.specifier.map fun s => " from ".toList ++ s.text).getD []
  Text.trimEnd (padTo 13 (exportWord r.kind).toList ++ what ++ names ++ source)

/-! ## Formats -/

/-- The fields of a format. -/
def formatFields (f : Format) : List JsonField :=
  [JsonField.bool "hasEsm" f.hasModule, JsonField.bool "hasCjs" f.hasScript,
   JsonField.bool "isMixed" f.isMixed]

/-- The word for a format. -/
def formatWord (f : Format) : String :=
  match f.hasModule, f.hasScript with
  | true, true => "mixed"
  | true, false => "esm"
  | false, true => "cjs"
  | false, false => "none"

end Report

end EsModules
