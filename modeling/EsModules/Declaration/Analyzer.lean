import EsModules.Declaration.Export
import EsModules.Declaration.Validation

/-!
# The analyzer

An analyzer lists the imports and exports of a source.  It drops the candidates that its
validator does not confirm; without a validator it keeps them all.

* `Analyzer.staticImports`, `Analyzer.typeImports`, `Analyzer.dynamicImports`
* `Analyzer.exports`, in source order, and `Analyzer.typeExports`
* `Analyzer.exportNames`
-/

namespace EsModules

/-- A finder of imports and exports. -/
structure Analyzer where
  /-- What confirms the candidates. -/
  validator : Option Validator

namespace Analyzer

/-- The analyzer that asks the lexer. -/
def standard : Analyzer := ⟨some .lexer⟩

/-- The analyzer that keeps every candidate. -/
def unvalidated : Analyzer := ⟨none⟩

/-- The confirmed candidates. -/
def confirmed {α : Type} (a : Analyzer) (source : List Char) (word : Keyword) (place : α → Span)
    (candidates : List α) : Except Fault (List α) :=
  match a.validator with
  | none => .ok candidates
  | some v => Validation.validate v source word place candidates

/-- The import declarations of a source. -/
def staticImports (a : Analyzer) (source : List Char) : Except Fault (List StaticImport) :=
  a.confirmed source .importKw StaticImport.span (StaticImport.candidates source)

/-- The import declarations that ask for types. -/
def typeImports (a : Analyzer) (source : List Char) : Except Fault (List StaticImport) :=
  a.confirmed source .importKw StaticImport.span (StaticImport.typeCandidates source)

/-- The calls of `import`. -/
def dynamicImports (a : Analyzer) (source : List Char) : Except Fault (List DynamicImport) :=
  a.confirmed source .importKw DynamicImport.span (DynamicImport.candidates source)

/-- The exports of values in source order; of neighbours that export the same name in the same
way, the last. -/
def exports (a : Analyzer) (source : List Char) : Except Fault (List ExportRecord) :=
  (a.confirmed source .exportKw ExportRecord.span (ExportRecord.candidates source)).map
    fun records => ExportRecord.collapse (records.mergeSort ExportRecord.before)

/-- The exports of types: declarations, then lists. -/
def typeExports (a : Analyzer) (source : List Char) : Except Fault (List ExportRecord) :=
  (a.confirmed source .exportKw ExportRecord.span (ExportRecord.typeCandidates source)).map
    ExportRecord.collapse

/-- The names that a source exports, in source order. -/
def exportNames (a : Analyzer) (source : List Char) : Except Fault (List (List Char)) :=
  (a.exports source).map fun records => records.flatMap ExportRecord.names

end Analyzer

end EsModules
