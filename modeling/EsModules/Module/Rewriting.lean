import EsModules.Declaration.Analyzer
import EsModules.Resolution.Resolver
import EsModules.Text.Edit

/-!
# Rewriting specifiers

Every specifier of a source is replaced by the location of the module it stands for.  The
replacement goes by place, so that a specifier that is a part of another one does no harm.
-/

namespace EsModules.Rewriting

/-- The specifiers of a source, in source order: of import declarations, of calls of `import`
with a quoted argument and of exports from other modules.  Of those that start at one place only
the first counts. -/
def sites (a : Analyzer) (source : List Char) : Except Fault (List Specifier) := do
  let static ← a.staticImports source
  let dynamic ← a.dynamicImports source
  let exported ← a.exports source
  let all := static.map StaticImport.specifier ++ dynamic.filterMap DynamicImport.literal?
    ++ exported.filterMap ExportRecord.specifier
  let sorted := all.mergeSort fun s t => s.span.start ≤ t.span.start
  return sorted.eraseRepsBy fun s t => s.span.start == t.span.start

/-- Each of some texts with what it is resolved to; the first that is not resolved decides. -/
def resolveAll (resolve : List Char → Except Error (List Char)) :
    List (List Char) → Except Error (List (List Char × List Char))
  | [] => .ok []
  | t :: ts => do
    let location ← resolve t
    return (t, location) :: (← resolveAll resolve ts)

/-- The edit for a specifier, given what the texts are resolved to. -/
def edit? (locations : List (List Char × List Char)) (s : Specifier) : Option Edit :=
  (locations.find? fun entry => entry.1 == s.text).map fun entry => ⟨s.span, entry.2⟩

/-- A source with its specifiers replaced by what they are resolved to. -/
def rewrite (resolve : List Char → Except Error (List Char)) (source : List Char) :
    Except Error (List Char) := do
  let sites ← (sites .standard source).mapError Error.fault
  let locations ← resolveAll resolve (Text.sortDistinct (sites.map Specifier.text))
  let edits := sites.filterMap (edit? locations)
  if Edit.areOrdered 0 edits then return Edit.applyAll edits source
  else throw (.fault .overlap)

end EsModules.Rewriting
