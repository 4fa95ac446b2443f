import EsModules.Proofs.Package.Arrival
import EsModules.Proofs.Resolution.Parallel

/-!
# Package maps side by side

A target is evaluated in two contexts with the same conditions.  If resolving each of its paths runs
parallel in them, so does evaluating the target, and then so does looking up a name or a subpath:
what is chosen for it comes from the map alone.

* `Target.texts`: the texts of the paths in a target.
* `PackageMap.Context.parallel_evaluate`: targets, entry by entry and item by item.
* `PackageMap.Context.parallel_resolveExport`, `PackageMap.Context.parallel_resolveImport`: maps.
-/

namespace EsModules

/-! ## Texts of targets -/

namespace Target

/-- The texts of the paths in a target. -/
def texts (t : Target) : List (List Char) := t.publishedPaths.map (·.2)

variable {entries : List (List Char × Target)} {items : List Target}

/-- The key that a target stands under does not change its texts. -/
theorem map_leaves (t : Target) (key : List Char) : (t.leaves key).map (·.2) = t.texts := by
  have hkeys : ∀ key key', (t.leaves key).map (·.2) = (t.leaves key').map (·.2) := by
    induction t using Target.inductionOn with
    | path text => exact fun _ _ => rfl
    | excluded => exact fun _ _ => rfl
    | branch entries ih =>
      intro key key'
      show (entryLeaves key entries).map (·.2) = (entryLeaves key' entries).map (·.2)
      induction entries with
      | nil => rfl
      | cons e es ihes =>
        obtain ⟨k, t⟩ := e
        have hfirst := ih (k, t) List.mem_cons_self (if k.head? == some '.' then k else key)
          (if k.head? == some '.' then k else key')
        have hrest := ihes fun d hd => ih d (List.mem_cons_of_mem _ hd)
        unfold entryLeaves oneEntryLeaves
        rw [List.map_append, List.map_append, hrest, hfirst]
    | fallback items ih =>
      intro key key'
      show (itemLeaves key items).map (·.2) = (itemLeaves key' items).map (·.2)
      induction items with
      | nil => rfl
      | cons t ts ihts =>
        have hrest := ihts fun s hs => ih s (List.mem_cons_of_mem t hs)
        unfold itemLeaves
        rw [List.map_append, List.map_append, hrest, ih t List.mem_cons_self key key']
  exact hkeys key ['.']

theorem texts_subset_branch {e : List Char × Target} (h : e ∈ entries) :
    e.2.texts ⊆ (branch entries).texts := by
  have hmem : (e.1, e.2) ∈ entries := h
  obtain ⟨k, hk⟩ := PackageMap.Context.exists_mem_entryLeaves hmem ['.']
  rw [← map_leaves e.2 k]
  exact List.map_subset _ hk

theorem texts_subset_fallback {t : Target} (h : t ∈ items) : t.texts ⊆ (fallback items).texts :=
  List.map_subset _ fun _ hleaf => PackageMap.Context.mem_itemLeaves h hleaf

/-- The texts under an entry of a map are texts of the map. -/
theorem texts_subset_of_mem {map : Target} {e : List Char × Target}
    (h : e ∈ map.entries?.getD []) : e.2.texts ⊆ map.texts := by
  cases map with
  | branch entries => exact texts_subset_branch h
  | path text => cases h
  | fallback items => cases h
  | excluded => cases h

end Target

/-! ## Outcomes -/

namespace PackageMap

variable {r : Url → Url → Prop}

/-- Outcomes of the same kind, with modules that are related. -/
inductive Outcome.Rel (r : Url → Url → Prop) : Outcome → Outcome → Prop
  | resolved {u v : Url} (h : r u v) : Rel r (.resolved u) (.resolved v)
  | excluded : Rel r .excluded .excluded
  | unmatched : Rel r .unmatched .unmatched

theorem Outcome.Rel.url? {o o' : Outcome} (h : Outcome.Rel r o o') :
    Option.Rel r o.url? o'.url? := by
  cases h with
  | resolved h => exact .some h
  | excluded => exact .none
  | unmatched => exact .none

namespace Context

/-- The code of an error tells whether it ends a list of fallbacks. -/
theorem decides_error (e : Error) :
    decides (.error e) = (e.code != "ERR_INVALID_PACKAGE_TARGET") := by
  cases e <;> rfl

theorem decides_eq {x y : Except Error Outcome} (h : Parallel (Outcome.Rel r) x y) :
    decides x = decides y := by
  cases h with
  | error he => rw [decides_error, decides_error, he]
  | ok hrel => cases hrel <;> rfl

/-- Errors of the same code are kept behind outcomes that run parallel. -/
theorem rel_keep {x y : Except Error Outcome} (h : Parallel (Outcome.Rel r) x y)
    {failure failure' : Option Error}
    (hfailure : Option.Rel (fun e e' => e.code = e'.code) failure failure') :
    Option.Rel (fun e e' => e.code = e'.code) (keep failure x) (keep failure' y) := by
  cases h with
  | error he => exact .some he
  | ok hrel =>
    cases hrel with
    | resolved => exact .none
    | excluded => exact .none
    | unmatched => exact hfailure

/-! ## Targets -/

variable {ctx ctx' : Context} {req : Request}

section

variable (hconditions : ctx.conditions = ctx'.conditions)

include hconditions

/-- The entries of a branch are tried in parallel. -/
theorem parallel_evaluateEntries {entries : List (List Char × Target)}
    (h : ∀ e ∈ entries,
      Parallel (Outcome.Rel r) (ctx.evaluate req e.2) (ctx'.evaluate req e.2)) :
    Parallel (Outcome.Rel r) (ctx.evaluateEntries req entries)
      (ctx'.evaluateEntries req entries) := by
  induction entries with
  | nil => exact .ok .unmatched
  | cons e es ih =>
    obtain ⟨condition, t⟩ := e
    have hrest := ih fun d hd => h d (List.mem_cons_of_mem _ hd)
    have hfirst : Parallel (Outcome.Rel r) (ctx.evaluateEntry req (condition, t))
        (ctx'.evaluateEntry req (condition, t)) := by
      have hholds : ctx.holds condition = ctx'.holds condition := by
        unfold holds
        rw [hconditions]
      unfold evaluateEntry
      rw [hholds]
      split
      · exact h (condition, t) List.mem_cons_self
      · exact .ok .unmatched
    unfold evaluateEntries
    generalize ctx.evaluateEntry req (condition, t) = x at hfirst ⊢
    generalize ctx'.evaluateEntry req (condition, t) = y at hfirst ⊢
    cases hfirst with
    | error he => exact .error he
    | ok hrel =>
      cases hrel with
      | resolved huv => exact .ok (.resolved huv)
      | excluded => exact .ok .excluded
      | unmatched => exact hrest

omit hconditions in
/-- The items of a list are tried in parallel, and errors of the same code are kept. -/
theorem parallel_evaluateItems {items : List Target} {failure failure' : Option Error}
    (hfailure : Option.Rel (fun e e' => e.code = e'.code) failure failure')
    (h : ∀ t ∈ items, Parallel (Outcome.Rel r) (ctx.evaluate req t) (ctx'.evaluate req t)) :
    Parallel (Outcome.Rel r) (ctx.evaluateItems req failure items)
      (ctx'.evaluateItems req failure' items) := by
  induction items generalizing failure failure' with
  | nil =>
    cases hfailure with
    | none => exact .ok .unmatched
    | some he => exact .error he
  | cons t ts ih =>
    have hfirst := h t List.mem_cons_self
    rw [evaluateItems_cons, evaluateItems_cons, decides_eq hfirst]
    split
    · exact hfirst
    · exact ih (rel_keep hfirst hfailure) fun s hs => h s (List.mem_cons_of_mem t hs)

/-- **Evaluating a target** runs parallel if resolving each of its paths does. -/
theorem parallel_evaluate {t : Target}
    (h : ∀ text ∈ t.texts, Parallel r (ctx.resolvePath text req) (ctx'.resolvePath text req)) :
    Parallel (Outcome.Rel r) (ctx.evaluate req t) (ctx'.evaluate req t) := by
  induction t using Target.inductionOn with
  | path text => exact (h text List.mem_cons_self).map fun _ _ => .resolved
  | excluded => exact .ok .excluded
  | branch entries ih =>
    have hentries := parallel_evaluateEntries hconditions fun e he =>
      ih e he fun text htext => h text (Target.texts_subset_branch he htext)
    unfold evaluate
    split
    · exact .error rfl
    · exact hentries
  | fallback items ih =>
    have hitems := parallel_evaluateItems Option.Rel.none fun t ht =>
      ih t ht fun text htext => h text (Target.texts_subset_fallback ht htext)
    unfold evaluate
    split
    · exact .ok .excluded
    · exact hitems

/-! ## Maps -/

/-- **Looking up a name** runs parallel if resolving the paths of what is chosen for it does. -/
theorem parallel_lookup {map : Target} {whole : Bool} {name : List Char}
    (h : ∀ req t, choice? map whole name = some (req, t) → ∀ text ∈ t.texts,
      Parallel r (ctx.resolvePath text req) (ctx'.resolvePath text req)) :
    Parallel (Option.Rel r) (ctx.lookup map whole name) (ctx'.lookup map whole name) := by
  rw [lookup_eq, lookup_eq]
  cases hchoice : choice? map whole name with
  | none => exact .ok .none
  | some chosen =>
    obtain ⟨req, t⟩ := chosen
    exact (parallel_evaluate hconditions (h req t hchoice)).map fun _ _ => Outcome.Rel.url?

omit hconditions in
/-- Whether a map is shorthand does not depend on the context. -/
theorem parallel_isShorthand (exports : Target) :
    Parallel Eq (ctx.isShorthand exports) (ctx'.isShorthand exports) := by
  unfold isShorthand
  split
  · exact .ok rfl
  · exact .ok rfl
  · exact .ok rfl
  · exact .ok rfl
  · split
    · exact .error rfl
    · exact .ok rfl

/-- **Resolving a subpath through an exports map** runs parallel if resolving its paths does, for
the subpath itself and for what a star stands for in it. -/
theorem parallel_resolveExport {exports : Target} {subpath : List Char}
    (h : ∀ req, req = ⟨subpath, [], false⟩ ∨
        req.isPattern = true ∧ matchKey? req.key subpath = some req.text → ∀ text ∈ exports.texts,
      Parallel r (ctx.resolvePath text req) (ctx'.resolvePath text req)) :
    Parallel r (ctx.resolveExport exports subpath) (ctx'.resolveExport exports subpath) := by
  refine (parallel_isShorthand exports).bind fun shorthand _ heq => ?_
  subst heq
  have hmap : (mapOf exports shorthand).texts = exports.texts := by
    cases shorthand with
    | false => rfl
    | true => exact congrArg (List.map (·.2)) (List.append_nil exports.publishedPaths)
  have hlookup : Parallel (Option.Rel r)
      (ctx.lookup (mapOf exports shorthand)
        (!subpath.contains '*' && subpath.getLast? != some '/') subpath)
      (ctx'.lookup (mapOf exports shorthand)
        (!subpath.contains '*' && subpath.getLast? != some '/') subpath) := by
    refine parallel_lookup hconditions fun req t hchoice text htext => ?_
    obtain ⟨hmem, hreq⟩ := mem_of_choice? hchoice
    exact h req (hreq.imp And.right id) text (hmap ▸ Target.texts_subset_of_mem hmem htext)
  refine hlookup.bind fun found found' hfound => ?_
  cases hfound with
  | none => exact .error rfl
  | some huv => exact .ok huv

/-- **Resolving an internal name through an imports map** runs parallel if resolving its paths
does, for the name itself and for what the star of a key stands for in it. -/
theorem parallel_resolveImport {imports : Target} {name : List Char}
    (h : ∀ req, req = ⟨name, [], false⟩ ∨ req.isPattern = true ∧
        (∃ t, (req.key, t) ∈ imports.entries?.getD []) ∧ matchKey? req.key name = some req.text →
      ∀ text ∈ imports.texts,
        Parallel r (ctx.resolvePath text req) (ctx'.resolvePath text req)) :
    Parallel (Option.Rel r) (ctx.resolveImport imports name) (ctx'.resolveImport imports name) := by
  refine parallel_lookup hconditions fun req t hchoice text htext => ?_
  obtain ⟨hmem, hreq⟩ := mem_of_choice? hchoice
  exact h req (hreq.imp And.right fun hmatch => ⟨hmatch.1, ⟨t, hmem⟩, hmatch.2⟩) text
    (Target.texts_subset_of_mem hmem htext)

end

end Context

end PackageMap

end EsModules
