import EsModules.Proofs.Package.Evaluation

/-!
# The path that a map leads to

What a map gives for a name comes from a single path in it: the path that is left once branches and
fallbacks have been passed over in their order.

* `Target.inductionOn`: induction on targets, with the items of a list at hand.
* `PackageMap.Context.ArrivesAt`: the path in a target that decides.
* `PackageMap.Context.evaluate_eq_resolved_iff`: a target gives what that path is resolved to.
* `PackageMap.Context.resolveExport_eq_ok_iff`: so does an exports map.
-/

namespace EsModules

/-- Induction on targets: what holds of a branch or a list if it holds of all targets in it holds of
every target. -/
theorem Target.inductionOn {P : Target → Prop} (t : Target) (path : ∀ text, P (.path text))
    (branch : ∀ entries : List (List Char × Target), (∀ e ∈ entries, P e.2) → P (.branch entries))
    (fallback : ∀ items : List Target, (∀ t ∈ items, P t) → P (.fallback items))
    (excluded : P .excluded) : P t := by
  refine @Target.rec P (fun entries => ∀ e ∈ entries, P e.2) (fun items => ∀ t ∈ items, P t)
    (fun e => P e.2) path branch fallback excluded ?_ ?_ ?_ ?_ ?_ t
  · exact fun e he => absurd he List.not_mem_nil
  · exact fun e es he hes d hd => (List.mem_cons.1 hd).elim (fun h => h ▸ he) (hes d)
  · exact fun t ht => absurd ht List.not_mem_nil
  · exact fun t ts ht hts d hd => (List.mem_cons.1 hd).elim (fun h => h ▸ ht) (hts d)
  · exact fun key t ht => ht

namespace PackageMap.Context

variable {ctx : Context} {r : Request} {t : Target} {url : Url}

/-! ## Targets -/

/-- The path in a target that decides: fallbacks in front of it do not decide, and conditions in
front of it do not hold or do not match. -/
inductive ArrivesAt (ctx : Context) (r : Request) : Target → List Char → Prop
  | path (text : List Char) : ArrivesAt ctx r (.path text) text
  | fallback {before : List Target} {t : Target} {text : List Char} (after : List Target)
      (hbefore : ∀ s ∈ before, decides (ctx.evaluate r s) = false)
      (ht : ArrivesAt ctx r t text) : ArrivesAt ctx r (.fallback (before ++ t :: after)) text
  | branch {before after : List (List Char × Target)} {key : List Char} {t : Target}
      {text : List Char}
      (hkeys : (before ++ (key, t) :: after).any (fun e => isListIndex e.1) = false)
      (hbefore : ∀ e ∈ before, ctx.evaluateEntry r e = .ok .unmatched)
      (hkey : ctx.holds key = true) (ht : ArrivesAt ctx r t text) :
      ArrivesAt ctx r (.branch (before ++ (key, t) :: after)) text

theorem evaluateItems_append {before : List Target}
    (h : ∀ s ∈ before, decides (ctx.evaluate r s) = false) (failure : Option Error)
    (ts : List Target) : ∃ failure',
      ctx.evaluateItems r failure (before ++ ts) = ctx.evaluateItems r failure' ts := by
  induction before generalizing failure with
  | nil => exact ⟨failure, rfl⟩
  | cons s before ih =>
    rw [List.cons_append, evaluateItems_cons, h s List.mem_cons_self]
    exact ih (fun d hd => h d (List.mem_cons_of_mem s hd)) _

theorem evaluateEntries_append {before : List (List Char × Target)}
    (h : ∀ e ∈ before, ctx.evaluateEntry r e = .ok .unmatched)
    (entries : List (List Char × Target)) :
    ctx.evaluateEntries r (before ++ entries) = ctx.evaluateEntries r entries := by
  induction before with
  | nil => rfl
  | cons e before ih =>
    rw [List.cons_append, evaluateEntries, h e List.mem_cons_self]
    exact ih fun d hd => h d (List.mem_cons_of_mem e hd)

/-- A target gives the module of the path that it arrives at. -/
theorem ArrivesAt.evaluate {text : List Char} (h : ctx.ArrivesAt r t text)
    (hurl : ctx.resolvePath text r = .ok url) : ctx.evaluate r t = .ok (.resolved url) := by
  induction h with
  | path text => exact congrArg (Except.map Outcome.resolved) hurl
  | @fallback before t text after hbefore _ ih =>
    have hsome : (before ++ t :: after).isEmpty = false := by simp
    obtain ⟨failure, hscan⟩ := evaluateItems_append hbefore none (t :: after)
    rw [Context.evaluate, hsome, if_neg Bool.false_ne_true, hscan, evaluateItems_cons, ih hurl]
    rfl
  | @branch before after key t text hkeys hbefore hkey _ ih =>
    rw [Context.evaluate, hkeys, if_neg Bool.false_ne_true, evaluateEntries_append hbefore,
      evaluateEntries, evaluateEntry, hkey, if_pos rfl, ih hurl]

/-- The first of some fallbacks that decides is the one that gives a module. -/
theorem exists_of_evaluateItems {items : List Target} {failure : Option Error}
    (h : ctx.evaluateItems r failure items = .ok (.resolved url)) :
    ∃ before t after, items = before ++ t :: after ∧
      (∀ s ∈ before, decides (ctx.evaluate r s) = false) ∧
      ctx.evaluate r t = .ok (.resolved url) := by
  induction items generalizing failure with
  | nil => cases failure <;> cases h
  | cons t ts ih =>
    rw [evaluateItems_cons] at h
    cases hdecides : decides (ctx.evaluate r t) with
    | true =>
      rw [hdecides, if_pos rfl] at h
      exact ⟨[], t, ts, rfl, fun s hs => absurd hs List.not_mem_nil, h⟩
    | false =>
      rw [hdecides, if_neg Bool.false_ne_true] at h
      obtain ⟨before, s, after, rfl, hbefore, hs⟩ := ih h
      refine ⟨t :: before, s, after, rfl, ?_, hs⟩
      intro d hd
      rcases List.mem_cons.1 hd with rfl | hd
      · exact hdecides
      · exact hbefore d hd

/-- The first entry of a branch that matches is the one that gives a module. -/
theorem exists_of_evaluateEntries {entries : List (List Char × Target)}
    (h : ctx.evaluateEntries r entries = .ok (.resolved url)) :
    ∃ before key t after, entries = before ++ (key, t) :: after ∧
      (∀ e ∈ before, ctx.evaluateEntry r e = .ok .unmatched) ∧ ctx.holds key = true ∧
      ctx.evaluate r t = .ok (.resolved url) := by
  induction entries with
  | nil => cases h
  | cons e es ih =>
    unfold evaluateEntries at h
    split at h
    · rename_i hunmatched
      obtain ⟨before, key, t, after, rfl, hbefore, hkey, ht⟩ := ih h
      refine ⟨e :: before, key, t, after, rfl, ?_, hkey, ht⟩
      intro d hd
      rcases List.mem_cons.1 hd with rfl | hd
      · exact hunmatched
      · exact hbefore d hd
    · obtain ⟨key, t⟩ := e
      rw [evaluateEntry] at h
      obtain ⟨hkey, ht⟩ | ⟨-, ht⟩ := ite_eq_iff.1 h
      · exact ⟨[], key, t, es, rfl, fun d hd => absurd hd List.not_mem_nil, hkey, ht⟩
      · cases ht

/-- **A target gives a module** exactly when the path that it arrives at does. -/
theorem evaluate_eq_resolved_iff : ctx.evaluate r t = .ok (.resolved url) ↔
    ∃ text, ctx.ArrivesAt r t text ∧ ctx.resolvePath text r = .ok url := by
  constructor
  · intro h
    induction t using Target.inductionOn with
    | path text =>
      obtain ⟨found, hfound, heq⟩ := map_eq_ok.1 h
      cases heq
      exact ⟨text, .path text, hfound⟩
    | branch entries ih =>
      unfold evaluate at h
      obtain ⟨-, h⟩ | ⟨hkeys, h⟩ := ite_eq_iff.1 h
      · cases h
      · obtain ⟨before, key, t, after, rfl, hbefore, hkey, ht⟩ := exists_of_evaluateEntries h
        obtain ⟨text, harrives, hurl⟩ := ih (key, t) (by simp) ht
        exact ⟨text, .branch (Bool.of_not_eq_true hkeys) hbefore hkey harrives, hurl⟩
    | fallback items ih =>
      unfold evaluate at h
      obtain ⟨-, h⟩ | ⟨-, h⟩ := ite_eq_iff.1 h
      · cases h
      · obtain ⟨before, t, after, rfl, hbefore, ht⟩ := exists_of_evaluateItems h
        obtain ⟨text, harrives, hurl⟩ := ih t (by simp) ht
        exact ⟨text, .fallback after hbefore harrives, hurl⟩
    | excluded => cases h
  · rintro ⟨text, harrives, hurl⟩
    exact harrives.evaluate hurl

/-! ## Maps -/

/-- The map that an exports map stands for: shorthand is the target of the single key `.`. -/
def mapOf (exports : Target) (shorthand : Bool) : Target :=
  if shorthand then .branch [(['.'], exports)] else exports

/-- The path in an exports map that decides about a subpath, and the request it is resolved for. -/
def LeadsTo (ctx : Context) (exports : Target) (subpath : List Char) (r : Request)
    (text : List Char) : Prop :=
  ∃ shorthand t, ctx.isShorthand exports = .ok shorthand ∧
    choice? (mapOf exports shorthand) (!subpath.contains '*' && subpath.getLast? != some '/')
      subpath = some (r, t) ∧ ctx.ArrivesAt r t text

/-- **An exports map gives a module** for a subpath exactly when the path that it leads to does. -/
theorem resolveExport_eq_ok_iff {exports : Target} {subpath : List Char} :
    ctx.resolveExport exports subpath = .ok url ↔
      ∃ r text, ctx.LeadsTo exports subpath r text ∧ ctx.resolvePath text r = .ok url := by
  constructor
  · intro h
    obtain ⟨shorthand, hshorthand, h⟩ := bind_eq_ok.1 h
    obtain ⟨found, hlookup, h⟩ := bind_eq_ok.1 h
    cases found with
    | none => cases h
    | some found =>
      obtain rfl : url = found := (Except.ok.inj h).symm
      obtain ⟨r, t, hchoice, ht⟩ := lookup_eq_some_iff.1 hlookup
      obtain ⟨text, harrives, hurl⟩ := evaluate_eq_resolved_iff.1 ht
      exact ⟨r, text, ⟨shorthand, t, hshorthand, hchoice, harrives⟩, hurl⟩
  · rintro ⟨r, text, ⟨shorthand, t, hshorthand, hchoice, harrives⟩, hurl⟩
    refine bind_eq_ok.2 ⟨shorthand, hshorthand, bind_eq_ok.2 ⟨some url, ?_, rfl⟩⟩
    exact lookup_eq_some_iff.2 ⟨r, t, hchoice, harrives.evaluate hurl⟩

/-! ## Published paths -/

/-- The paths under an entry of a branch are paths of the branch. -/
theorem exists_mem_entryLeaves {entries : List (List Char × Target)} {name : List Char}
    {t : Target} (h : (name, t) ∈ entries) (key : List Char) :
    ∃ k, ∀ leaf ∈ t.leaves k, leaf ∈ Target.entryLeaves key entries := by
  induction entries with
  | nil => cases h
  | cons e es ih =>
    unfold Target.entryLeaves
    rcases List.mem_cons.1 h with rfl | hmem
    · exact ⟨_, fun leaf hleaf => List.mem_append_left _ hleaf⟩
    · obtain ⟨k, hk⟩ := ih hmem
      exact ⟨k, fun leaf hleaf => List.mem_append_right _ (hk leaf hleaf)⟩

/-- The paths in an item of a list are paths of the list. -/
theorem mem_itemLeaves {items : List Target} {t : Target} (h : t ∈ items) {key : List Char}
    {leaf : List Char × List Char} (hleaf : leaf ∈ t.leaves key) :
    leaf ∈ Target.itemLeaves key items := by
  induction items with
  | nil => cases h
  | cons s items ih =>
    rcases List.mem_cons.1 h with rfl | hmem
    · exact List.mem_append_left _ hleaf
    · exact List.mem_append_right _ (ih hmem)

/-- A request is for exactly the subpath, or for the text that the star of a key stands for. -/
theorem LeadsTo.request {exports : Target} {subpath text : List Char}
    (h : ctx.LeadsTo exports subpath r text) : '*' ∉ subpath ∧ r = ⟨subpath, [], false⟩ ∨
      r.isPattern = true ∧ matchKey? r.key subpath = some r.text := by
  obtain ⟨shorthand, t, -, hchoice, -⟩ := h
  refine (mem_of_choice? hchoice).2.imp (fun ⟨hwhole, hr⟩ => ⟨?_, hr⟩) id
  intro hstar
  simp [hstar] at hwhole

end PackageMap.Context

end EsModules
