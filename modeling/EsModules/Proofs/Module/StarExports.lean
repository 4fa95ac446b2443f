import EsModules.Module.ExportNames
import EsModules.Proofs.Declaration.Retention
import EsModules.Proofs.Resolution.Answers
import EsModules.Proofs.Text.Order
import Mathlib.Control.Monad.Basic
import Mathlib.Data.List.Nodup
import Mathlib.Data.List.Perm.Subperm
import Mathlib.Logic.Relation

/-!
# Names along star exports

The names of a module are those of all modules that star exports lead to, itself among them, also
when they lead back.  A walk reads each of these modules once; it fails exactly when one of them
cannot be read, has a fault or asks for a module that is not found.

* `StarWalk.Edge`, `StarWalk.Reaches`: which modules star exports lead to.
* `StarWalk.Walks`: walks without a bound on their steps; the bound on a walk through a file tree
  is never met (`walks_of_walk`).
* `StarWalk.Walks.nodup`, `StarWalk.Walks.reachable`, `StarWalk.Walks.breaks`,
  `StarWalk.Walks.complete`: what is read, why a walk fails, and what one that does not fail has
  found.
* `moduleExportNames_closure`: the names of a module, and `moduleExportNames_openEscape`, a module
  that asks for no other one and still has none.
-/

namespace EsModules

namespace StarWalk

/-! ## The graph of star exports -/

variable (w : StarWalk)

/-- The module at a URL can be read, and its exports are the given records. -/
def Exports (u : List Char) (records : List ExportRecord) : Prop :=
  ∃ source, Id.load w.tree u = .ok source ∧ w.analyzer.exports source = .ok records

/-- The module at a URL passes on all names of the module that a specifier stands for. -/
def Stars (u specifier : List Char) : Prop :=
  ∃ records, w.Exports u records ∧ ∃ r ∈ records, ModuleExports.star? r = some specifier

/-- What a specifier in the module at a URL stands for. -/
def resolveIn (u specifier : List Char) : Except Error (List Char) :=
  w.resolver.resolve w.tree (w.options.withAnchors [u]) specifier

/-- A star export leads from one module to another. -/
def Edge (u v : List Char) : Prop :=
  ∃ s, w.Stars u s ∧ w.resolveIn u s = .ok v ∧ namesFile v = true

/-- Star exports lead from the module that a specifier stands for to another one. -/
def Reaches (specifier v : List Char) : Prop :=
  ∃ u, w.resolver.resolve w.tree w.options specifier = .ok u ∧ namesFile u = true ∧
    Relation.ReflTransGen w.Edge u v

variable {w : StarWalk}

/-! ## Requests -/

theorem target_eq_some {q : ModuleRequest} {u : List Char} :
    w.target q = .ok (some u) ↔
      w.resolver.resolve w.tree (w.options.withAnchors q.anchors) q.specifier = .ok u ∧
        namesFile u = true := by
  unfold target
  rw [map_eq_ok]
  constructor
  · rintro ⟨url, hurl, hif⟩
    obtain ⟨hfile, heq⟩ := Option.ite_none_right_eq_some.1 hif
    obtain rfl := Option.some.inj heq
    exact ⟨hurl, hfile⟩
  · rintro ⟨hurl, hfile⟩
    exact ⟨u, hurl, if_pos hfile⟩

theorem target_eq_error {q : ModuleRequest} {e : Error} :
    w.target q = .error e ↔
      w.resolver.resolve w.tree (w.options.withAnchors q.anchors) q.specifier = .error e :=
  map_eq_error

theorem exportsAt_eq_ok {u : List Char} {found : ModuleExports} :
    w.exportsAt u = .ok found ↔ ∃ records, w.Exports u records ∧ found = .ofRecords records := by
  constructor
  · intro h
    obtain ⟨source, hsource, h⟩ := bind_eq_ok.1 h
    obtain ⟨records, hrecords, h⟩ := bind_eq_ok.1 h
    exact ⟨records, ⟨source, hsource, mapError_eq_ok.1 hrecords⟩, (Except.ok.inj h).symm⟩
  · rintro ⟨records, ⟨source, hsource, hrecords⟩, rfl⟩
    exact bind_eq_ok.2 ⟨source, hsource, bind_eq_ok.2 ⟨records, mapError_eq_ok.2 hrecords, rfl⟩⟩

theorem exportsAt_eq_error {u : List Char} {e : Error} :
    w.exportsAt u = .error e ↔ Id.load w.tree u = .error e ∨
      ∃ source f, Id.load w.tree u = .ok source ∧ w.analyzer.Faults source f ∧
        e = .fault f := by
  constructor
  · intro h
    rcases bind_eq_error.1 h with h | ⟨source, hsource, h⟩
    · exact .inl h
    · rcases bind_eq_error.1 h with h | ⟨records, -, h⟩
      · obtain ⟨f, hf, rfl⟩ := mapError_eq_error.1 h
        exact .inr ⟨source, f, hsource, Analyzer.exports_eq_error.1 hf, rfl⟩
      · cases h
  · rintro (h | ⟨source, f, hsource, hf, rfl⟩)
    · exact bind_eq_error.2 (.inl h)
    · exact bind_eq_error.2 (.inr ⟨source, hsource,
        bind_eq_error.2 (.inl (mapError_eq_error.2 ⟨f, Analyzer.exports_eq_error.2 hf, rfl⟩))⟩)

/-- A module has one list of records. -/
theorem Exports.unique {u : List Char} {records records' : List ExportRecord}
    (h : w.Exports u records) (h' : w.Exports u records') : records = records' := by
  obtain ⟨source, hsource, hrecords⟩ := h
  obtain ⟨source', hsource', hrecords'⟩ := h'
  obtain rfl := Except.ok.inj (hsource.symm.trans hsource')
  exact Except.ok.inj (hrecords.symm.trans hrecords')

/-- The stars of a module that is read are the requests that it makes. -/
theorem mem_stars_iff {u s : List Char} {found : ModuleExports} (h : w.exportsAt u = .ok found) :
    s ∈ found.stars ↔ w.Stars u s := by
  obtain ⟨records, hrecords, rfl⟩ := exportsAt_eq_ok.1 h
  constructor
  · intro hs
    obtain ⟨r, hr, hs⟩ := List.mem_filterMap.1 hs
    exact ⟨records, hrecords, r, hr, hs⟩
  · rintro ⟨records', hrecords', r, hr, hs⟩
    obtain rfl := hrecords.unique hrecords'
    exact List.mem_filterMap.2 ⟨r, hr, hs⟩

/-- A request is settled when it leads to no file or to a known one. -/
def Settled (w : StarWalk) (known : List (List Char)) (q : ModuleRequest) : Prop :=
  ∃ u?, w.target q = .ok u? ∧ ∀ u, u? = some u → u ∈ known

theorem Settled.mono {known known' : List (List Char)} {q : ModuleRequest}
    (h : Settled w known q) (hsub : ∀ u ∈ known, u ∈ known') : Settled w known' q := by
  obtain ⟨u?, htarget, hknown⟩ := h
  exact ⟨u?, htarget, fun u hu => hsub u (hknown u hu)⟩

/-! ## Walks -/

/-- A walk that follows requests, given the modules seen before: what it reads, and its result. -/
inductive Walks (w : StarWalk) : List (List Char) → List ModuleRequest → List (List Char) →
    Except Error (List (List Char)) → Prop
  | done {seen} : Walks w seen [] [] (.ok [])
  | refused {seen q rest e} : w.target q = .error e → Walks w seen (q :: rest) [] (.error e)
  | settled {seen q rest reads result} : Settled w seen q → Walks w seen rest reads result →
      Walks w seen (q :: rest) reads result
  | failed {seen q rest url e} : w.target q = .ok (some url) → url ∉ seen →
      w.exportsAt url = .error e → Walks w seen (q :: rest) [url] (.error e)
  | read {seen q rest url found reads result} : w.target q = .ok (some url) → url ∉ seen →
      w.exportsAt url = .ok found →
      Walks w (url :: seen) (found.stars.map (fun s => ⟨s, [url]⟩) ++ rest) reads result →
      Walks w seen (q :: rest) (url :: reads) (result.map (found.names ++ ·))

variable {seen reads : List (List Char)} {requests : List ModuleRequest}
  {result : Except Error (List (List Char))}

/-- A walk passes over a settled request. -/
theorem walk_of_settled {steps : Nat} {q : ModuleRequest} (h : Settled w seen q) :
    w.walk (steps + 1) seen (q :: requests) = w.walk (steps + 1) seen requests := by
  have hnext : w.next? seen (q :: requests) = w.next? seen requests := by
    obtain ⟨u?, htarget, hknown⟩ := h
    rw [next?, htarget]
    cases u? with
    | none => rfl
    | some u => exact if_pos (List.contains_iff_mem.2 (hknown u rfl))
  rw [walk, hnext, walk]

theorem walk_of_refused {steps : Nat} {q : ModuleRequest} {e : Error}
    (h : w.target q = .error e) : w.walk (steps + 1) seen (q :: requests) = ([], .error e) := by
  have hnext : w.next? seen (q :: requests) = .error e := by rw [next?, h]
  rw [walk, hnext]

/-- A walk reads the module that the first request leads to if it is not seen yet. -/
theorem next?_of_fresh {q : ModuleRequest} {url : List Char} (h : w.target q = .ok (some url))
    (hfresh : url ∉ seen) : w.next? seen (q :: requests) = .ok (some (url, requests)) := by
  rw [next?, h]
  exact if_neg fun hseen => hfresh (List.contains_iff_mem.1 hseen)

/-- While there are more steps than file URLs not seen yet, a walk is not cut off. -/
theorem walks_of_walk (urls : List (List Char))
    (hurls : ∀ q url, w.target q = .ok (some url) → url ∈ urls) {steps : Nat}
    (hsteps : urls.length < steps + seen.length) (hnodup : seen.Nodup)
    (hsub : ∀ u ∈ seen, u ∈ urls) :
    Walks w seen requests (w.walk steps seen requests).1 (w.walk steps seen requests).2 := by
  induction steps generalizing seen requests with
  | zero =>
    have hle := (List.subperm_of_subset hnodup hsub).length_le
    omega
  | succ steps ih =>
    induction requests with
    | nil => exact .done
    | cons q rest ihrest =>
      cases htarget : w.target q with
      | error e =>
        rw [walk_of_refused htarget]
        exact .refused htarget
      | ok u? =>
        by_cases hsettled : Settled w seen q
        · rw [walk_of_settled hsettled]
          exact .settled hsettled ihrest
        -- a request that is not settled leads to a module not seen yet
        obtain ⟨url, rfl, hfresh⟩ : ∃ url, u? = some url ∧ url ∉ seen := by
          by_contra hnone
          refine hsettled ⟨u?, htarget, fun u hu => ?_⟩
          by_contra hfresh
          exact hnone ⟨u, hu, hfresh⟩
        rw [walk, next?_of_fresh htarget hfresh]
        dsimp only
        cases hexports : w.exportsAt url with
        | error e => exact .failed htarget hfresh hexports
        | ok found =>
          refine .read htarget hfresh hexports (ih ?_ (hnodup.cons hfresh) ?_)
          · rw [List.length_cons]
            omega
          · intro u hu
            rcases List.mem_cons.1 hu with rfl | hu
            · exact hurls q u htarget
            · exact hsub u hu

/-! ## What a walk reads -/

/-- A walk reads no module twice, and none that was seen before. -/
theorem Walks.nodup (h : Walks w seen requests reads result) :
    reads.Nodup ∧ ∀ u ∈ reads, u ∉ seen := by
  induction h with
  | done | refused => exact ⟨.nil, fun u hu => by cases hu⟩
  | settled _ _ ih => exact ih
  | failed _ hfresh _ =>
    exact ⟨List.nodup_singleton _, fun u hu => List.mem_singleton.1 hu ▸ hfresh⟩
  | read _ hfresh _ _ ih =>
    obtain ⟨hnodup, hnew⟩ := ih
    refine ⟨hnodup.cons fun hu => hnew _ hu List.mem_cons_self, fun u hu => ?_⟩
    rcases List.mem_cons.1 hu with rfl | hu
    · exact hfresh
    · exact fun hseen => hnew u hu (List.mem_cons_of_mem _ hseen)

/-- A list of requests leads to a module if star exports do from what one of them leads to. -/
def Leads (w : StarWalk) (requests : List ModuleRequest) (u : List Char) : Prop :=
  ∃ q ∈ requests, ∃ v, w.target q = .ok (some v) ∧ Relation.ReflTransGen w.Edge v u

theorem Leads.of_mem {q : ModuleRequest} {url : List Char} (hq : q ∈ requests)
    (h : w.target q = .ok (some url)) : Leads w requests url :=
  ⟨q, hq, url, h, .refl⟩

theorem Leads.mono {requests' : List ModuleRequest} {u : List Char} (h : Leads w requests u)
    (hsub : ∀ q ∈ requests, q ∈ requests') : Leads w requests' u := by
  obtain ⟨q, hq, v, hv, hpath⟩ := h
  exact ⟨q, hsub q hq, v, hv, hpath⟩

theorem Leads.cons {q : ModuleRequest} {u : List Char} (h : Leads w requests u) :
    Leads w (q :: requests) u :=
  h.mono fun _ => List.mem_cons_of_mem q

/-- What a module that is read asks for is what the request for it leads to, or what the requests
behind that do. -/
theorem Leads.of_stars {q : ModuleRequest} {url u : List Char} {found : ModuleExports}
    (hq : w.target q = .ok (some url)) (hexports : w.exportsAt url = .ok found)
    (h : Leads w (found.stars.map (fun s => ⟨s, [url]⟩) ++ requests) u) :
    Leads w (q :: requests) u := by
  obtain ⟨q', hq', v, hv, hpath⟩ := h
  rcases List.mem_append.1 hq' with hstar | hrest
  · obtain ⟨s, hs, rfl⟩ := List.mem_map.1 hstar
    obtain ⟨hresolve, hfile⟩ := target_eq_some.1 hv
    have hedge : w.Edge url v := ⟨s, (mem_stars_iff hexports).1 hs, hresolve, hfile⟩
    exact ⟨q, List.mem_cons_self, url, hq, .head hedge hpath⟩
  · exact ⟨q', List.mem_cons_of_mem q hrest, v, hv, hpath⟩

/-- A walk reads only modules that its requests lead to. -/
theorem Walks.reachable (h : Walks w seen requests reads result) :
    ∀ u ∈ reads, Leads w requests u := by
  induction h with
  | done | refused => intro u hu; cases hu
  | settled _ _ ih => exact fun u hu => (ih u hu).cons
  | failed htarget _ _ =>
    intro u hu
    obtain rfl := List.mem_singleton.1 hu
    exact .of_mem List.mem_cons_self htarget
  | read htarget _ hexports _ ih =>
    intro u hu
    rcases List.mem_cons.1 hu with rfl | hu
    · exact .of_mem List.mem_cons_self htarget
    · exact (ih u hu).of_stars htarget hexports

/-- Why requests are not followed to their end: one of them fails, or a module that they lead to
cannot be read, or a request of such a module fails. -/
def Breaks (w : StarWalk) (requests : List ModuleRequest) (e : Error) : Prop :=
  (∃ q ∈ requests, w.target q = .error e) ∨
    ∃ u, Leads w requests u ∧ (w.exportsAt u = .error e ∨
      ∃ s, w.Stars u s ∧ w.resolveIn u s = .error e)

theorem Breaks.mono {requests' : List ModuleRequest} {e : Error} (h : Breaks w requests e)
    (hsub : ∀ q ∈ requests, q ∈ requests') : Breaks w requests' e := by
  rcases h with ⟨q, hq, htarget⟩ | ⟨u, hleads, hcause⟩
  · exact .inl ⟨q, hsub q hq, htarget⟩
  · exact .inr ⟨u, hleads.mono hsub, hcause⟩

/-- What a module that is read asks for breaks the request for it, or the requests behind that
do. -/
theorem Breaks.of_stars {q : ModuleRequest} {url : List Char} {found : ModuleExports} {e : Error}
    (hq : w.target q = .ok (some url)) (hexports : w.exportsAt url = .ok found)
    (h : Breaks w (found.stars.map (fun s => ⟨s, [url]⟩) ++ requests) e) :
    Breaks w (q :: requests) e := by
  rcases h with ⟨q', hq', htarget⟩ | ⟨u, hleads, hcause⟩
  · rcases List.mem_append.1 hq' with hstar | hrest
    · obtain ⟨s, hs, rfl⟩ := List.mem_map.1 hstar
      exact .inr ⟨url, .of_mem List.mem_cons_self hq,
        .inr ⟨s, (mem_stars_iff hexports).1 hs, target_eq_error.1 htarget⟩⟩
    · exact .inl ⟨q', List.mem_cons_of_mem _ hrest, htarget⟩
  · exact .inr ⟨u, hleads.of_stars hq hexports, hcause⟩

/-- A walk fails since its requests are not followed to their end. -/
theorem Walks.breaks {e : Error} (h : Walks w seen requests reads (.error e)) :
    Breaks w requests e := by
  generalize hresult : Except.error e = result at h
  induction h with
  | done => cases hresult
  | refused htarget =>
    obtain rfl := Except.error.inj hresult
    exact .inl ⟨_, List.mem_cons_self, htarget⟩
  | settled _ _ ih => exact (ih hresult).mono fun _ => List.mem_cons_of_mem _
  | failed htarget _ hexports =>
    obtain rfl := Except.error.inj hresult
    exact .inr ⟨_, .of_mem List.mem_cons_self htarget, .inl hexports⟩
  | read htarget _ hexports _ ih =>
    exact (ih (map_eq_error.1 hresult.symm).symm).of_stars htarget hexports

/-- What holds when a walk gives names: it leaves no request open, neither one that was there nor
one of a module that it read, and the names are those of these modules. -/
structure Complete (w : StarWalk) (seen : List (List Char)) (requests : List ModuleRequest)
    (reads names : List (List Char)) : Prop where
  requests : ∀ q ∈ requests, Settled w (seen ++ reads) q
  modules : ∀ u ∈ reads, ∃ found, w.exportsAt u = .ok found ∧
    ∀ s ∈ found.stars, Settled w (seen ++ reads) ⟨s, [u]⟩
  names : ∀ n, n ∈ names ↔ ∃ u ∈ reads, ∃ found, w.exportsAt u = .ok found ∧ n ∈ found.names

/-- A walk that gives names is complete. -/
theorem Walks.complete {names : List (List Char)} (h : Walks w seen requests reads (.ok names)) :
    Complete w seen requests reads names := by
  generalize hresult : Except.ok names = result at h
  induction h generalizing names with
  | done =>
    obtain rfl := Except.ok.inj hresult
    exact ⟨fun q hq => (List.not_mem_nil hq).elim, fun u hu => (List.not_mem_nil hu).elim,
      by simp⟩
  | refused | failed => cases hresult
  | settled hsettled _ ih =>
    obtain ⟨hrequests, hmodules, hnames⟩ := ih hresult
    refine ⟨fun q hq => ?_, hmodules, hnames⟩
    rcases List.mem_cons.1 hq with rfl | hq
    · exact hsettled.mono fun u hu => List.mem_append_left _ hu
    · exact hrequests q hq
  | @read seen _ rest url found reads _ htarget _ hexports _ ih =>
    obtain ⟨more, hmore, rfl⟩ := map_eq_ok.1 hresult.symm
    obtain ⟨hrequests, hmodules, hnames⟩ := ih hmore.symm
    have hsub : ∀ u ∈ url :: seen ++ reads, u ∈ seen ++ url :: reads := by
      simp only [List.cons_append, List.mem_cons, List.mem_append]
      tauto
    refine ⟨fun q hq => ?_, fun u hu => ?_, fun n => ?_⟩
    · rcases List.mem_cons.1 hq with rfl | hq
      · refine ⟨some url, htarget, fun u hu => ?_⟩
        obtain rfl := Option.some.inj hu
        simp
      · exact (hrequests q (List.mem_append_right _ hq)).mono hsub
    · rcases List.mem_cons.1 hu with rfl | hu
      · refine ⟨found, hexports, fun s hs => (hrequests _ ?_).mono hsub⟩
        exact List.mem_append_left _ (List.mem_map.2 ⟨s, hs, rfl⟩)
      · obtain ⟨found', hfound', hstars⟩ := hmodules u hu
        exact ⟨found', hfound', fun s hs => (hstars s hs).mono hsub⟩
    · simp only [List.mem_append, hnames n, List.mem_cons, exists_eq_or_imp, hexports,
        Except.ok.injEq, exists_eq_left']

/-! ## The walk that starts with a specifier -/

variable {specifier : List Char}

/-- What the only request of a walk leads to is what star exports lead to from its specifier. -/
theorem leads_iff_reaches {u : List Char} :
    Leads w [⟨specifier, w.options.anchors⟩] u ↔ w.Reaches specifier u := by
  constructor
  · rintro ⟨q, hq, v, hv, hpath⟩
    obtain rfl := List.mem_singleton.1 hq
    obtain ⟨hresolve, hfile⟩ := target_eq_some.1 hv
    exact ⟨v, hresolve, hfile, hpath⟩
  · rintro ⟨v, hresolve, hfile, hpath⟩
    exact ⟨_, List.mem_singleton_self _, v, target_eq_some.2 ⟨hresolve, hfile⟩, hpath⟩

/-- Whoever leaves no request open has read all modules that the requests lead to. -/
theorem Complete.mem_of_leads {reads names : List (List Char)}
    (h : Complete w [] requests reads names) {u : List Char} (hu : Leads w requests u) :
    u ∈ reads := by
  obtain ⟨q, hq, v, hv, hpath⟩ := hu
  have known {q : ModuleRequest} {v : List Char} (hsettled : Settled w ([] ++ reads) q)
      (hv : w.target q = .ok (some v)) : v ∈ reads := by
    obtain ⟨u?, htarget, hknown⟩ := hsettled
    exact hknown v (Except.ok.inj (htarget.symm.trans hv))
  induction hpath with
  | refl => exact known (h.requests q hq) hv
  | tail _ hedge ih =>
    obtain ⟨s, hstar, hresolve, hfile⟩ := hedge
    obtain ⟨found, hexports, hstars⟩ := h.modules _ ih
    exact known (hstars s ((mem_stars_iff hexports).2 hstar)) (target_eq_some.2 ⟨hresolve, hfile⟩)

/-- A walk through a file tree is never cut off if its resolver tells files apart. -/
theorem walks_run_of_tellsFiles (hw : w.resolver.TellsFiles w.tree) (specifier : List Char) :
    Walks w [] [⟨specifier, w.options.anchors⟩] (w.run specifier).1 (w.run specifier).2 := by
  refine walks_of_walk w.tree.urls (fun q url h => ?_) ?_ .nil
    fun u hu => (List.not_mem_nil hu).elim
  · obtain ⟨hresolve, hfile⟩ := target_eq_some.1 h
    exact Resolver.mem_urls_of_tellsFiles hw hresolve hfile
  · exact Nat.lt_succ_of_le (List.length_filterMap_le _ _)

/-- A walk through a file tree that resolves as Node does is never cut off. -/
theorem walks_run {config : ResolverConfig} {defaults : ResolveOptions}
    (hw : w.resolver = .new config defaults) (specifier : List Char) :
    Walks w [] [⟨specifier, w.options.anchors⟩] (w.run specifier).1 (w.run specifier).2 :=
  walks_run_of_tellsFiles (hw ▸ Resolver.tellsFiles_new) specifier

/-- When a walk gives names: its specifier is resolved, every module that star exports lead to from
there can be read and no fault is found in it, and every star of such a module is resolved. -/
structure Closed (w : StarWalk) (specifier : List Char) : Prop where
  resolves : ∃ u, w.resolver.resolve w.tree w.options specifier = .ok u
  readable : ∀ v, w.Reaches specifier v → ∃ source, Id.load w.tree v = .ok source
  faultless : ∀ v source f, w.Reaches specifier v → Id.load w.tree v = .ok source →
    ¬ w.analyzer.Faults source f
  stars : ∀ v s, w.Reaches specifier v → w.Stars v s → ∃ v', w.resolveIn v s = .ok v'

/-- Why a walk gives no names. -/
inductive Fails (w : StarWalk) (specifier : List Char) (e : Error) : Prop
  | unresolved : w.resolver.resolve w.tree w.options specifier = .error e → Fails w specifier e
  | unreadable {v} : w.Reaches specifier v → Id.load w.tree v = .error e → Fails w specifier e
  | faulty {v source f} : w.Reaches specifier v → Id.load w.tree v = .ok source →
      w.analyzer.Faults source f → e = .fault f → Fails w specifier e
  | lost {v s} : w.Reaches specifier v → w.Stars v s → w.resolveIn v s = .error e →
      Fails w specifier e

theorem Fails.not_closed {e : Error} (h : Fails w specifier e) : ¬ Closed w specifier := by
  intro hclosed
  cases h with
  | unresolved hresolve =>
    obtain ⟨u, hu⟩ := hclosed.resolves
    cases hresolve.symm.trans hu
  | unreadable hv hload =>
    obtain ⟨source, hsource⟩ := hclosed.readable _ hv
    cases hload.symm.trans hsource
  | faulty hv hload hfaults _ => exact hclosed.faultless _ _ _ hv hload hfaults
  | lost hv hstar hresolve =>
    obtain ⟨v', hv'⟩ := hclosed.stars _ _ hv hstar
    cases hresolve.symm.trans hv'

/-- What breaks the request for a specifier is one of the listed reasons. -/
theorem Breaks.fails {e : Error} (h : Breaks w [⟨specifier, w.options.anchors⟩] e) :
    Fails w specifier e := by
  rcases h with ⟨q, hq, htarget⟩ | ⟨u, hleads, hcause⟩
  · obtain rfl := List.mem_singleton.1 hq
    exact .unresolved (target_eq_error.1 htarget)
  · have hreaches := leads_iff_reaches.1 hleads
    rcases hcause with hexports | ⟨s, hstar, hresolve⟩
    · rcases exportsAt_eq_error.1 hexports with hload | ⟨source, f, hload, hf, rfl⟩
      · exact .unreadable hreaches hload
      · exact .faulty hreaches hload hf rfl
    · exact .lost hreaches hstar hresolve

/-- A walk that gives an error fails for one of the listed reasons. -/
theorem Walks.fails {e : Error}
    (h : Walks w [] [⟨specifier, w.options.anchors⟩] reads (.error e)) :
    Fails w specifier e :=
  h.breaks.fails

/-- Whoever leaves no request open, and reads nothing that the specifier does not lead to, has read
the modules that star exports lead to, and these are closed. -/
theorem Complete.closed {names : List (List Char)}
    (h : Complete w [] [⟨specifier, w.options.anchors⟩] reads names)
    (hreads : ∀ v ∈ reads, Leads w [⟨specifier, w.options.anchors⟩] v) :
    Closed w specifier ∧ ∀ v, v ∈ reads ↔ w.Reaches specifier v := by
  have hmem : ∀ v, v ∈ reads ↔ w.Reaches specifier v := fun v =>
    ⟨fun hv => leads_iff_reaches.1 (hreads v hv),
      fun hv => h.mem_of_leads (leads_iff_reaches.2 hv)⟩
  have hexports : ∀ v, w.Reaches specifier v → ∃ found, w.exportsAt v = .ok found ∧
      ∀ s ∈ found.stars, Settled w ([] ++ reads) ⟨s, [v]⟩ :=
    fun v hv => h.modules v ((hmem v).2 hv)
  have hresolved {q : ModuleRequest} (hsettled : Settled w ([] ++ reads) q) :
      ∃ u, w.resolver.resolve w.tree (w.options.withAnchors q.anchors) q.specifier = .ok u := by
    obtain ⟨u?, htarget, -⟩ := hsettled
    obtain ⟨u, hu, -⟩ := map_eq_ok.1 htarget
    exact ⟨u, hu⟩
  refine ⟨⟨?_, fun v hv => ?_, fun v source f hv hload hfaults => ?_, fun v s hv hstar => ?_⟩,
    hmem⟩
  · exact hresolved (h.requests _ (List.mem_singleton_self _))
  · obtain ⟨found, hfound, -⟩ := hexports v hv
    obtain ⟨records, ⟨source, hload, -⟩, -⟩ := exportsAt_eq_ok.1 hfound
    exact ⟨source, hload⟩
  · obtain ⟨found, hfound, -⟩ := hexports v hv
    obtain ⟨records, ⟨source', hload', hrecords⟩, -⟩ := exportsAt_eq_ok.1 hfound
    obtain rfl := Except.ok.inj (hload.symm.trans hload')
    cases hrecords.symm.trans (Analyzer.exports_eq_error.2 hfaults)
  · obtain ⟨found, hfound, hstars⟩ := hexports v hv
    exact hresolved (hstars s ((mem_stars_iff hfound).2 hstar))

/-- A walk that gives names is closed, and has read the modules that star exports lead to. -/
theorem Walks.closed {names : List (List Char)}
    (h : Walks w [] [⟨specifier, w.options.anchors⟩] reads (.ok names)) :
    Closed w specifier ∧ ∀ v, v ∈ reads ↔ w.Reaches specifier v :=
  h.complete.closed h.reachable

/-- The names found then are those of the records of all modules that star exports lead to, but
the stars themselves. -/
theorem Complete.mem_names {names : List (List Char)}
    (h : Complete w [] [⟨specifier, w.options.anchors⟩] reads names)
    (hreads : ∀ v ∈ reads, Leads w [⟨specifier, w.options.anchors⟩] v) (n : List Char) :
    n ∈ names ↔ ∃ v records r, w.Reaches specifier v ∧ w.Exports v records ∧ r ∈ records ∧
      ModuleExports.star? r = none ∧ n ∈ r.names := by
  have hmem := (h.closed hreads).2
  rw [h.names n]
  constructor
  · rintro ⟨v, hv, found, hfound, hn⟩
    obtain ⟨records, hrecords, rfl⟩ := exportsAt_eq_ok.1 hfound
    obtain ⟨r, hr, hn⟩ := List.mem_flatMap.1 hn
    obtain ⟨hr, hstar⟩ := List.mem_filter.1 hr
    exact ⟨v, records, r, (hmem v).1 hv, hrecords, hr, Option.isNone_iff_eq_none.1 hstar, hn⟩
  · rintro ⟨v, records, r, hv, hrecords, hr, hstar, hn⟩
    refine ⟨v, (hmem v).2 hv, _, exportsAt_eq_ok.2 ⟨records, hrecords, rfl⟩, ?_⟩
    refine List.mem_flatMap.2 ⟨r, List.mem_filter.2 ⟨hr, ?_⟩, hn⟩
    rw [hstar]
    rfl

theorem Walks.mem_names {names : List (List Char)}
    (h : Walks w [] [⟨specifier, w.options.anchors⟩] reads (.ok names)) (n : List Char) :
    n ∈ names ↔ ∃ v records r, w.Reaches specifier v ∧ w.Exports v records ∧ r ∈ records ∧
      ModuleExports.star? r = none ∧ n ∈ r.names :=
  h.complete.mem_names h.reachable n

end StarWalk

/-- The names of a module are those that a walk from its specifier has found. -/
theorem moduleExportNames_eq (w : StarWalk) (specifier : List Char) :
    moduleExportNames w.analyzer w.resolver w.tree w.options specifier =
      (w.run specifier).2.map Text.sortDistinct :=
  rfl

/-- **The names of a module are those of all modules that star exports lead to.**  They are given
exactly when the specifier and all stars on the way are resolved, all these modules can be read and
no fault is found in one; each error has one of these causes, so the walk always ends.  No module
is read twice, and none that star exports do not lead to. -/
theorem moduleExportNames_closure (a : Analyzer) (config : ResolverConfig)
    (defaults options : ResolveOptions) (tree : FileTree) (specifier : List Char) :
    let w : StarWalk := ⟨a, .new config defaults, options, tree⟩
    ((∃ names, moduleExportNames a (.new config defaults) tree options specifier = .ok names) ↔
      w.Closed specifier) ∧
    (∀ names, moduleExportNames a (.new config defaults) tree options specifier = .ok names →
      names.Pairwise (fun x y => Text.le x y = true ∧ x ≠ y) ∧
      ∀ n, n ∈ names ↔ ∃ v records r, w.Reaches specifier v ∧ w.Exports v records ∧ r ∈ records ∧
        ModuleExports.star? r = none ∧ n ∈ r.names) ∧
    (∀ e, moduleExportNames a (.new config defaults) tree options specifier = .error e →
      w.Fails specifier e) ∧
    (w.run specifier).1.Nodup ∧ ∀ v ∈ (w.run specifier).1, w.Reaches specifier v := by
  intro w
  have hwalks : w.Walks [] _ _ _ := StarWalk.walks_run rfl specifier
  have hnames : moduleExportNames a (.new config defaults) tree options specifier =
      (w.run specifier).2.map Text.sortDistinct := moduleExportNames_eq w specifier
  rw [hnames]
  generalize w.run specifier = run at hwalks ⊢
  obtain ⟨reads, result⟩ := run
  refine ⟨⟨?_, fun hclosed => ?_⟩, ?_, ?_, hwalks.nodup.1,
    fun v hv => StarWalk.leads_iff_reaches.1 (hwalks.reachable v hv)⟩
  · rintro ⟨names, h⟩
    obtain ⟨found, rfl, -⟩ := map_eq_ok.1 h
    exact hwalks.closed.1
  · cases result with
    | ok found => exact ⟨_, rfl⟩
    | error e => exact absurd hclosed hwalks.fails.not_closed
  · intro names h
    obtain ⟨found, rfl, rfl⟩ := map_eq_ok.1 h
    refine ⟨Text.pairwise_sortDistinct found, fun n => ?_⟩
    rw [Text.mem_sortDistinct]
    exact hwalks.mem_names n
  · intro e h
    obtain rfl := map_eq_error.1 h
    exact hwalks.fails

/-! ### A source that is cut off -/

/-- An export, and a word that ends in an open escape. -/
def openEscape : List Char := "export const a = 1\n\\u\x7b".toList

/-- A walk with the usual analyzer in a tree with one module. -/
def openEscapeWalk : StarWalk where
  analyzer := .standard
  resolver := .new (.new [FilePath.slash]) .none
  options := .none
  tree := ⟨[([FilePath.ofText "a.mjs".toList], .file (Utf8.encode openEscape))], []⟩

/-- A module that can be read and asks for no other one has no names if a word of it lies partly
behind its end. -/
theorem moduleExportNames_openEscape :
    (∃ u, openEscapeWalk.resolver.resolve openEscapeWalk.tree openEscapeWalk.options
      "./a.mjs".toList = .ok u) ∧
    (∀ v, openEscapeWalk.Reaches "./a.mjs".toList v →
      ∃ source, Id.load openEscapeWalk.tree v = .ok source) ∧
    (∀ v s, openEscapeWalk.Reaches "./a.mjs".toList v → openEscapeWalk.Stars v s →
      ∃ v', openEscapeWalk.resolveIn v s = .ok v') ∧
    moduleExportNames openEscapeWalk.analyzer openEscapeWalk.resolver openEscapeWalk.tree
      openEscapeWalk.options "./a.mjs".toList = .error (.fault .overrun) := by
  have hresolve : openEscapeWalk.resolver.resolve openEscapeWalk.tree openEscapeWalk.options
      "./a.mjs".toList = .ok "file:///a.mjs".toList := by
    rw [Resolver.resolve_relative rfl (by decide)]
    decide +kernel
  have hload : Id.load openEscapeWalk.tree "file:///a.mjs".toList = .ok openEscape := by
    unfold openEscapeWalk openEscape
    repeat rw [String.toList_ofList]
    decide +kernel
  have hfault : openEscapeWalk.analyzer.exports openEscape = .error .overrun := by
    unfold openEscape
    rw [String.toList_ofList]
    decide +kernel
  have hstars : ∀ s, ¬ openEscapeWalk.Stars "file:///a.mjs".toList s := by
    rintro s ⟨records, ⟨source, hsource, hrecords⟩, -⟩
    obtain rfl := Except.ok.inj (hload.symm.trans hsource)
    cases hfault.symm.trans hrecords
  have hreaches : ∀ v, openEscapeWalk.Reaches "./a.mjs".toList v →
      v = "file:///a.mjs".toList := by
    rintro v ⟨u, hu, -, hpath⟩
    obtain rfl := Except.ok.inj (hresolve.symm.trans hu)
    rcases hpath.cases_head with rfl | ⟨v', ⟨s, hstar, -⟩, -⟩
    · rfl
    · exact absurd hstar (hstars s)
  refine ⟨⟨_, hresolve⟩, fun v hv => ?_, fun v s hv hstar => ?_, ?_⟩
  · exact ⟨_, hreaches v hv ▸ hload⟩
  · exact absurd (hreaches v hv ▸ hstar) (hstars s)
  · have htarget : openEscapeWalk.target ⟨"./a.mjs".toList, openEscapeWalk.options.anchors⟩ =
        .ok (some "file:///a.mjs".toList) := StarWalk.target_eq_some.2 ⟨hresolve, rfl⟩
    have hexports : openEscapeWalk.exportsAt "file:///a.mjs".toList = .error (.fault .overrun) :=
      StarWalk.exportsAt_eq_error.2
        (.inr ⟨_, _, hload, Analyzer.exports_eq_error.1 hfault, rfl⟩)
    rw [moduleExportNames_eq, StarWalk.run, StarWalk.maxSteps, StarWalk.walk,
      StarWalk.next?_of_fresh htarget List.not_mem_nil]
    dsimp only
    rw [hexports]
    rfl

end EsModules
