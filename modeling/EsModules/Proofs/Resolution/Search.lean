import EsModules.Proofs.Results
import EsModules.Resolution.Resolver
import Mathlib.Data.List.DropRight

/-!
# The search of a resolver is one list of attempts

A resolver goes over anchors and extensions in loops that lie in each other, twice over the
anchors.  All its attempts stand in one list, and it makes those up to the first that does not fail
with a not-found error, which decides.

* `Attempt.all`: the list of attempts.
* `Search.acrossAnchors_eq_each`: the loops make the attempts of the list, one behind the other.
* `Search.stops_each`: which of the attempts in a list are made, and what they come to.
* `Resolver.Concludes`, `Resolver.concludes_trace`: the attempts and the answer of a resolver, for
  every delegate.
-/

namespace EsModules

/-! ## Attempts -/

namespace Attempt

/-- An attempt fails with a not-found error, so that the search goes on behind it. -/
def Misses (delegate : Delegate) (a : Attempt) : Prop :=
  ∃ e, a.outcome delegate = .error e ∧ e.isNotFound = true

/-- All attempts for a specifier, in order: as it is against every anchor; then, for one anchor
after another, with each extension, and with each extension as an index file in the directory that
the specifier names. -/
def all (conditions extensions : List (List Char)) (specifier : List Char) (anchors : List Url) :
    List Attempt :=
  anchors.map (fun anchor => ⟨specifier, anchor, conditions⟩) ++
    anchors.flatMap fun anchor =>
      extensions.map (fun x => ⟨specifier ++ x, anchor, conditions⟩) ++
        extensions.map fun x =>
          ⟨specifier.rdropWhile (· == '/') ++ "/index".toList ++ x, anchor, conditions⟩

end Attempt

/-! ## Loops -/

namespace Search

variable {α β : Type} {delegate : Delegate}

/-- Three searches behind one another may be put together either way. -/
theorem orElse_assoc (s : Search) (t u : Unit → Search) :
    (s.orElse t).orElse u = s.orElse fun _ => (t ()).orElse u := by
  obtain ⟨made, found⟩ := s
  rcases found with e | url?
  · rfl
  · cases url? with
    | some url => rfl
    | none =>
      generalize ht : t () = second
      obtain ⟨made', found'⟩ := second
      rcases found' with e | url?'
      · simp [orElse, ht]
      · cases url?' with
        | some url => simp [orElse, ht]
        | none => simp [orElse, ht, List.append_assoc]

/-- Searching along two lists in a row is searching along the one and then along the other. -/
theorem each_append (search : α → Search) (xs ys : List α) :
    each search (xs ++ ys) = (each search xs).orElse fun _ => each search ys := by
  induction xs with
  | nil => rfl
  | cons x xs ih => rw [List.cons_append, each, each, ih, orElse_assoc]

theorem each_map (search : β → Search) (f : α → β) (xs : List α) :
    each search (xs.map f) = each (fun x => search (f x)) xs := by
  induction xs with
  | nil => rfl
  | cons x xs ih => rw [List.map_cons, each, each, ih]

/-- A loop within a loop searches along the lists of the inner one in a row. -/
theorem each_flatMap (search : β → Search) (f : α → List β) (xs : List α) :
    each search (xs.flatMap f) = each (fun x => each search (f x)) xs := by
  induction xs with
  | nil => rfl
  | cons x xs ih => rw [List.flatMap_cons, each_append, ih, each]

/-- **The loops of a resolver** make the attempts of one list, one behind the other. -/
theorem acrossAnchors_eq_each (conditions extensions : List (List Char)) (specifier : List Char)
    (anchors : List Url) :
    acrossAnchors delegate conditions extensions specifier anchors =
      each (once delegate) (Attempt.all conditions extensions specifier anchors) := by
  have hvariants : (fun anchor : Url =>
      (each (fun x => once delegate ⟨specifier ++ x, anchor, conditions⟩) extensions).orElse
        fun _ => each
          (fun x => once delegate ⟨Attempt.indexBase specifier ++ x, anchor, conditions⟩)
          extensions) =
      fun anchor => each (once delegate)
        (extensions.map (fun x => (⟨specifier ++ x, anchor, conditions⟩ : Attempt)) ++
          extensions.map fun x =>
            (⟨Attempt.indexBase specifier ++ x, anchor, conditions⟩ : Attempt)) := by
    funext anchor
    rw [each_append, each_map, each_map]
  unfold acrossAnchors Attempt.all
  dsimp only
  rw [each_append, each_map, each_flatMap, hvariants]
  rfl

/-! ## One list -/

/-- What a search along a list comes to: either an attempt that does not miss decides, the first
one to do so, and no attempt behind it is made; or all attempts are made and miss. -/
inductive Stops (delegate : Delegate) (attempts : List Attempt) : Search → Prop
  | decided {front behind : List Attempt} {a : Attempt} (split : attempts = front ++ a :: behind)
      (missed : ∀ b ∈ front, b.Misses delegate) (decides : ¬ a.Misses delegate) :
      Stops delegate attempts ⟨front ++ [a], (a.outcome delegate).map some⟩
  | exhausted (missed : ∀ a ∈ attempts, a.Misses delegate) :
      Stops delegate attempts ⟨attempts, .ok none⟩

theorem once_of_misses {a : Attempt} (h : a.Misses delegate) :
    once delegate a = ⟨[a], .ok none⟩ := by
  obtain ⟨e, he, hmissed⟩ := h
  unfold once
  rw [he]
  dsimp only
  rw [if_pos hmissed]

theorem once_of_not_misses {a : Attempt} (h : ¬ a.Misses delegate) :
    once delegate a = ⟨[a], (a.outcome delegate).map some⟩ := by
  unfold once
  cases houtcome : a.outcome delegate with
  | ok url => rfl
  | error e =>
    have hfatal : ¬ e.isNotFound = true := fun he => h ⟨e, houtcome, he⟩
    dsimp only
    rw [if_neg hfatal]
    rfl

/-- An attempt that does not miss ends a search, whatever stands behind it. -/
theorem once_orElse_of_not_misses {a : Attempt} (h : ¬ a.Misses delegate)
    (further : Unit → Search) :
    (once delegate a).orElse further = ⟨[a], (a.outcome delegate).map some⟩ := by
  rw [once_of_not_misses h]
  cases a.outcome delegate <;> rfl

/-- **A search along a list** makes the attempts up to the first that does not miss. -/
theorem stops_each (attempts : List Attempt) :
    Stops delegate attempts (each (once delegate) attempts) := by
  induction attempts with
  | nil => exact .exhausted fun a ha => absurd ha List.not_mem_nil
  | cons a rest ih =>
    by_cases hmiss : a.Misses delegate
    · have hstep : each (once delegate) (a :: rest) =
          ⟨a :: (each (once delegate) rest).made, (each (once delegate) rest).found⟩ := by
        rw [each, once_of_misses hmiss]
        rfl
      rw [hstep]
      generalize each (once delegate) rest = search at ih ⊢
      cases ih with
      | @decided front behind b hsplit hmissed hdecides =>
        have hsplit' : a :: rest = (a :: front) ++ b :: behind := by rw [hsplit, List.cons_append]
        exact .decided hsplit' (List.forall_mem_cons.2 ⟨hmiss, hmissed⟩) hdecides
      | exhausted hmissed => exact .exhausted (List.forall_mem_cons.2 ⟨hmiss, hmissed⟩)
    · rw [each, once_orElse_of_not_misses hmiss]
      have hsplit : a :: rest = [] ++ a :: rest := rfl
      exact .decided hsplit (fun b hb => absurd hb List.not_mem_nil) hmiss

/-- What a search finds is what one of its attempts gave. -/
theorem Stops.exists_attempt {attempts : List Attempt} {s : Search} {url : Url}
    (h : Stops delegate attempts s) (hfound : s.found = .ok (some url)) :
    ∃ a ∈ attempts, a.outcome delegate = .ok url := by
  cases h with
  | @decided front behind a hsplit =>
    obtain ⟨url', houtcome, hurl⟩ := map_eq_ok.1 hfound
    obtain rfl := Option.some.inj hurl
    exact ⟨a, hsplit ▸ List.mem_append_right front List.mem_cons_self, houtcome⟩
  | exhausted => cases hfound

end Search

/-! ## Resolvers -/

namespace Resolver

/-- A specifier needs no search: it starts with a protocol that is left alone, names a builtin
module, or is the absolute path of a regular file. -/
def NeedsNoSearch (r : Resolver) (tree : FileTree) (specifier : List Char) : Prop :=
  (∃ protocol ∈ remoteProtocols, protocol <+: specifier) ∨
    r.config.builtins.contains specifier = true ∨
    (FilePath.ofText specifier).isAbsolute = true ∧ tree.isFile (.ofText specifier) = true

variable {r : Resolver} {tree : FileTree} {options : ResolveOptions} {specifier : List Char}

theorem isSome_immediate?_iff :
    (r.immediate? tree specifier).isSome = true ↔ r.NeedsNoSearch tree specifier := by
  unfold immediate? NeedsNoSearch
  have hremote : remoteProtocols.any (·.isPrefixOf specifier) = true ↔
      ∃ protocol ∈ remoteProtocols, protocol <+: specifier := by
    simp only [List.any_eq_true, List.isPrefixOf_iff_prefix]
  have hbuiltin : (r.config.builtins.canonical? specifier).isSome = true ↔
      r.config.builtins.contains specifier = true := by
    unfold Builtins.canonical?
    split <;> simp_all
  split
  · rename_i h
    exact iff_of_true rfl (.inl (hremote.1 h))
  · rename_i h
    rw [← hremote, ← hbuiltin]
    split
    · rename_i id hid
      exact iff_of_true rfl (.inr (.inl (by rw [hid]; rfl)))
    · rename_i hid
      rw [hid]
      dsimp only
      rw [← Bool.and_eq_true]
      split
      · rename_i hfile
        exact iff_of_true rfl (.inr (.inr hfile))
      · rename_i hfile
        simp [h, hfile]

theorem trace_of_needsNoSearch (h : r.NeedsNoSearch tree specifier) :
    (r.trace tree options specifier).1 = [] := by
  obtain ⟨answer, hanswer⟩ := Option.isSome_iff_exists.1 (isSome_immediate?_iff.2 h)
  unfold trace
  rw [hanswer]

theorem trace_eq_searchAll (h : ¬ r.NeedsNoSearch tree specifier) :
    r.trace tree options specifier = r.searchAll tree options specifier := by
  have hnone : r.immediate? tree specifier = none := by
    rw [← Option.not_isSome_iff_eq_none]
    exact fun hsome => h (isSome_immediate?_iff.1 hsome)
  unfold trace
  rw [hnone]

/-- A specifier that starts with a dot is searched for: no protocol that is left alone, no builtin
module of Node and no absolute path starts with one. -/
theorem resolve_relative (hnode : r.config.builtins = .node) (h : specifier.head? = some '.') :
    r.resolve tree options specifier = (r.searchAll tree options specifier).2 := by
  obtain ⟨rest, rfl⟩ : ∃ rest, specifier = '.' :: rest := ⟨_, List.eq_cons_of_mem_head? h⟩
  have hprotocol : ∀ protocol ∈ Builtins.protocol :: remoteProtocols,
      ¬ protocol <+: '.' :: rest := by
    have hheads : ∀ protocol ∈ Builtins.protocol :: remoteProtocols,
        protocol ≠ [] ∧ protocol.head? ≠ some '.' := by decide
    rintro protocol hprotocol ⟨behind, hsplit⟩
    obtain ⟨hne, hhead⟩ := hheads protocol hprotocol
    obtain ⟨c, text, rfl⟩ := List.exists_cons_of_ne_nil hne
    exact hhead (congrArg some (List.cons.inj hsplit).1)
  have hbuiltin : Builtins.node.contains ('.' :: rest) = false := by
    have hheads : ∀ name ∈ Builtins.node.names, name.head? ≠ some '.' := by decide +kernel
    rw [Builtins.contains, Builtins.packageName,
      Builtins.bareId_eq_self (hprotocol _ List.mem_cons_self)]
    refine Bool.eq_false_iff.2 fun hmem => ?_
    exact hheads _ (List.contains_iff_mem.1 hmem) rfl
  unfold resolve
  rw [trace_eq_searchAll]
  rintro (⟨protocol, hmem, hprefix⟩ | hknown | ⟨habsolute, -⟩)
  · exact hprotocol protocol (List.mem_cons_of_mem _ hmem) hprefix
  · rw [hnode, hbuiltin] at hknown
    cases hknown
  · cases habsolute

/-- How a resolver concludes from a list of attempts, given the anchors they are for: with the
attempts up to the first that does not fail with a not-found error, and its URL located or its
error; or with all attempts, and an error that names the specifier and all anchors. -/
inductive Concludes (r : Resolver) (tree : FileTree) (specifier : List Char) (anchors : List Url)
    (attempts : List Attempt) : List Attempt × Except Error (List Char) → Prop
  | found {front behind : List Attempt} {a : Attempt} {url : Url}
      (split : attempts = front ++ a :: behind)
      (missed : ∀ b ∈ front, b.Misses (r.delegate tree))
      (gives : a.outcome (r.delegate tree) = .ok url) :
      Concludes r tree specifier anchors attempts
        (front ++ [a], settle tree specifier anchors (some url))
  | failed {front behind : List Attempt} {a : Attempt} {e : Error}
      (split : attempts = front ++ a :: behind)
      (missed : ∀ b ∈ front, b.Misses (r.delegate tree))
      (gives : a.outcome (r.delegate tree) = .error e) (fatal : e.isNotFound = false) :
      Concludes r tree specifier anchors attempts (front ++ [a], .error e)
  | exhausted (missed : ∀ a ∈ attempts, a.Misses (r.delegate tree)) :
      Concludes r tree specifier anchors attempts
        (attempts, .error (.notFound specifier (anchors.map Url.href)))

/-- A search that stops as the list of attempts says leads to a conclusion from that list. -/
theorem concludes_of_stops {anchors : List Url} {attempts : List Attempt} {s : Search}
    (h : s.Stops (r.delegate tree) attempts) :
    r.Concludes tree specifier anchors attempts
      (s.made, s.found.bind (settle tree specifier anchors)) := by
  cases h with
  | @decided front behind a hsplit hmissed hdecides =>
    cases houtcome : a.outcome (r.delegate tree) with
    | ok url => exact .found hsplit hmissed houtcome
    | error e =>
      have hfatal : e.isNotFound = false := by
        by_contra he
        exact hdecides ⟨e, houtcome, Bool.of_not_eq_false he⟩
      exact .failed hsplit hmissed houtcome hfatal
  | exhausted hmissed => exact .exhausted hmissed

/-- **The search of a resolver.**  A specifier that needs no search makes no attempt.  For any
other one the attempts stand in one list, for the anchors of the call and with its extensions and
conditions, and the resolver concludes from that list; without anchors there is no attempt. -/
theorem concludes_trace (r : Resolver) (tree : FileTree) (options : ResolveOptions)
    (specifier : List Char) :
    let chosen := options.orElse r.defaults
    let run := r.trace tree options specifier
    (r.NeedsNoSearch tree specifier → run.1 = []) ∧
    (¬ r.NeedsNoSearch tree specifier →
      (∀ e, r.anchors tree chosen = .error e → run = ([], .error e)) ∧
      ∀ anchors, r.anchors tree chosen = .ok anchors →
        r.Concludes tree specifier anchors
          (Attempt.all (r.conditions chosen) (r.extensions chosen) specifier anchors) run) := by
  intro chosen run
  refine ⟨trace_of_needsNoSearch, fun hneeds => ?_⟩
  have hrun : run = r.searchAll tree options specifier := trace_eq_searchAll hneeds
  rw [hrun, searchAll]
  dsimp only
  refine ⟨fun e hanchors => ?_, fun anchors hanchors => ?_⟩
  · rw [show r.anchors tree (options.orElse r.defaults) = .error e from hanchors]
  · rw [show r.anchors tree (options.orElse r.defaults) = .ok anchors from hanchors]
    dsimp only
    rw [Search.acrossAnchors_eq_each]
    exact concludes_of_stops (Search.stops_each _)

/-! ### A search that fails in its second round -/

/-- A resolver whose delegate rejects one specifier at one anchor and finds nothing else. -/
def rejecting : Resolver where
  config := .new [FilePath.slash]
  delegate := fun _ specifier base _ =>
    if specifier == "./lib/index.mjs".toList && base.path == ",b".toList then
      .error (.invalidSpecifier specifier "rejected".toList)
    else .error (.moduleNotFound specifier base.href)
  defaults := ⟨["data:,a".toList, "data:,b".toList], none, some [".mjs".toList, ".js".toList]⟩

/-- The attempts for a directory against two anchors, with two extensions: the ninth of ten is the
last that is made. -/
theorem concludes_trace_rejected :
    let tree : FileTree := ⟨[], []⟩
    let anchors : List Url := [⟨"data".toList, none, .opaqueText ",a".toList, none, none⟩,
      ⟨"data".toList, none, .opaqueText ",b".toList, none, none⟩]
    let attempts := Attempt.all ["node".toList, "import".toList] [".mjs".toList, ".js".toList]
      "./lib/".toList anchors
    ¬ rejecting.NeedsNoSearch tree "./lib/".toList ∧
      rejecting.anchors tree (ResolveOptions.none.orElse rejecting.defaults) = .ok anchors ∧
      attempts.length = 10 ∧
      (rejecting.trace tree .none "./lib/".toList).1 = attempts.take 9 ∧
      rejecting.Concludes tree "./lib/".toList anchors attempts
        (rejecting.trace tree .none "./lib/".toList) := by
  intro tree anchors attempts
  have hneeds : ¬ rejecting.NeedsNoSearch tree "./lib/".toList := by
    rw [← isSome_immediate?_iff]
    decide
  have hanchors : rejecting.anchors tree (ResolveOptions.none.orElse rejecting.defaults) =
      .ok anchors := by
    decide
  refine ⟨hneeds, hanchors, rfl, by decide, ?_⟩
  exact ((concludes_trace rejecting tree .none "./lib/".toList).2 hneeds).2 anchors hanchors

end Resolver

end EsModules
