import EsModules.Proofs.Package.Selection
import EsModules.Proofs.Results

/-!
# Evaluating targets

A target whose branches are by conditions only is a tree of leaves, and the first leaf all of whose
conditions hold decides.  Fallbacks are tried in turn; they follow Node's rule but for one case: an
exclusion behind which no fallback decides counts as if no condition held, and so a branch around
the list goes on to its later conditions.

* `Target.allLeaves`, `Target.IsTree`: the leaves of a target, with the keys above them.
* `PackageMap.fallbackRule`: Node's rule for lists of fallbacks.
* `PackageMap.Context.evaluate_firstActive`: the first leaf whose conditions hold decides.
* `PackageMap.Context.evaluate_fallbackRule`: where fallbacks follow the rule, and where not.
-/

namespace EsModules

namespace Target

/-! ## Leaves and the keys above them -/

/-- A leaf of a target with the keys that stand above it. -/
structure Leaf where
  /-- The keys, the outermost first. -/
  keys : List (List Char)
  /-- The text of a path; none is an exclusion. -/
  text : Option (List Char)
  deriving DecidableEq, Repr

/-- A leaf below one more key. -/
def Leaf.below (key : List Char) (leaf : Leaf) : Leaf := { leaf with keys := key :: leaf.keys }

mutual

/-- The leaves of a target in the order they are written in. -/
def allLeaves : Target → List Leaf
  | .path text => [⟨[], some text⟩]
  | .branch entries => leavesOfEntries entries
  | .fallback items => leavesOfItems items
  | .excluded => [⟨[], none⟩]
termination_by structural t => t

/-- The leaves of the entries of a branch. -/
def leavesOfEntries : List (List Char × Target) → List Leaf
  | [] => []
  | e :: es => leavesOfEntry e ++ leavesOfEntries es
termination_by structural es => es

/-- The leaves of an entry of a branch. -/
def leavesOfEntry : List Char × Target → List Leaf
  | (key, t) => (allLeaves t).map (Leaf.below key)
termination_by structural e => e

/-- The leaves of fallbacks. -/
def leavesOfItems : List Target → List Leaf
  | [] => []
  | t :: ts => allLeaves t ++ leavesOfItems ts
termination_by structural ts => ts

end

/-- A target without fallbacks in which no key of a branch is the index of a list. -/
inductive IsTree : Target → Prop
  | path (text : List Char) : IsTree (.path text)
  | branch (entries : List (List Char × Target))
      (hkeys : ∀ e ∈ entries, PackageMap.isListIndex e.1 = false)
      (htrees : ∀ e ∈ entries, IsTree e.2) : IsTree (.branch entries)
  | excluded : IsTree .excluded

end Target

namespace PackageMap

/-! ## The rule for fallbacks -/

/-- Whether an outcome ends a list of fallbacks: a module does, and every error but that of a target
that is not valid. -/
def decides : Except Error Outcome → Bool
  | .ok (.resolved _) => true
  | .ok _ => false
  | .error (.invalidTarget ..) => false
  | .error _ => true

/-- Node's rule for a list of fallbacks with given outcomes.  An empty list excludes; the first
outcome that decides is the answer; without one it is the last outcome that is not unmatched, if
there is one. -/
def fallbackRule (outcomes : List (Except Error Outcome)) : Except Error Outcome :=
  if outcomes.isEmpty then .ok .excluded
  else match outcomes.find? decides with
    | some outcome => outcome
    | none => (outcomes.filter (· != .ok .unmatched)).getLast?.getD (.ok .unmatched)

/-- The error that a scan of fallbacks keeps behind an outcome that does not decide: an exclusion
drops it, and a further error takes its place. -/
def keep (failure : Option Error) : Except Error Outcome → Option Error
  | .ok .unmatched => failure
  | .ok _ => none
  | .error e => some e

/-- What is given if no fallback decides. -/
def leftOver : Option Error → Except Error Outcome
  | some e => .error e
  | none => .ok .unmatched

/-- What is kept behind outcomes is the error of the last one that is not unmatched. -/
theorem foldl_keep (outcomes : List (Except Error Outcome)) :
    outcomes.foldl keep none = match (outcomes.filter (· != .ok .unmatched)).getLast? with
      | some (.error e) => some e
      | _ => none := by
  induction outcomes using List.reverseRecOn with
  | nil => rfl
  | append_singleton outcomes outcome ih =>
    rw [List.foldl_concat, List.filter_append]
    by_cases hunmatched : outcome = .ok .unmatched
    · subst hunmatched
      rw [List.filter_cons_of_neg (by simp), List.filter_nil, List.append_nil, ← ih]
      rfl
    · rw [List.filter_cons_of_pos (by simpa using hunmatched), List.filter_nil,
        List.getLast?_concat]
      match outcome, hunmatched with
      | .ok (.resolved _), _ => rfl
      | .ok .excluded, _ => rfl
      | .error e, _ => rfl

namespace Context

variable {ctx : Context} {r : Request} {t : Target} {entries : List (List Char × Target)}

/-! ## The first leaf whose conditions hold -/

/-- Those of some leaves all of whose keys are conditions that hold. -/
def active (ctx : Context) (leaves : List Target.Leaf) : List Target.Leaf :=
  leaves.filter fun leaf => leaf.keys.all ctx.holds

theorem active_append (ctx : Context) (as bs : List Target.Leaf) :
    ctx.active (as ++ bs) = ctx.active as ++ ctx.active bs := List.filter_append ..

/-- Below a key that holds the same leaves are active, below one that does not hold none is. -/
theorem active_leavesOfEntry (ctx : Context) (e : List Char × Target) :
    ctx.active (Target.leavesOfEntry e) =
      if ctx.holds e.1 then (ctx.active e.2.allLeaves).map (.below e.1) else [] := by
  obtain ⟨key, t⟩ := e
  have hbelow : (fun leaf : Target.Leaf => leaf.keys.all ctx.holds) ∘ Target.Leaf.below key =
      fun leaf => ctx.holds key && leaf.keys.all ctx.holds := rfl
  unfold active Target.leavesOfEntry
  rw [List.filter_map, hbelow]
  cases ctx.holds key <;> simp

/-- What the first of some leaves gives: nothing if there is none, nothing on purpose if it is an
exclusion, and otherwise the module of its path. -/
def answer (ctx : Context) (r : Request) : List Target.Leaf → Except Error Outcome
  | [] => .ok .unmatched
  | leaf :: _ => match leaf.text with
    | none => .ok .excluded
    | some text => (ctx.resolvePath text r).map .resolved

theorem answer_cons_ne_unmatched (leaf : Target.Leaf) (leaves : List Target.Leaf) :
    ctx.answer r (leaf :: leaves) ≠ .ok .unmatched := by
  intro h
  match leaf, h with
  | ⟨_, none⟩, h => cases h
  | ⟨_, some text⟩, h =>
    obtain ⟨url, -, hurl⟩ := map_eq_ok.1 h
    cases hurl

theorem answer_below (key : List Char) (leaves : List Target.Leaf) :
    ctx.answer r (leaves.map (.below key)) = ctx.answer r leaves := by
  cases leaves <;> rfl

/-- An entry is evaluated to what the first of its active leaves gives if its target is. -/
theorem evaluateEntry_eq_answer {e : List Char × Target}
    (h : ctx.evaluate r e.2 = ctx.answer r (ctx.active e.2.allLeaves)) :
    ctx.evaluateEntry r e = ctx.answer r (ctx.active (Target.leavesOfEntry e)) := by
  rw [active_leavesOfEntry]
  unfold evaluateEntry
  split
  · rw [answer_below, ← h]
  · rfl

/-- Entries are evaluated to what the first of their active leaves gives if their targets are: an
entry without an active leaf is passed over, and any other one decides. -/
theorem evaluateEntries_eq_answer (h : ∀ e ∈ entries,
    ctx.evaluate r e.2 = ctx.answer r (ctx.active e.2.allLeaves)) :
    ctx.evaluateEntries r entries = ctx.answer r (ctx.active (Target.leavesOfEntries entries)) := by
  induction entries with
  | nil => rfl
  | cons e es ih =>
    have hentry := evaluateEntry_eq_answer (h e List.mem_cons_self)
    have hrest := ih fun d hd => h d (List.mem_cons_of_mem e hd)
    unfold evaluateEntries Target.leavesOfEntries
    rw [active_append, hentry, hrest]
    cases hactive : ctx.active (Target.leavesOfEntry e) with
    | nil => rfl
    | cons leaf leaves =>
      split
      · rename_i hunmatched
        exact absurd hunmatched (answer_cons_ne_unmatched leaf leaves)
      · rfl

/-- A tree is evaluated to what the first of its active leaves gives. -/
theorem evaluate_eq_answer (h : t.IsTree) :
    ctx.evaluate r t = ctx.answer r (ctx.active t.allLeaves) := by
  induction h with
  | path text => rfl
  | excluded => rfl
  | branch entries hkeys _ ih =>
    have hnumbers : ¬ (entries.any fun e => isListIndex e.1) = true := by
      simpa using fun key t hmem => hkeys (key, t) hmem
    unfold evaluate Target.allLeaves
    rw [if_neg hnumbers]
    exact evaluateEntries_eq_answer ih

/-- **The first active leaf decides.** A tree of conditions is unmatched if none of its leaves is
active, excluded if the first active one is an exclusion, and otherwise what the path of that leaf
is resolved to, its error included; so only the set of conditions counts. -/
theorem evaluate_firstActive (ctx : Context) (r : Request) (t : Target) (h : t.IsTree) :
    (ctx.evaluate r t = match (ctx.active t.allLeaves).head? with
      | none => .ok .unmatched
      | some ⟨_, none⟩ => .ok .excluded
      | some ⟨_, some text⟩ => (ctx.resolvePath text r).map .resolved) ∧
    ∀ conditions : List (List Char), (∀ c, c ∈ conditions ↔ c ∈ ctx.conditions) →
      evaluate { ctx with conditions := conditions } r t = ctx.evaluate r t := by
  refine ⟨?_, fun conditions hsame => ?_⟩
  · rw [evaluate_eq_answer h]
    match ctx.active t.allLeaves with
    | [] => rfl
    | ⟨keys, none⟩ :: _ => rfl
    | ⟨keys, some text⟩ :: _ => rfl
  · have hholds : holds { ctx with conditions := conditions } = ctx.holds := by
      funext c
      have hcontains : conditions.contains c = ctx.conditions.contains c := by
        rw [Bool.eq_iff_iff, List.contains_iff_mem, List.contains_iff_mem]
        exact hsame c
      show (c == "default".toList || conditions.contains c) = _
      rw [hcontains]
      rfl
    rw [evaluate_eq_answer h, evaluate_eq_answer h]
    unfold active
    rw [hholds]
    match t.allLeaves.filter fun leaf => leaf.keys.all ctx.holds with
    | [] => rfl
    | ⟨keys, none⟩ :: _ => rfl
    | ⟨keys, some text⟩ :: _ => rfl

/-- Nested conditions: the branch for Node excludes what is required there. -/
def nestedTree : Target :=
  .branch [("browser".toList, .path "./browser.js".toList),
    ("node".toList, .branch [("require".toList, .excluded),
      ("import".toList, .path "./node.mjs".toList)]),
    ("default".toList, .path "./a.js".toList)]

/-- The second condition within the branch for Node holds, in whatever order the conditions are
given. -/
theorem evaluate_firstActive_nested :
    nestedTree.IsTree ∧ ∃ url,
      evaluate { openPackage with conditions := ["import".toList, "node".toList] }
          ⟨['.'], [], false⟩ nestedTree = .ok (.resolved url) ∧
        evaluate { openPackage with
            conditions := ["node".toList, "import".toList, "node".toList] }
          ⟨['.'], [], false⟩ nestedTree = .ok (.resolved url) ∧
        url.path = "/w/p/node.mjs".toList := by
  have hnode : Target.IsTree (.branch [("require".toList, .excluded),
      ("import".toList, .path "./node.mjs".toList)]) := by
    refine .branch _ (by decide) ?_
    simp [Target.IsTree.path, Target.IsTree.excluded]
  have htree : nestedTree.IsTree := by
    refine .branch _ (by decide) ?_
    simpa [Target.IsTree.path] using hnode
  obtain ⟨hleaf, hset⟩ := evaluate_firstActive
    { openPackage with conditions := ["import".toList, "node".toList] } ⟨['.'], [], false⟩
    nestedTree htree
  have hurl : evaluate { openPackage with conditions := ["import".toList, "node".toList] }
      ⟨['.'], [], false⟩ nestedTree = .ok (.resolved ⟨"file".toList, some .empty,
        .segments ["w".toList, "p".toList, "node.mjs".toList], none, none⟩) :=
    hleaf.trans (by decide +kernel)
  refine ⟨htree, _, hurl, (hset ["node".toList, "import".toList, "node".toList] ?_).trans hurl,
    by decide⟩
  intro c
  simp [or_comm]

/-! ## Fallbacks -/

/-- One step of the scan: an outcome that decides is the answer, any other one is passed over. -/
theorem evaluateItems_cons (failure : Option Error) (t : Target) (ts : List Target) :
    ctx.evaluateItems r failure (t :: ts) =
      if decides (ctx.evaluate r t) then ctx.evaluate r t
      else ctx.evaluateItems r (keep failure (ctx.evaluate r t)) ts := by
  rw [evaluateItems]
  cases ctx.evaluate r t with
  | ok outcome => cases outcome <;> rfl
  | error e => cases e <;> rfl

/-- The whole scan: the first outcome that decides, or else what is kept behind all of them. -/
theorem evaluateItems_eq (failure : Option Error) (items : List Target) :
    ctx.evaluateItems r failure items =
      ((items.map (ctx.evaluate r)).find? decides).getD
        (leftOver ((items.map (ctx.evaluate r)).foldl keep failure)) := by
  induction items generalizing failure with
  | nil => cases failure <;> rfl
  | cons t ts ih =>
    rw [evaluateItems_cons, List.map_cons, List.find?_cons, List.foldl_cons]
    cases hdecides : decides (ctx.evaluate r t) with
    | true => rfl
    | false => exact ih _

/-- Fallbacks are evaluated by Node's rule, but for an exclusion behind which no item is left: it
counts as unmatched. -/
theorem evaluate_fallback_eq {items : List Target} (h : items ≠ []) :
    ctx.evaluate r (.fallback items) =
      if fallbackRule (items.map (ctx.evaluate r)) = .ok .excluded then .ok .unmatched
      else fallbackRule (items.map (ctx.evaluate r)) := by
  have hempty : items.isEmpty = false := by simpa using h
  have hempty' : (items.map (ctx.evaluate r)).isEmpty = false := by simpa using h
  unfold evaluate fallbackRule
  rw [hempty, hempty', evaluateItems_eq, foldl_keep]
  cases hfind : (items.map (ctx.evaluate r)).find? decides with
  | some outcome =>
    have hne : outcome ≠ .ok .excluded := by
      rintro rfl
      cases List.find?_some hfind
    exact (if_neg hne).symm
  | none =>
    cases hlast : ((items.map (ctx.evaluate r)).filter (· != .ok .unmatched)).getLast? with
    | none => rfl
    | some outcome =>
      have hpasses : ¬ decides outcome = true :=
        List.find?_eq_none.1 hfind _ (List.mem_of_mem_filter (List.mem_of_getLast? hlast))
      match outcome, hpasses with
      | .ok (.resolved _), hpasses => exact absurd rfl hpasses
      | .ok .excluded, _ => rfl
      | .ok .unmatched, _ => rfl
      | .error e, _ => rfl

/-- Entries that do not match are passed over; an exclusion behind them ends the branch. -/
theorem evaluateEntries_of_excluded {key : List Char} (hkey : ctx.holds key = true)
    (ht : ctx.evaluate r t = .ok .excluded)
    (hentries : ∀ e ∈ entries, ctx.holds e.1 = true → ctx.evaluate r e.2 = .ok .unmatched)
    (after : List (List Char × Target)) :
    ctx.evaluateEntries r (entries ++ (key, t) :: after) = .ok .excluded := by
  induction entries with
  | nil =>
    rw [List.nil_append, evaluateEntries, evaluateEntry, if_pos hkey, ht]
  | cons e es ih =>
    have hentry : ctx.evaluateEntry r e = .ok .unmatched := by
      rw [evaluateEntry]
      split
      · rename_i hholds
        exact hentries e List.mem_cons_self hholds
      · rfl
    rw [List.cons_append, evaluateEntries, hentry]
    exact ih fun d hd => hentries d (List.mem_cons_of_mem e hd)

/-- **Fallbacks follow Node's rule** unless the list is not empty and the rule excludes: then the
list is unmatched.  And once the target under a condition that holds is excluded, so is the branch,
whatever conditions follow, unless numbers among its keys make it an error. -/
theorem evaluate_fallbackRule (ctx : Context) (r : Request) :
    (∀ items : List Target,
      (ctx.evaluate r (.fallback items) = fallbackRule (items.map (ctx.evaluate r)) ↔
        (fallbackRule (items.map (ctx.evaluate r)) = .ok .excluded → items = [])) ∧
      (items ≠ [] → fallbackRule (items.map (ctx.evaluate r)) = .ok .excluded →
        ctx.evaluate r (.fallback items) = .ok .unmatched)) ∧
    ∀ (before after : List (List Char × Target)) (key : List Char) (t : Target),
      (∀ e ∈ before, ctx.holds e.1 = true → ctx.evaluate r e.2 = .ok .unmatched) →
      ctx.holds key = true → ctx.evaluate r t = .ok .excluded →
      ctx.evaluate r (.branch (before ++ (key, t) :: after)) =
        if (before ++ (key, t) :: after).any fun e => isListIndex e.1 then .error ctx.numericKeys
        else .ok .excluded := by
  refine ⟨?_, ?_⟩
  · intro items
    by_cases hempty : items = []
    · subst hempty
      exact ⟨⟨fun _ _ => rfl, fun _ => rfl⟩, fun h => absurd rfl h⟩
    · rw [evaluate_fallback_eq hempty]
      by_cases hrule : fallbackRule (items.map (ctx.evaluate r)) = .ok .excluded
      · simp [hrule, hempty]
      · simp [hrule]
  · intro before after key t hbefore hkey ht
    unfold evaluate
    rw [evaluateEntries_of_excluded hkey ht hbefore after]

/-- An exclusion behind an invalid target drops its error; in a branch it ends the search. -/
theorem evaluate_fallbackRule_excluded :
    [Target.path "up".toList, .excluded] ≠ [] ∧
      fallbackRule ([.path "up".toList, .excluded].map
        (openPackage.evaluate ⟨['.'], [], false⟩)) = .ok .excluded ∧
      openPackage.evaluate ⟨['.'], [], false⟩ (.fallback [.path "up".toList, .excluded]) =
        .ok .unmatched ∧
      openPackage.evaluate ⟨['.'], [], false⟩ (.branch [("node".toList, .path "./a.js".toList),
        ("default".toList, .excluded), ("default".toList, .path "./b.js".toList)]) =
          .ok .excluded := by
  have hne : [Target.path "up".toList, .excluded] ≠ [] := List.cons_ne_nil _ _
  have hrule : fallbackRule ([.path "up".toList, .excluded].map
      (openPackage.evaluate ⟨['.'], [], false⟩)) = .ok .excluded := by
    decide +kernel
  have hnode : openPackage.holds "node".toList = false := by decide
  obtain ⟨hlist, hbranch⟩ := evaluate_fallbackRule openPackage ⟨['.'], [], false⟩
  refine ⟨hne, hrule, (hlist _).2 hne hrule, ?_⟩
  refine (hbranch [("node".toList, .path "./a.js".toList)]
    [("default".toList, .path "./b.js".toList)] "default".toList .excluded ?_ rfl rfl).trans ?_
  · intro e he hholds
    rw [List.mem_singleton.1 he, hnode] at hholds
    cases hholds
  · decide +kernel

/-- A list that only excludes is passed over, and the private file under the next condition is
given; by the rule the branch would be excluded. -/
theorem evaluate_excludedFallback :
    fallbackRule ([Target.excluded].map (openPackage.evaluate ⟨['.'], [], false⟩)) =
        .ok .excluded ∧
      openPackage.evaluate ⟨['.'], [], false⟩ (.fallback [.excluded]) = .ok .unmatched ∧
      openPackage.resolveExport (.branch [(['.'], .branch [("default".toList, .fallback [.excluded]),
        ("default".toList, .path "./a.js".toList)])]) ['.'] =
          .ok ⟨"file".toList, some .empty,
            .segments ["w".toList, "p".toList, "a.js".toList], none, none⟩ := by
  refine ⟨by decide +kernel, rfl, by decide +kernel⟩

end Context

end PackageMap

end EsModules
