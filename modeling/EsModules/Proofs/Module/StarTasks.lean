import EsModules.Module.StarTasks
import EsModules.Proofs.Module.StarExports
import Mathlib

/-!
# Names found by tasks

Tasks that follow star exports at the same time find what a walk finds that follows one after
another, in whatever order they take their steps.  A task that meets a claimed module adds nothing;
that nothing is lost is an invariant over all tasks: what a task and the tasks below it have
claimed, taken together, is what is claimed at all, and a task that has finished leaves only
requests that lead to claimed modules.

* `StarWalk.Follows`: a task follows a request, given what it has claimed.
* `StarWalk.Step.follows`: a step keeps that, and claims what is claimed by it.
* `StarWalk.Step.unread`: a step reads only what is claimed and not read.
* `StarWalk.Step.descends`: every step brings the end of a walk nearer.
* `moduleExportNames_tasks`: all walks by tasks end, with the names of the walk one after another.
-/

namespace EsModules

namespace StarWalk

variable {w : StarWalk} {s s' : Shared} {t t' : Task} {q : ModuleRequest}
  {known claims names : List (List Char)}

/-! ## What a task is there for -/

/-- A task with the request it follows, and what it and the tasks below it have claimed. -/
structure Branch where
  request : ModuleRequest
  task : Task
  claims : List (List Char)

/-- A task follows a request: what it waits for are tasks that follow the stars of its module, and
when it has finished, it is complete or its request breaks. -/
inductive Follows (w : StarWalk) (known : List (List Char)) :
    ModuleRequest → Task → List (List Char) → Prop
  | resolving {r : ModuleRequest} : Follows w known r (.resolving r) []
  | claiming {r : ModuleRequest} {url} : w.target r = .ok (some url) →
      Follows w known r (.claiming url) []
  | reading {r : ModuleRequest} {url} : w.target r = .ok (some url) → url ∈ known →
      Follows w known r (.reading url) [url]
  | joining {r : ModuleRequest} {url found} {branches : List Branch} :
      w.target r = .ok (some url) → url ∈ known → w.exportsAt url = .ok found →
      branches.map Branch.request = found.stars.map (fun star => ⟨star, [url]⟩) →
      (∀ b ∈ branches, Follows w known b.request b.task b.claims) →
      Follows w known r (.joining found.names (branches.map Branch.task))
        (url :: branches.flatMap Branch.claims)
  | done {r : ModuleRequest} {found below : List (List Char)} :
      Complete w known [r] below found → (∀ u ∈ below, Leads w [r] u) →
      Follows w known r (.finished (.ok found)) below
  | failed {r : ModuleRequest} {e : Error} {below : List (List Char)} :
      Breaks w [r] e → (∀ u ∈ below, Leads w [r] u) →
      Follows w known r (.finished (.error e)) below

theorem Complete.mono {known' : List (List Char)} {requests : List ModuleRequest}
    (h : Complete w known requests claims names)
    (hsub : ∀ u ∈ known ++ claims, u ∈ known' ++ claims) :
    Complete w known' requests claims names := by
  refine ⟨fun q hq => (h.requests q hq).mono hsub, fun u hu => ?_, h.names⟩
  obtain ⟨found, hfound, hstars⟩ := h.modules u hu
  exact ⟨found, hfound, fun star hstar => (hstars star hstar).mono hsub⟩

theorem Follows.mono {known' : List (List Char)} (h : Follows w known q t claims)
    (hsub : ∀ u ∈ known, u ∈ known') : Follows w known' q t claims := by
  induction h with
  | resolving => exact .resolving
  | claiming htarget => exact .claiming htarget
  | reading htarget hurl => exact .reading htarget (hsub _ hurl)
  | joining htarget hurl hexports hrequests _ ih =>
    exact .joining htarget (hsub _ hurl) hexports hrequests ih
  | done hcomplete hleads =>
    refine .done (hcomplete.mono fun u hu => List.mem_append.2 ?_) hleads
    exact (List.mem_append.1 hu).imp_left (hsub u)
  | failed hbreaks hleads => exact .failed hbreaks hleads

/-- The request of a branch is among those of the module whose stars the branches follow. -/
theorem mem_of_branch {url : List Char} {found : ModuleExports} {branches : List Branch}
    (hrequests : branches.map Branch.request = found.stars.map (fun star => ⟨star, [url]⟩))
    {b : Branch} (hb : b ∈ branches) : ∀ q ∈ [b.request],
    q ∈ found.stars.map (fun star => (⟨star, [url]⟩ : ModuleRequest)) ++ [] := by
  intro q hq
  obtain rfl := List.mem_singleton.1 hq
  exact List.mem_append_left _ (hrequests ▸ List.mem_map_of_mem hb)

/-- A task claims only modules that its request leads to. -/
theorem Follows.leads (h : Follows w known q t claims) : ∀ u ∈ claims, Leads w [q] u := by
  induction h with
  | resolving | claiming => exact fun u hu => (List.not_mem_nil hu).elim
  | reading htarget _ =>
    intro u hu
    obtain rfl := List.mem_singleton.1 hu
    exact .of_mem List.mem_cons_self htarget
  | joining htarget _ hexports hrequests _ ih =>
    intro u hu
    rcases List.mem_cons.1 hu with rfl | hu
    · exact .of_mem List.mem_cons_self htarget
    · obtain ⟨b, hb, hu⟩ := List.mem_flatMap.1 hu
      exact .of_stars htarget hexports ((ih b hb u hu).mono (mem_of_branch hrequests hb))
  | done _ hleads | failed _ hleads => exact hleads

/-! ## What a step keeps -/

/-- The names of a module and of all tasks below it are complete when these have finished. -/
theorem complete_joined {url : List Char} {found : ModuleExports} {branches : List Branch}
    {results : List (List (List Char))} (htarget : w.target q = .ok (some url))
    (hurl : url ∈ known) (hexports : w.exportsAt url = .ok found)
    (hrequests : branches.map Branch.request = found.stars.map (fun star => ⟨star, [url]⟩))
    (hbranches : ∀ b ∈ branches, Follows w known b.request b.task b.claims)
    (hresults : branches.map Branch.task = results.map fun more => .finished (.ok more)) :
    Complete w known [q] (url :: branches.flatMap Branch.claims)
      (found.names ++ results.flatten) := by
  have hcomplete : ∀ b ∈ branches, ∃ more ∈ results, b.task = .finished (.ok more) ∧
      Complete w known [b.request] b.claims more := by
    intro b hb
    obtain ⟨more, hmore, htask⟩ := List.mem_map.1 (hresults ▸ List.mem_map_of_mem hb)
    have hfollows := hbranches b hb
    rw [← htask] at hfollows
    cases hfollows with
    | done hcomplete _ => exact ⟨more, hmore, htask.symm, hcomplete⟩
  have hwider : ∀ b ∈ branches, ∀ u ∈ known ++ b.claims,
      u ∈ known ++ url :: branches.flatMap Branch.claims := by
    intro b hb u hu
    rcases List.mem_append.1 hu with hu | hu
    · exact List.mem_append_left _ hu
    · exact List.mem_append_right _ (List.mem_cons_of_mem _ (List.mem_flatMap.2 ⟨b, hb, hu⟩))
  refine ⟨fun q' hq' => ?_, fun u hu => ?_, fun n => ?_⟩
  · obtain rfl := List.mem_singleton.1 hq'
    refine ⟨some url, htarget, fun u hu => ?_⟩
    obtain rfl := Option.some.inj hu
    exact List.mem_append_left _ hurl
  · rcases List.mem_cons.1 hu with rfl | hu
    · refine ⟨found, hexports, fun star hstar => ?_⟩
      have hmem : (⟨star, [u]⟩ : ModuleRequest) ∈ branches.map Branch.request :=
        hrequests ▸ List.mem_map_of_mem hstar
      obtain ⟨b, hb, hrequest⟩ := List.mem_map.1 hmem
      obtain ⟨more, -, -, hmore⟩ := hcomplete b hb
      exact hrequest ▸ (hmore.requests _ (List.mem_singleton_self _)).mono (hwider b hb)
    · obtain ⟨b, hb, hu⟩ := List.mem_flatMap.1 hu
      obtain ⟨more, -, -, hmore⟩ := hcomplete b hb
      obtain ⟨found', hfound', hstars⟩ := hmore.modules u hu
      exact ⟨found', hfound', fun star hstar => (hstars star hstar).mono (hwider b hb)⟩
  · rw [List.mem_append, List.mem_flatten]
    constructor
    · rintro (hn | ⟨more, hmore, hn⟩)
      · exact ⟨url, List.mem_cons_self, found, hexports, hn⟩
      · have hmem : Task.finished (.ok more) ∈ branches.map Branch.task :=
          hresults ▸ List.mem_map_of_mem hmore
        obtain ⟨b, hb, htask⟩ := List.mem_map.1 hmem
        obtain ⟨more', -, htask', hmore'⟩ := hcomplete b hb
        obtain rfl := Except.ok.inj (Task.finished.inj (htask.symm.trans htask'))
        obtain ⟨u, hu, hfound⟩ := (hmore'.names n).1 hn
        exact ⟨u, List.mem_cons_of_mem _ (List.mem_flatMap.2 ⟨b, hb, hu⟩), hfound⟩
    · rintro ⟨u, hu, found', hfound', hn⟩
      rcases List.mem_cons.1 hu with rfl | hu
      · obtain rfl := Except.ok.inj (hexports.symm.trans hfound')
        exact .inl hn
      · obtain ⟨b, hb, hu⟩ := List.mem_flatMap.1 hu
        obtain ⟨more, hmore, -, hcomplete⟩ := hcomplete b hb
        exact .inr ⟨more, hmore, (hcomplete.names n).2 ⟨u, hu, found', hfound', hn⟩⟩

/-- A task that has just read its module follows the request for it. -/
theorem follows_stars {url : List Char} {found : ModuleExports}
    (htarget : w.target q = .ok (some url)) (hurl : url ∈ known)
    (hexports : w.exportsAt url = .ok found) :
    Follows w known q (.joining found.names
      (found.stars.map fun star => .resolving ⟨star, [url]⟩)) [url] := by
  let branch (star : List Char) : Branch := ⟨⟨star, [url]⟩, .resolving ⟨star, [url]⟩, []⟩
  have hjoining := @Follows.joining w known q url found (found.stars.map branch) htarget hurl
    hexports (by rw [List.map_map]; rfl) fun b hb => by
      obtain ⟨star, -, rfl⟩ := List.mem_map.1 hb
      exact .resolving
  have hclaims : (found.stars.map branch).flatMap Branch.claims = [] := by
    simp [branch]
  rw [hclaims, List.map_map] at hjoining
  exact hjoining

/-- A task that follows a request still does so after a step, and has claimed besides what is
claimed in this step. -/
theorem Step.follows (hstep : w.Step s t s' t') (h : Follows w s.claimed q t claims) :
    ∃ new claims', s'.claimed = new ++ s.claimed ∧ claims'.Perm (new ++ claims) ∧
      Follows w s'.claimed q t' claims' := by
  induction hstep generalizing q claims with
  | refused htarget =>
    cases h with
    | resolving =>
      exact ⟨[], [], rfl, .refl _, .failed (.inl ⟨_, List.mem_cons_self, htarget⟩)
        fun u hu => (List.not_mem_nil hu).elim⟩
  | skipped htarget =>
    cases h with
    | resolving =>
      refine ⟨[], [], rfl, .refl _, .done ⟨fun q' hq' => ?_, by simp, by simp⟩ (by simp)⟩
      obtain rfl := List.mem_singleton.1 hq'
      exact ⟨none, htarget, by simp⟩
  | resolved htarget =>
    cases h with
    | resolving => exact ⟨[], [], rfl, .refl _, .claiming htarget⟩
  | @known url hknown =>
    cases h with
    | claiming htarget =>
      refine ⟨[], [], rfl, .refl _, .done ⟨fun q' hq' => ?_, by simp, by simp⟩ (by simp)⟩
      obtain rfl := List.mem_singleton.1 hq'
      refine ⟨some url, htarget, fun u hu => ?_⟩
      obtain rfl := Option.some.inj hu
      exact List.mem_append_left _ hknown
  | @claimed url _ =>
    cases h with
    | claiming htarget =>
      exact ⟨[url], [url], rfl, .refl _, .reading htarget List.mem_cons_self⟩
  | @failed url _ hexports =>
    cases h with
    | reading htarget hurl =>
      have hleads : Leads w [q] url := .of_mem List.mem_cons_self htarget
      refine ⟨[], [url], rfl, .refl _, .failed (.inr ⟨url, hleads, .inl hexports⟩) fun u hu => ?_⟩
      exact List.mem_singleton.1 hu ▸ hleads
  | @read url found hexports =>
    cases h with
    | reading htarget hurl =>
      exact ⟨[], [url], rfl, .refl _, follows_stars htarget hurl hexports⟩
  | inner _ ih =>
    generalize htask : Task.joining _ _ = task at h
    cases h with
    | joining htarget hurl hexports hrequests hbranches =>
      obtain ⟨rfl, htasks⟩ := Task.joining.inj htask
      obtain ⟨front, more, rfl, rfl, hmore⟩ := List.map_eq_append_iff.1 htasks.symm
      obtain ⟨b, back, rfl, rfl, rfl⟩ := List.map_eq_cons_iff.1 hmore
      obtain ⟨new, claims', hclaimed, hperm, hfollows⟩ := ih (hbranches b (by simp))
      have hsub : ∀ u ∈ _, u ∈ _ := fun u hu => hclaimed ▸ List.mem_append_right new hu
      have hjoining := @Follows.joining w _ q _ _ (front ++ ⟨b.request, _, claims'⟩ :: back)
        htarget (hsub _ hurl) hexports
        (by simpa using hrequests) fun b' hb' => by
          rcases List.mem_append.1 hb' with hfront | hback
          · exact (hbranches b' (by simp [hfront])).mono hsub
          · rcases List.mem_cons.1 hback with rfl | hback
            · exact hfollows
            · exact (hbranches b' (by simp [hback])).mono hsub
      refine ⟨new, _, hclaimed, ?_, by simpa using hjoining⟩
      refine List.perm_iff_count.2 fun a => ?_
      have hcount := hperm.count_eq a
      simp only [List.flatMap_append, List.flatMap_cons, List.count_cons, List.count_append]
        at hcount ⊢
      omega
    | _ => cases htask
  | joined =>
    generalize htask : Task.joining _ _ = task at h
    cases h with
    | joining htarget hurl hexports hrequests hbranches =>
      obtain ⟨rfl, htasks⟩ := Task.joining.inj htask
      exact ⟨[], _, rfl, .refl _, .done
        (complete_joined htarget hurl hexports hrequests hbranches htasks.symm)
        (Follows.joining htarget hurl hexports hrequests hbranches).leads⟩
    | _ => cases htask
  | cancelled herror =>
    cases h with
    | joining htarget hurl hexports hrequests hbranches =>
      obtain ⟨b, hb, htask⟩ := List.mem_map.1 herror
      have hfollows := hbranches b hb
      rw [htask] at hfollows
      cases hfollows with
      | failed hbreaks _ =>
        exact ⟨[], _, rfl, .refl _, .failed
          (.of_stars htarget hexports (hbreaks.mono (mem_of_branch hrequests hb)))
          (Follows.joining htarget hurl hexports hrequests hbranches).leads⟩

/-! ## Reading once -/

/-- The modules that a task and those below it have claimed and are still to read. -/
def Task.unread : Task → List (List Char)
  | .reading url => [url]
  | .joining _ children => children.flatMap unread
  | _ => []

/-- A step claims a module that no task has claimed, or reads one that is to be read, or does
neither; then it may drop what is to be read. -/
theorem Step.unread (hstep : w.Step s t s' t') :
    (s' = s ∧ t'.unread.Sublist t.unread) ∨
    (∃ url, url ∉ s.claimed ∧ s' = { s with claimed := url :: s.claimed } ∧
      t'.unread.Perm (url :: t.unread)) ∨
    ∃ url, s' = { s with reads := url :: s.reads } ∧ t.unread.Perm (url :: t'.unread) := by
  induction hstep with
  | refused | skipped | resolved | known | joined | cancelled =>
    exact .inl ⟨rfl, by simp [Task.unread]⟩
  | @claimed url hfresh => exact .inr (.inl ⟨url, hfresh, rfl, by simp [Task.unread]⟩)
  | @failed url _ _ => exact .inr (.inr ⟨url, rfl, by simp [Task.unread]⟩)
  | @read url _ _ => exact .inr (.inr ⟨url, rfl, by simp [Task.unread]⟩)
  | inner _ ih =>
    simp only [Task.unread, List.flatMap_append, List.flatMap_cons]
    rcases ih with ⟨rfl, hsub⟩ | ⟨url, hfresh, rfl, hperm⟩ | ⟨url, rfl, hperm⟩
    · exact .inl ⟨rfl, (List.Sublist.refl _).append (hsub.append (.refl _))⟩
    · refine .inr (.inl ⟨url, hfresh, rfl, List.perm_iff_count.2 fun a => ?_⟩)
      have hcount := hperm.count_eq a
      simp only [List.count_append, List.count_cons] at hcount ⊢
      omega
    · refine .inr (.inr ⟨url, rfl, List.perm_iff_count.2 fun a => ?_⟩)
      have hcount := hperm.count_eq a
      simp only [List.count_append, List.count_cons] at hcount ⊢
      omega

/-- What is to be read is claimed and not read yet, and all of this only once. -/
structure ReadsOnce (s : Shared) (t : Task) : Prop where
  nodup : (t.unread ++ s.reads).Nodup
  claimed : ∀ u ∈ t.unread ++ s.reads, u ∈ s.claimed

theorem Step.readsOnce (hstep : w.Step s t s' t') (h : ReadsOnce s t) : ReadsOnce s' t' := by
  rcases hstep.unread with ⟨rfl, hsub⟩ | ⟨url, hfresh, rfl, hperm⟩ | ⟨url, rfl, hperm⟩
  · have hless := hsub.append (.refl s'.reads)
    exact ⟨h.nodup.sublist hless, fun u hu => h.claimed u (hless.subset hu)⟩
  · have hmore := hperm.append_right s.reads
    refine ⟨hmore.nodup_iff.2 (h.nodup.cons fun hu => hfresh (h.claimed url hu)), fun u hu => ?_⟩
    rcases List.mem_cons.1 (hmore.mem_iff.1 hu) with rfl | hu
    · exact List.mem_cons_self
    · exact List.mem_cons_of_mem _ (h.claimed u hu)
  · have hsame : (t'.unread ++ url :: s.reads).Perm (t.unread ++ s.reads) :=
      List.perm_middle.trans (hperm.symm.append_right s.reads)
    exact ⟨hsame.nodup_iff.2 h.nodup, fun u hu => h.claimed u (hsame.mem_iff.1 hu)⟩

/-! ## The end of a walk -/

/-- How many steps a task and those below it may take before one of them reads a module. -/
def Task.weight : Task → Nat
  | .resolving _ => 3
  | .claiming _ => 2
  | .reading _ => 1
  | .joining _ children => (children.map weight).sum + 1
  | .finished _ => 0

/-- A step that reads nothing makes what is to be done until then less. -/
theorem Step.descends (hstep : w.Step s t s' t') :
    t'.unread.length < t.unread.length ∨ t'.weight < t.weight := by
  induction hstep with
  | refused | skipped | resolved | known | claimed | joined | cancelled =>
    exact .inr (by simp [Task.weight])
  | failed => exact .inl (by simp [Task.unread])
  | read => exact .inl (by simp [Task.unread, List.length_flatMap, Function.comp_def])
  | inner _ ih =>
    simp only [Task.unread, Task.weight, List.flatMap_append, List.flatMap_cons, List.map_append,
      List.map_cons, List.length_append, List.sum_append, List.sum_cons]
    omega

/-- A task that has not finished, or one below it, can take a step. -/
theorem Follows.progress (h : Follows w known q t claims) (s : Shared) :
    (∃ result, t = .finished result) ∨ ∃ s' t', w.Step s t s' t' := by
  induction h with
  | @resolving r =>
    cases htarget : w.target r with
    | error e => exact .inr ⟨_, _, .refused htarget⟩
    | ok url? =>
      cases url? with
      | none => exact .inr ⟨_, _, .skipped htarget⟩
      | some url => exact .inr ⟨_, _, .resolved htarget⟩
  | @claiming _ url _ =>
    by_cases hurl : url ∈ s.claimed
    · exact .inr ⟨_, _, .known hurl⟩
    · exact .inr ⟨_, _, .claimed hurl⟩
  | @reading _ url _ _ =>
    cases hexports : w.exportsAt url with
    | error e => exact .inr ⟨_, _, .failed hexports⟩
    | ok found => exact .inr ⟨_, _, .read hexports⟩
  | @joining _ _ found branches _ _ _ _ _ ih =>
    right
    by_cases hactive : ∃ b ∈ branches, ∃ s' t', w.Step s b.task s' t'
    · obtain ⟨b, hb, s', t', hstep⟩ := hactive
      obtain ⟨front, back, rfl⟩ := List.append_of_mem hb
      rw [List.map_append, List.map_cons]
      exact ⟨_, _, .inner hstep⟩
    · have hfinished : ∀ b ∈ branches, ∃ result, b.task = .finished result := fun b hb =>
        (ih b hb).resolve_right fun hstep => hactive ⟨b, hb, hstep⟩
      by_cases herror : ∃ b ∈ branches, ∃ e, b.task = .finished (.error e)
      · obtain ⟨b, hb, e, htask⟩ := herror
        exact ⟨_, _, .cancelled (List.mem_map.2 ⟨b, hb, htask⟩)⟩
      · have hfound : branches.map Branch.task ∈
            Set.range (List.map fun more => Task.finished (.ok more)) := by
          rw [Set.range_list_map]
          intro task htask
          obtain ⟨b, hb, rfl⟩ := List.mem_map.1 htask
          obtain ⟨result, hresult⟩ := hfinished b hb
          cases result with
          | ok more => exact ⟨more, hresult.symm⟩
          | error e => exact absurd ⟨b, hb, e, hresult⟩ herror
        obtain ⟨results, hresults⟩ := hfound
        rw [← hresults]
        exact ⟨_, _, .joined⟩
  | done | failed => exact .inl ⟨_, rfl⟩

/-! ## Walks by tasks -/

/-- What holds in every state of a walk by tasks. -/
structure Sound (w : StarWalk) (q : ModuleRequest) (state : Shared × Task) : Prop where
  follows : ∃ claims, claims.Perm state.1.claimed ∧ Follows w state.1.claimed q state.2 claims
  nodup : state.1.claimed.Nodup
  once : ReadsOnce state.1 state.2

variable {specifier : List Char} {state state' : Shared × Task}

theorem sound_start : Sound w ⟨specifier, w.options.anchors⟩ (w.start specifier) :=
  ⟨⟨[], .refl _, .resolving⟩, .nil, ⟨by simp [start, Task.unread], by simp [start, Task.unread]⟩⟩

theorem Sound.claimed_leads (h : Sound w q state) : ∀ u ∈ state.1.claimed, Leads w [q] u := by
  obtain ⟨claims, hperm, hfollows⟩ := h.follows
  exact fun u hu => hfollows.leads u (hperm.mem_iff.2 hu)

theorem Sound.moves (h : Sound w q state) (hmoves : w.Moves state state') : Sound w q state' := by
  obtain ⟨claims, hperm, hfollows⟩ := h.follows
  obtain ⟨new, claims', hclaimed, hperm', hfollows'⟩ := Step.follows hmoves hfollows
  refine ⟨⟨claims', hperm'.trans (hclaimed ▸ hperm.append_left new), hfollows'⟩, ?_,
    Step.readsOnce hmoves h.once⟩
  rcases Step.unread hmoves with ⟨heq, -⟩ | ⟨url, hfresh, heq, -⟩ | ⟨url, heq, -⟩
  · exact heq ▸ h.nodup
  · exact heq ▸ h.nodup.cons hfresh
  · exact heq ▸ h.nodup

theorem sound_of_reachable
    (h : Relation.ReflTransGen w.Moves (w.start specifier) state) :
    Sound w ⟨specifier, w.options.anchors⟩ state := by
  induction h with
  | refl => exact sound_start
  | tail _ hmoves ih => exact ih.moves hmoves

/-- What requests lead to is a file of the tree. -/
theorem Leads.mem_urls (hw : w.resolver.TellsFiles w.tree) {requests : List ModuleRequest}
    {u : List Char} (h : Leads w requests u) : u ∈ w.tree.urls := by
  obtain ⟨q, -, v, hv, hpath⟩ := h
  rcases hpath.cases_tail with rfl | ⟨v', -, star, -, hresolve, hfile⟩
  · obtain ⟨hresolve, hfile⟩ := target_eq_some.1 hv
    exact Resolver.mem_urls_of_tellsFiles hw hresolve hfile
  · exact Resolver.mem_urls_of_tellsFiles hw hresolve hfile

/-- How far a walk by tasks is from its end: how many modules are not read, and what may be done
before the next one is. -/
def distance (w : StarWalk) (state : Shared × Task) : Nat ×ₗ Nat :=
  toLex (w.tree.urls.length - state.1.claimed.length + state.2.unread.length, state.2.weight)

theorem Sound.distance_lt (hw : w.resolver.TellsFiles w.tree) (h : Sound w q state)
    (hmoves : w.Moves state state') : w.distance state' < w.distance state := by
  have hsound := h.moves hmoves
  have hbound : state'.1.claimed.length ≤ w.tree.urls.length :=
    (List.subperm_of_subset hsound.nodup
      fun u hu => (hsound.claimed_leads u hu).mem_urls hw).length_le
  rw [distance, distance, Prod.Lex.toLex_lt_toLex]
  have hdescends := Step.descends hmoves
  rcases Step.unread hmoves with ⟨heq, hsub⟩ | ⟨url, -, heq, hperm⟩ | ⟨url, heq, hperm⟩
  · have hle := hsub.length_le
    rw [heq] at hbound ⊢
    dsimp only
    omega
  · have hlength := hperm.length_eq
    rw [heq] at hbound ⊢
    rw [List.length_cons] at hlength hbound ⊢
    dsimp only
    omega
  · have hlength := hperm.length_eq
    rw [heq] at hbound ⊢
    rw [List.length_cons] at hlength
    dsimp only
    omega

/-- No walk by tasks goes on for ever. -/
theorem not_endless (hw : w.resolver.TellsFiles w.tree) :
    ¬ ∃ run : Nat → Shared × Task,
      run 0 = w.start specifier ∧ ∀ n, w.Moves (run n) (run (n + 1)) := by
  rintro ⟨run, hstart, hmoves⟩
  have hsound : ∀ n, Sound w ⟨specifier, w.options.anchors⟩ (run n) := by
    intro n
    induction n with
    | zero => exact hstart ▸ sound_start
    | succ n ih => exact ih.moves (hmoves n)
  obtain ⟨n, hn⟩ := WellFounded.not_rel_apply_succ (r := (· < ·)) fun n => w.distance (run n)
  exact hn ((hsound n).distance_lt hw (hmoves n))

/-- A walk by tasks has ended exactly when its first task has finished. -/
theorem Sound.ended_iff (h : Sound w q (s, t)) :
    (∀ state, ¬ w.Moves (s, t) state) ↔ ∃ result, t = .finished result := by
  obtain ⟨claims, -, hfollows⟩ := h.follows
  constructor
  · intro hended
    refine (hfollows.progress s).resolve_right ?_
    rintro ⟨s', t', hstep⟩
    exact hended (s', t') hstep
  · rintro ⟨result, rfl⟩ state hmoves
    cases hmoves

/-- What a task that has finished gives is what the walk that follows one star after another
gives. -/
theorem Sound.result_eq (hw : w.resolver.TellsFiles w.tree)
    {result : Except Error (List (List Char))}
    (h : Sound w ⟨specifier, w.options.anchors⟩ (s, .finished result)) :
    (result.map Text.sortDistinct).toOption =
      ((w.run specifier).2.map Text.sortDistinct).toOption := by
  have hwalks := walks_run_of_tellsFiles hw specifier
  obtain ⟨claims, hperm, hfollows⟩ := h.follows
  generalize (w.run specifier).1 = reads, (w.run specifier).2 = walked at hwalks
  cases hfollows with
  | failed hbreaks _ =>
    cases walked with
    | error => rfl
    | ok names => exact absurd hwalks.closed.1 hbreaks.fails.not_closed
  | @done _ names _ hcomplete hleads =>
    -- whatever is claimed at all, this task and those below it have claimed
    have hall : Complete w [] [⟨specifier, w.options.anchors⟩] claims names :=
      hcomplete.mono fun u hu => (List.mem_append.1 hu).elim hperm.mem_iff.2 id
    cases walked with
    | error e => exact absurd (hall.closed hleads).1 hwalks.fails.not_closed
    | ok names' =>
      refine congrArg some (Text.sortDistinct_congr fun n => ?_)
      rw [hall.mem_names hleads n, hwalks.mem_names n]

/-- What is read is claimed, and star exports lead to it. -/
theorem Sound.reads (h : Sound w ⟨specifier, w.options.anchors⟩ (s, t)) :
    s.reads.Nodup ∧ ∀ u ∈ s.reads, u ∈ s.claimed ∧ w.Reaches specifier u := by
  refine ⟨h.once.nodup.of_append_right, fun u hu => ?_⟩
  have hclaimed := h.once.claimed u (List.mem_append_right _ hu)
  exact ⟨hclaimed, leads_iff_reaches.1 (h.claimed_leads u hclaimed)⟩

end StarWalk

/-- **In whatever order tasks take their steps, they find the names that are found by following one
star after another.**  No walk by tasks goes on for ever, and it comes to rest only when its first
task has finished; that gives names exactly when the other walk does, and the same ones.  No module
is read twice, also if the walk fails, and only what a task has claimed. -/
theorem moduleExportNames_tasks (a : Analyzer) (r : Resolver) (tree : FileTree)
    (options : ResolveOptions) (specifier : List Char) (hr : r.TellsFiles tree) :
    let w : StarWalk := ⟨a, r, options, tree⟩
    (¬ ∃ run : Nat → StarWalk.Shared × StarWalk.Task,
      run 0 = w.start specifier ∧ ∀ n, w.Moves (run n) (run (n + 1))) ∧
    ∀ s t, Relation.ReflTransGen w.Moves (w.start specifier) (s, t) →
      ((∀ state, ¬ w.Moves (s, t) state) ↔ ∃ result, t = .finished result) ∧
      (∀ result, t = .finished result → (result.map Text.sortDistinct).toOption =
        (moduleExportNames a r tree options specifier).toOption) ∧
      (∀ e, t = .finished (.error e) → w.Fails specifier e) ∧
      s.reads.Nodup ∧ ∀ u ∈ s.reads, u ∈ s.claimed ∧ w.Reaches specifier u := by
  intro w
  refine ⟨StarWalk.not_endless hr, fun s t hrun => ?_⟩
  have hsound := StarWalk.sound_of_reachable hrun
  refine ⟨hsound.ended_iff, ?_, ?_, hsound.reads⟩
  · rintro result rfl
    rw [moduleExportNames_eq w specifier]
    exact hsound.result_eq hr
  · rintro e rfl
    obtain ⟨claims, -, hfollows⟩ := hsound.follows
    cases hfollows with
    | failed hbreaks _ => exact hbreaks.fails

/-! ### Two tasks after one module -/

/-- A module that passes on the names of another one twice. -/
def racedFirst : List Char := "export{a};export*from'./b.mjs';export*from'./b.mjs'".toList

/-- A module that passes on those of the first one. -/
def racedSecond : List Char := "export{b};export*from'./a.mjs'".toList

/-- A walk with the usual analyzer in a tree with these two modules. -/
def racedWalk : StarWalk where
  analyzer := .standard
  resolver := .new (.new [FilePath.slash]) .none
  options := .none
  tree := ⟨[([FilePath.ofText "a.mjs".toList], .file (Utf8.encode racedFirst)),
    ([FilePath.ofText "b.mjs".toList], .file (Utf8.encode racedSecond))], []⟩

/-- What the confirmed candidates of a source export, if they stand in their order. -/
def candidateExports? (source : List Char) : Option ModuleExports :=
  match Analyzer.standard.confirmed source .exportKw ExportRecord.span
    (ExportRecord.candidates source) with
  | .error _ => none
  | .ok records =>
    if records.Pairwise fun x y => ExportRecord.before x y = true then
      some (.ofRecords (ExportRecord.collapse records))
    else none

theorem racedWalk_exportsAt {u : List Char} {found : ModuleExports} (source : List Char)
    (hload : Id.load racedWalk.tree u = .ok source) (h : candidateExports? source = some found) :
    racedWalk.exportsAt u = .ok found := by
  unfold candidateExports? at h
  split at h
  · cases h
  · rename_i records hconfirmed
    obtain ⟨hsorted, hfound⟩ := Option.ite_none_right_eq_some.1 h
    have hsort : records.mergeSort ExportRecord.before = records :=
      List.mergeSort_of_pairwise hsorted
    refine StarWalk.exportsAt_eq_ok.2 ⟨_, ⟨source, hload, ?_⟩, (Option.some.inj hfound).symm⟩
    show Except.map _ (Analyzer.standard.confirmed _ _ _ _) = _
    rw [hconfirmed, Except.map, hsort]

/-- The later one of two tasks claims the second module, and the earlier one finds it claimed. -/
theorem moduleExportNames_tasks_raced :
    racedWalk.resolver.TellsFiles racedWalk.tree ∧
    Relation.ReflTransGen racedWalk.Moves (racedWalk.start "./a.mjs".toList)
      (⟨["file:///b.mjs".toList, "file:///a.mjs".toList],
        ["file:///b.mjs".toList, "file:///a.mjs".toList]⟩,
        .finished (.ok ["a".toList, "b".toList])) ∧
    (moduleExportNames racedWalk.analyzer racedWalk.resolver racedWalk.tree racedWalk.options
      "./a.mjs".toList).toOption = some (Text.sortDistinct ["a".toList, "b".toList]) := by
  set w := racedWalk
  let a : List Char := "file:///a.mjs".toList
  let b : List Char := "file:///b.mjs".toList
  let toA : ModuleRequest := ⟨"./a.mjs".toList, [b]⟩
  let toB : ModuleRequest := ⟨"./b.mjs".toList, [a]⟩
  have hstart : w.target ⟨"./a.mjs".toList, w.options.anchors⟩ = .ok (some a) :=
    StarWalk.target_eq_some.2
      ⟨by rw [Resolver.resolve_relative rfl (by decide)]; decide +kernel, rfl⟩
  have htoA : w.target toA = .ok (some a) :=
    StarWalk.target_eq_some.2
      ⟨by rw [Resolver.resolve_relative rfl (by decide)]; decide +kernel, rfl⟩
  have htoB : w.target toB = .ok (some b) :=
    StarWalk.target_eq_some.2
      ⟨by rw [Resolver.resolve_relative rfl (by decide)]; decide +kernel, rfl⟩
  have hexportsA : w.exportsAt a =
      .ok ⟨["a".toList], ["./b.mjs".toList, "./b.mjs".toList]⟩ := by
    refine racedWalk_exportsAt racedFirst (by decide +kernel) ?_
    unfold racedFirst
    repeat rw [String.toList_ofList]
    decide +kernel
  have hexportsB : w.exportsAt b = .ok ⟨["b".toList], ["./a.mjs".toList]⟩ := by
    refine racedWalk_exportsAt racedSecond (by decide +kernel) ?_
    unfold racedSecond
    repeat rw [String.toList_ofList]
    decide +kernel
  let ofA (earlier later : StarWalk.Task) : StarWalk.Task := .joining ["a".toList] [earlier, later]
  have hearlier {s s' t t' u} (h : w.Step s t s' t') : w.Moves (s, ofA t u) (s', ofA t' u) :=
    @StarWalk.Step.inner w s s' t t' ["a".toList] [] [u] h
  have hlater {s s' t t' u} (h : w.Step s t s' t') : w.Moves (s, ofA u t) (s', ofA u t') :=
    @StarWalk.Step.inner w s s' t t' ["a".toList] [u] [] h
  have hbelow {s s' t t' u} (h : w.Step s t s' t') :
      w.Moves (s, ofA u (.joining ["b".toList] [t])) (s', ofA u (.joining ["b".toList] [t'])) :=
    hlater (@StarWalk.Step.inner w s s' t t' ["b".toList] [] [] h)
  have hfirst {s s' t t'} (h : w.Step s t s' t') : w.Moves (s, t) (s', t') := h
  have hrun : Relation.ReflTransGen w.Moves (w.start "./a.mjs".toList)
      (⟨[b, a], [b, a]⟩, .finished (.ok ["a".toList, "b".toList])) := by
    refine .head (hfirst (.resolved hstart)) ?_
    refine .head (hfirst (.claimed List.not_mem_nil)) ?_
    refine .head (b := (⟨[a], [a]⟩, ofA (.resolving toB) (.resolving toB)))
      (hfirst (.read hexportsA)) ?_
    refine .head (hearlier (.resolved htoB)) ?_
    refine .head (hlater (.resolved htoB)) ?_
    refine .head (hlater (.claimed (by decide))) ?_
    refine .head (hearlier (.known List.mem_cons_self)) ?_
    refine .head (b := (⟨[b, a], [b, a]⟩, ofA (.finished (.ok []))
      (.joining ["b".toList] [.resolving toA]))) (hlater (.read hexportsB)) ?_
    refine .head (hbelow (.resolved htoA)) ?_
    refine .head (hbelow (.known (by decide))) ?_
    refine .head (hlater (@StarWalk.Step.joined w _ ["b".toList] [[]])) ?_
    exact .single (@StarWalk.Step.joined w _ ["a".toList] [[], ["b".toList]])
  have hr : w.resolver.TellsFiles w.tree := Resolver.tellsFiles_new
  obtain ⟨-, hresult, -⟩ := (moduleExportNames_tasks w.analyzer w.resolver w.tree w.options
    "./a.mjs".toList hr).2 _ _ hrun
  exact ⟨hr, hrun, (hresult _ rfl).symm⟩

end EsModules
