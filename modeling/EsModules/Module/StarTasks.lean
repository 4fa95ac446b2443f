import EsModules.Module.ExportNames

/-!
# Star exports followed by tasks

The star exports of a module can be followed at the same time, by one task for each of them.  A
task finds its module, claims it unless another one has, reads it, and then waits for the tasks
that follow the module's own star exports.  What the tasks share is the set of modules that are
claimed; a task that finds its module claimed has nothing to add.

The steps of tasks are taken in any order.  A walk has ended when its first task has finished.

* `StarWalk.Task`: how far a task has come.
* `StarWalk.Step`: one step of one task.
* `StarWalk.Moves`, `StarWalk.start`: the steps of a walk, and where it starts.
-/

namespace EsModules.StarWalk

/-- What the tasks of a walk share. -/
structure Shared where
  /-- The modules that a task has claimed, the last one first. -/
  claimed : List (List Char)
  /-- The modules that a task has read, the last one first. -/
  reads : List (List Char)
  deriving DecidableEq, Repr

/-- How far a task has come. -/
inductive Task
  /-- It is to find the module of a request. -/
  | resolving (q : ModuleRequest)
  /-- It is to claim the module at a URL. -/
  | claiming (url : List Char)
  /-- It is to read the module at a URL, which it has claimed. -/
  | reading (url : List Char)
  /-- It has found names, and waits for the tasks that follow the stars of its module. -/
  | joining (names : List (List Char)) (children : List Task)
  /-- It has ended. -/
  | finished (result : Except Error (List (List Char)))

/-- One step of one task: what is shared and the task, before and after it. -/
inductive Step (w : StarWalk) : Shared → Task → Shared → Task → Prop
  /-- The module is not found. -/
  | refused {s q e} : w.target q = .error e →
      Step w s (.resolving q) s (.finished (.error e))
  /-- The request leads to no file. -/
  | skipped {s q} : w.target q = .ok none → Step w s (.resolving q) s (.finished (.ok []))
  | resolved {s q url} : w.target q = .ok (some url) →
      Step w s (.resolving q) s (.claiming url)
  /-- Another task has claimed the module. -/
  | known {s url} : url ∈ s.claimed → Step w s (.claiming url) s (.finished (.ok []))
  /-- The test and the claim are one step. -/
  | claimed {s url} : url ∉ s.claimed →
      Step w s (.claiming url) { s with claimed := url :: s.claimed } (.reading url)
  | failed {s url e} : w.exportsAt url = .error e →
      Step w s (.reading url) { s with reads := url :: s.reads } (.finished (.error e))
  | read {s url found} : w.exportsAt url = .ok found →
      Step w s (.reading url) { s with reads := url :: s.reads }
        (.joining found.names (found.stars.map fun star => .resolving ⟨star, [url]⟩))
  /-- One of the tasks that are waited for takes a step. -/
  | inner {s s' t t' names before after} : Step w s t s' t' →
      Step w s (.joining names (before ++ t :: after)) s' (.joining names (before ++ t' :: after))
  /-- All tasks that are waited for have given names. -/
  | joined {s names} {found : List (List (List Char))} :
      Step w s (.joining names (found.map fun more => .finished (.ok more))) s
        (.finished (.ok (names ++ found.flatten)))
  /-- One of the tasks that are waited for has failed; the others are dropped where they are. -/
  | cancelled {s names children e} : .finished (.error e) ∈ children →
      Step w s (.joining names children) s (.finished (.error e))

/-- A walk by tasks takes a step. -/
def Moves (w : StarWalk) (before after : Shared × Task) : Prop :=
  w.Step before.1 before.2 after.1 after.2

/-- A walk by tasks before its first step: one task, and nothing claimed. -/
def start (w : StarWalk) (specifier : List Char) : Shared × Task :=
  (⟨[], []⟩, .resolving ⟨specifier, w.options.anchors⟩)

end EsModules.StarWalk
