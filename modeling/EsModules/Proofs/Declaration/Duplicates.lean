import EsModules.Proofs.Declaration.Place
import Mathlib.Data.List.SplitBy

/-!
# Duplicates that stand next to each other

A list of export records is divided into runs of neighbours that export the same name in the same
way; a record without a name is a run of its own.  There is one way to do so with runs as long as
they can be, and collapsing the list leaves the last record of each run.

* `ExportRecord.Repeats`: the same name, exported in the same way.
* `ExportRecord.AreRuns`, `ExportRecord.areRuns_iff`: the runs of a list.
* `ExportRecord.collapse_append_run`: what collapsing leaves of one run.
* `ExportRecord.collapse_lastOfRuns`: what it leaves of a list, and what follows from that.
-/

namespace EsModules.ExportRecord

variable {a b c : ExportRecord} {records run rest : List ExportRecord}
  {runs : List (List ExportRecord)}

/-! ## Runs -/

/-- Two records export the same name, and in the same way. -/
def Repeats (a b : ExportRecord) : Prop := a.kind = b.kind ∧ a.name = b.name ∧ a.name ≠ none

theorem sameName_iff : a.sameName b = true ↔ a.Repeats b := by
  unfold sameName Repeats
  rw [Bool.and_eq_true, Bool.and_eq_true, beq_iff_eq, beq_iff_eq, Option.isSome_iff_ne_none,
    and_assoc, and_comm (a := a.name ≠ none)]

theorem sameName_eq_false_iff : a.sameName b = false ↔ ¬ a.Repeats b := by
  rw [← sameName_iff, Bool.not_eq_true]

theorem Repeats.symm (h : a.Repeats b) : b.Repeats a := ⟨h.1.symm, h.2.1.symm, h.2.1 ▸ h.2.2⟩

theorem Repeats.trans (hab : a.Repeats b) (hbc : b.Repeats c) : a.Repeats c :=
  ⟨hab.1.trans hbc.1, hab.2.1.trans hbc.2.1, hab.2.2⟩

/-- Records that repeat their neighbours repeat each other. -/
theorem isChain_repeats_iff : run.IsChain Repeats ↔ run.Pairwise Repeats := by
  have : Trans Repeats Repeats Repeats := ⟨Repeats.trans⟩
  exact List.isChain_iff_pairwise

/-- The runs of a list of records: one behind the other they are the list, the records of a run
repeat each other, and no run can be longer: its last record does not repeat the first one of the
next run. -/
structure AreRuns (records : List ExportRecord) (runs : List (List ExportRecord)) : Prop where
  flatten : runs.flatten = records
  ne_nil : [] ∉ runs
  alike : ∀ run ∈ runs, run.Pairwise Repeats
  maximal : runs.IsChain fun run next => ∀ a ∈ run.getLast?, ∀ b ∈ next.head?, ¬ a.Repeats b

/-- **A list of records has one division into runs.** -/
theorem areRuns_iff : AreRuns records runs ↔ records.splitBy sameName = runs := by
  have halike : ∀ run : List ExportRecord,
      run.IsChain (fun a b => a.sameName b = true) ↔ run.Pairwise Repeats := by
    intro run
    simp only [sameName_iff, isChain_repeats_iff]
  have hends : [] ∉ runs → ∀ run next, run ∈ runs → next ∈ runs →
      ((∀ a ∈ run.getLast?, ∀ b ∈ next.head?, ¬ a.Repeats b) ↔
        ∃ hrun hnext, (run.getLast hrun).sameName (next.head hnext) = false) := by
    intro hnil run next hrun hnext
    have hrun : run ≠ [] := ne_of_mem_of_not_mem hrun hnil
    have hnext : next ≠ [] := ne_of_mem_of_not_mem hnext hnil
    simp [hrun, hnext, List.getLast?_eq_some_getLast, List.head?_eq_some_head,
      sameName_eq_false_iff]
  rw [List.splitBy_eq_iff]
  constructor
  · rintro ⟨hflatten, hnil, hpairs, hmaximal⟩
    exact ⟨hflatten.symm, hnil, fun run hrun => (halike run).2 (hpairs run hrun),
      (List.IsChain.iff_of_mem_imp (hends hnil)).1 hmaximal⟩
  · rintro ⟨hflatten, hnil, hchains, hmaximal⟩
    exact ⟨hflatten.symm, hnil, fun run hrun => (halike run).1 (hchains run hrun),
      (List.IsChain.iff_of_mem_imp (hends hnil)).2 hmaximal⟩

/-! ## What is left -/

theorem collapse_cons_of_repeats (h : a.Repeats b) :
    collapse (a :: b :: rest) = collapse (b :: rest) := by
  rw [collapse, if_pos (sameName_iff.2 h)]

theorem collapse_cons_of_not_repeats (h : ∀ b ∈ rest.head?, ¬ a.Repeats b) :
    collapse (a :: rest) = a :: collapse rest := by
  cases rest with
  | nil => rfl
  | cons b rest => rw [collapse, if_neg fun hsame => h b rfl (sameName_iff.1 hsame)]

/-- Of a run that the next record does not go on with, the last record is left. -/
theorem collapse_append_run (hrun : run.IsChain Repeats) (hlast : run.getLast? = some a)
    (hrest : ∀ b ∈ rest.head?, ¬ a.Repeats b) : collapse (run ++ rest) = a :: collapse rest := by
  induction run with
  | nil => cases hlast
  | cons b run ih =>
    cases run with
    | nil =>
      obtain rfl := Option.some.inj hlast
      exact collapse_cons_of_not_repeats hrest
    | cons c run =>
      obtain ⟨hrepeats, hrun⟩ := List.isChain_cons_cons.1 hrun
      rw [List.cons_append, List.cons_append, collapse_cons_of_repeats hrepeats]
      exact ih hrun (by simpa using hlast)

/-- Collapsing leaves the last record of each run, in their order. -/
theorem AreRuns.forall₂_getLast? (h : AreRuns records runs) :
    List.Forall₂ (fun run a => run.getLast? = some a) runs (collapse records) := by
  obtain ⟨rfl, hnil, halike, hmaximal⟩ := h
  induction runs with
  | nil => exact .nil
  | cons run runs ih =>
    rw [List.mem_cons, not_or] at hnil
    obtain ⟨hrun, halike⟩ := List.forall_mem_cons.1 halike
    obtain ⟨hends, hmaximal⟩ := List.isChain_cons.1 hmaximal
    have hlast : run.getLast? = some (run.getLast (Ne.symm hnil.1)) :=
      List.getLast?_eq_some_getLast _
    have hrest : ∀ b ∈ runs.flatten.head?, ¬ (run.getLast (Ne.symm hnil.1)).Repeats b := by
      intro b hb
      cases runs with
      | nil => cases hb
      | cons next runs =>
        have hnext : next ≠ [] := fun heq => hnil.2 (heq ▸ List.mem_cons_self)
        refine hends next rfl _ hlast b ?_
        rwa [List.flatten_cons, List.head?_append_of_ne_nil _ hnext] at hb
    rw [List.flatten_cons, collapse_append_run (isChain_repeats_iff.2 hrun) hlast hrest]
    exact .cons hlast (ih hnil.2 halike hmaximal)

/-- What stands first behind collapsing repeats what stood first before. -/
theorem head?_collapse (h : ¬ a.Repeats b) (c : ExportRecord)
    (hc : c ∈ (collapse (b :: rest)).head?) : ¬ a.Repeats c := by
  induction rest generalizing b with
  | nil =>
    obtain rfl := Option.some.inj hc
    exact h
  | cons next rest ih =>
    by_cases hrepeats : b.Repeats next
    · rw [collapse_cons_of_repeats hrepeats] at hc
      exact ih (fun hnext => h (hnext.trans hrepeats.symm)) hc
    · rw [collapse, if_neg (mt sameName_iff.1 hrepeats)] at hc
      obtain rfl := Option.some.inj hc
      exact h

/-- No record that is left repeats the one in front of it: dropping records makes no new
duplicates. -/
theorem isChain_collapse (records : List ExportRecord) :
    (collapse records).IsChain fun a b => ¬ a.Repeats b := by
  fun_induction collapse records with
  | case1 => exact .nil
  | case2 a => exact .singleton a
  | case3 a next rest _ ih => exact ih
  | case4 a next rest hsame ih =>
    exact List.isChain_cons.2 ⟨head?_collapse (mt sameName_iff.2 hsame), ih⟩

/-- A list without duplicates is left alone. -/
theorem collapse_eq_self (h : records.IsChain fun a b => ¬ a.Repeats b) :
    collapse records = records := by
  induction records with
  | nil => rfl
  | cons a records ih =>
    obtain ⟨hfirst, hrest⟩ := List.isChain_cons.1 h
    rw [collapse_cons_of_not_repeats hfirst, ih hrest]

/-- Records without a name are never dropped. -/
theorem filter_collapse {keep : ExportRecord → Bool} (hkeep : ∀ r, keep r = true → r.name = none)
    (records : List ExportRecord) : (collapse records).filter keep = records.filter keep := by
  fun_induction collapse records with
  | case1 => rfl
  | case2 a => rfl
  | case3 a next rest hsame ih =>
    have hdropped : ¬ keep a = true := fun ha => (sameName_iff.1 hsame).2.2 (hkeep a ha)
    rw [ih, List.filter_cons_of_neg hdropped]
  | case4 a next rest _ ih => rw [List.filter_cons, List.filter_cons, ih]

/-- **Collapsing duplicates.**  A list of records has exactly one division into runs, and what is
left is the last record of each run, in order.  So it is a sublist in which no record repeats the
one in front of it, collapsing it again changes nothing, and all unnamed star exports are left. -/
theorem collapse_lastOfRuns (records : List ExportRecord) :
    (∃ runs, (∀ other, AreRuns records other ↔ other = runs) ∧
      List.Forall₂ (fun run a => run.getLast? = some a) runs (collapse records)) ∧
    (collapse records).Sublist records ∧
    (collapse records).IsChain (fun a b => ¬ a.Repeats b) ∧
    collapse (collapse records) = collapse records ∧
    (collapse records).filter (fun r => r.kind == .star && r.name.isNone) =
      records.filter fun r => r.kind == .star && r.name.isNone := by
  refine ⟨⟨records.splitBy sameName, fun other => areRuns_iff.trans eq_comm, ?_⟩,
    collapse_sublist records, isChain_collapse records, collapse_eq_self (isChain_collapse records),
    filter_collapse (fun r hr => ?_) records⟩
  · exact (areRuns_iff.2 rfl).forall₂_getLast?
  · simp only [Bool.and_eq_true, Option.isNone_iff_eq_none] at hr
    exact hr.2

/-- No record that a finder gives repeats the one in front of it. -/
theorem isChain_of_exports {an : Analyzer} {source : List Char} {found : List ExportRecord}
    (h : an.exports source = .ok found ∨ an.typeExports source = .ok found) :
    found.IsChain fun a b => ¬ a.Repeats b := by
  rcases h with h | h
  · obtain ⟨kept, -, rfl⟩ := map_eq_ok.1 h
    exact isChain_collapse _
  · obtain ⟨kept, -, rfl⟩ := map_eq_ok.1 h
    exact isChain_collapse _

end EsModules.ExportRecord
