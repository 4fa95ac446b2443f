import EsModules.Proofs.Resolution.ProjectPackages
import Mathlib.Data.List.Infix

/-!
# Placing projects

What a file tree holds is a project if no link is among it, and it can be placed below any names
that lie in no package and hold no marks.  Nothing else stands there.

* `Project.ofTree`: the project that a file tree holds.
* `FileTree.placed`, `Site.placed`: a project below names.
* `Project.mem_manifests`: the manifests in a project.
-/

namespace EsModules

open FilePath

/-! ## Trees below names -/

namespace FileTree

variable {names front : List FilePath} {t : FileTree}

/-- The tree that holds another one below some names, and otherwise nothing. -/
def placed (names : List FilePath) (t : FileTree) : FileTree where
  entries := (names.inits.drop 1).map (·, .directory) ++ t.entries.map fun e => (names ++ e.1, e.2)
  cwd := names

theorem mem_drop_inits (h : front <+: names) (hne : front ≠ []) : front ∈ names.inits.drop 1 := by
  cases names with
  | nil => exact absurd (List.prefix_nil.1 h) hne
  | cons n names =>
    have hmem := (List.mem_inits _ _).2 h
    rw [List.inits_cons, List.mem_cons] at hmem
    rw [List.inits_cons]
    exact hmem.resolve_left hne

theorem prefix_of_mem_drop_inits (h : front ∈ names.inits.drop 1) : front <+: names :=
  (List.mem_inits _ _).1 (List.mem_of_mem_drop h)

/-- The names lead through directories. -/
theorem find?_placed_front (h : front <+: names) :
    (placed names t).find? front = some .directory := by
  unfold find?
  split
  · rfl
  rename_i hfront
  have hmem := mem_drop_inits h (by simpa using hfront)
  have hfound : ((names.inits.drop 1).map fun place => (place, Entry.directory)).find?
      (fun e => e.1 == front) = some (front, .directory) := by
    rw [List.find?_map]
    have hpred : ((fun e : List FilePath × Entry => e.1 == front) ∘
        fun place => (place, Entry.directory)) = fun place => place == front := rfl
    rw [hpred]
    cases hsome : (names.inits.drop 1).find? fun place => place == front with
    | none =>
      have hno := List.find?_eq_none.1 hsome front hmem
      simp at hno
    | some place =>
      have heq := List.find?_some hsome
      rw [eq_of_beq heq]
      rfl
  unfold placed
  rw [List.find?_append, hfound]
  rfl

/-- **What stands below the names** is what the tree holds. -/
theorem find?_placed (names : List FilePath) (t : FileTree) (place : List FilePath) :
    (placed names t).find? (names ++ place) = t.find? place := by
  by_cases hplace : place = []
  · subst hplace
    rw [List.append_nil, find?_placed_front (List.prefix_refl names)]
    rfl
  have hnone : ((names.inits.drop 1).map fun place => (place, Entry.directory)).find?
      (fun e => e.1 == names ++ place) = none := by
    refine List.find?_eq_none.2 fun e he => ?_
    obtain ⟨front, hfront, rfl⟩ := List.mem_map.1 he
    have hshort := (prefix_of_mem_drop_inits hfront).length_le
    have hlong := List.length_pos_iff.2 hplace
    intro heq
    have hlength : front.length = (names ++ place).length := congrArg List.length (eq_of_beq heq)
    rw [List.length_append] at hlength
    omega
  have hbelow : ((fun e : List FilePath × Entry => e.1 == names ++ place) ∘
      fun e : List FilePath × Entry => (names ++ e.1, e.2)) = fun e => e.1 == place := by
    funext e
    simp
  unfold find? placed
  rw [List.find?_append, hnone, Option.none_or, List.find?_map, hbelow, Option.map_map]
  simp [hplace]
  rfl

theorem mem_entries_placed {e : List FilePath × Entry} (h : e ∈ (placed names t).entries) :
    (e.1 <+: names ∧ e.2 = .directory) ∨ ∃ old ∈ t.entries, e = (names ++ old.1, old.2) := by
  rcases List.mem_append.1 h with h | h
  · obtain ⟨front, hfront, rfl⟩ := List.mem_map.1 h
    exact .inl ⟨prefix_of_mem_drop_inits hfront, rfl⟩
  · obtain ⟨old, hold, rfl⟩ := List.mem_map.1 h
    exact .inr ⟨old, hold, rfl⟩

theorem isWellFormed_placed (h : t.IsWellFormed) (hnames : ∀ n ∈ names, isName n = true) :
    (placed names t).IsWellFormed where
  named := by
    intro e he n hn
    rcases mem_entries_placed he with ⟨hfront, -⟩ | ⟨old, hold, rfl⟩
    · exact hnames n (hfront.subset hn)
    · rcases List.mem_append.1 hn with hn | hn
      · exact hnames n hn
      · exact h.named old hold n hn
  inDirectory := by
    intro e he
    rcases mem_entries_placed he with ⟨hfront, -⟩ | ⟨old, hold, rfl⟩
    · exact find?_placed_front ((List.dropLast_prefix _).trans hfront)
    · by_cases hne : old.1 = []
      · rw [hne, List.append_nil]
        exact find?_placed_front (List.dropLast_prefix _)
      · rw [List.dropLast_append_of_ne_nil hne, find?_placed]
        exact h.inDirectory old hold

/-- Above the names there is nothing but what they lead through. -/
theorem find?_placed_above (hproper : front <+: names) (hne : front ≠ names) {n : FilePath}
    (hn : n ∉ names) : (placed names t).find? (front ++ [n]) = none := by
  refine Option.eq_none_iff_forall_ne_some.2 fun e he => ?_
  have hmem := (eq_nil_or_mem_of_find? he).resolve_left (by simp)
  obtain ⟨entry, hentry, hplace⟩ := List.mem_map.1 hmem
  rcases mem_entries_placed hentry with ⟨hwithin, -⟩ | ⟨old, hold, rfl⟩
  · rw [hplace] at hwithin
    exact hn (hwithin.subset (by simp))
  · have hshort : front.length < names.length :=
      lt_of_le_of_ne hproper.length_le fun hlength => hne (hproper.eq_of_length hlength)
    have hlength := congrArg List.length hplace
    simp only [List.length_append, List.length_singleton] at hlength
    have hempty : old.1 = [] := List.length_eq_zero_iff.1 (by omega)
    have hnames : names = front ++ [n] := by simpa [hempty] using hplace
    refine hn ?_
    rw [hnames]
    simp

end FileTree

/-! ## Projects in trees -/

namespace Project

/-- The project that a file tree without links holds. -/
def ofTree (t : FileTree) (h : ∀ e ∈ t.entries, ∀ target, e.2 ≠ .link target) : Project where
  find? := t.find?
  directory := rfl
  noLinks := by
    intro place target hfind
    unfold FileTree.find? at hfind
    split at hfind
    · cases hfind
    · obtain ⟨e, he, hlink⟩ := Option.map_eq_some_iff.1 hfind
      exact h e (List.mem_of_find?_eq_some he) target hlink

/-- The manifests in a file tree, each with its directory. -/
def manifests (t : FileTree) : List (List FilePath × Manifest) :=
  t.entries.filterMap fun e => match e.2 with
    | .file content => if e.1.getLast? == some Manifest.fileName then
        ((Utf8.decode? content).bind JsonValue.parse?).map fun v => (e.1.dropLast, .ofJson v)
      else none
    | _ => none

variable {t : FileTree} {hlinks : ∀ e ∈ t.entries, ∀ target, e.2 ≠ .link target}

/-- **The manifests in a project** are among those in its tree. -/
theorem mem_manifests {dir : List FilePath} {m : Manifest}
    (h : (ofTree t hlinks).HasManifest dir m) : (dir, m) ∈ manifests t := by
  obtain ⟨content, text, v, hfind, hdecode, hparse, rfl⟩ := h
  have hfind' : t.find? (dir ++ [Manifest.fileName]) = some (.file content) := hfind
  unfold FileTree.find? at hfind'
  rw [if_neg (by simp)] at hfind'
  obtain ⟨⟨place, entry⟩, he, rfl⟩ := Option.map_eq_some_iff.1 hfind'
  have hplace : place = dir ++ [Manifest.fileName] := by simpa using List.find?_some he
  subst hplace
  refine List.mem_filterMap.2 ⟨_, List.mem_of_find?_eq_some he, ?_⟩
  simp [hdecode, hparse]

/-- The names in a project are those in its tree. -/
theorem mem_place_of_find? {place : List FilePath} {e : Entry}
    (h : (ofTree t hlinks).find? place = some e) {n : FilePath} (hn : n ∈ place) :
    ∃ entry ∈ t.entries, n ∈ entry.1 := by
  have hne : place ≠ [] := List.ne_nil_of_mem hn
  obtain ⟨entry, hentry, rfl⟩ :=
    List.mem_map.1 ((FileTree.eq_nil_or_mem_of_find? h).resolve_left hne)
  exact ⟨entry, hentry, hn⟩

end Project

/-! ## Placed projects -/

/-- Whether a project may lie below a name. -/
def isSiteName (n : FilePath) : Bool :=
  isName n && markBytes.all (fun b => !n.contains b) &&
    n != PackageScope.installDir && n != Manifest.fileName

/-- **A project below names**, with nothing beside it. -/
def Site.placed {t : FileTree} (ht : t.IsWellFormed)
    (hlinks : ∀ e ∈ t.entries, ∀ target, e.2 ≠ .link target) (names : List FilePath)
    (hne : names ≠ []) (hnames : ∀ n ∈ names, isSiteName n = true) (reach : Nat)
    (hroom : (ofNames names).length + reach < FileTree.maxPath) :
    Site (Project.ofTree t hlinks) reach where
  tree := .placed names t
  names := names
  wellFormed := FileTree.isWellFormed_placed ht fun n hn => by
    have hn := hnames n hn
    simp only [isSiteName, Bool.and_eq_true] at hn
    exact hn.1.1.1
  ne_nil := hne
  plain := by
    intro n hn b hb hmem
    have hn := hnames n hn
    simp only [isSiteName, Bool.and_eq_true, List.all_eq_true] at hn
    have hmark := hn.1.1.2 b hb
    simp [hmem] at hmark
  notInstalled := fun hmem => by simpa [isSiteName] using hnames _ hmem
  bare := by
    intro front hfront hproper n hn
    refine FileTree.find?_placed_above hfront hproper fun hmem => ?_
    have hname := hnames n hmem
    simp only [isSiteName, Bool.and_eq_true, bne_iff_ne] at hname
    rcases List.mem_cons.1 hn with rfl | hn
    · exact hname.2 rfl
    · exact hname.1.2 (List.mem_singleton.1 hn)
  holds := FileTree.find?_placed names t
  room := hroom

end EsModules
