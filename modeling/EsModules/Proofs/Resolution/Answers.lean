import EsModules.Proofs.Resolution.Search

/-!
# What a resolver answers

A resolver that resolves single specifiers as Node does answers with a URL of one of two kinds: one
that names no file, or the file URL of a place at which a walk through the file tree ends.  There
are only finitely many of the latter.

* `FileTree.mem_ends_of_locate`: every path leads to one of the places at which walks end.
* `FileTree.urls`: the file URLs of such places.
* `Resolver.mem_urls_of_tellsFiles`: every file URL that is an answer is one of these, if what is
  no file is not spelled like one.
-/

namespace EsModules

/-! ## Where walks end -/

namespace FileTree

variable {t : FileTree} {place : List FilePath}

/-- What stands in a tree stands at the root or at one of its entries. -/
theorem eq_nil_or_mem_of_find? {e : Entry} (h : t.find? place = some e) :
    place = [] ∨ place ∈ t.entries.map (·.1) := by
  unfold find? at h
  split at h
  · rename_i hempty
    exact .inl (List.isEmpty_iff.1 hempty)
  · obtain ⟨entry, hfind, -⟩ := Option.map_eq_some_iff.1 h
    have hplace : entry.1 = place := by simpa using List.find?_some hfind
    exact .inr (List.mem_map.2 ⟨entry, List.mem_of_find?_eq_some hfind, hplace⟩)

theorem mem_ends_of_find? {e : Entry} (h : t.find? place = some e) : place ∈ t.ends := by
  rcases eq_nil_or_mem_of_find? h with rfl | hmem
  · exact List.mem_cons_self
  · exact List.mem_cons_of_mem _ (List.mem_cons_of_mem _ (List.mem_append_left _ hmem))

/-- The place above something in a tree is one at which walks can end. -/
theorem dropLast_mem_ends_of_find? {e : Entry} (h : t.find? place = some e) :
    place.dropLast ∈ t.ends := by
  rcases eq_nil_or_mem_of_find? h with rfl | hmem
  · exact List.mem_cons_self
  · obtain ⟨entry, hentry, rfl⟩ := List.mem_map.1 hmem
    refine List.mem_cons_of_mem _ (List.mem_cons_of_mem _ (List.mem_append_right _ ?_))
    exact List.mem_map.2 ⟨entry, hentry, rfl⟩

/-- A walk that starts at one of these places ends at one of them, if it does so behind links. -/
theorem mem_ends_of_walkWith {followLast : Bool}
    {follow : FilePath → List FilePath → List FilePath → Except IoError (List FilePath)}
    (hfollow : ∀ target place rest place', place ∈ t.ends →
      follow target place rest = .ok place' → place' ∈ t.ends)
    {steps place' : List FilePath} (hplace : place ∈ t.ends)
    (h : t.walkWith followLast follow place steps = .ok place') : place' ∈ t.ends := by
  fun_induction walkWith t followLast follow place steps with
  | case1 => exact Except.ok.inj h ▸ hplace
  | case2 | case5 | case6 => cases h
  | case3 _ _ _ _ _ ih => exact ih hplace h
  | case4 place _ _ hdir _ _ ih =>
    have hfind : t.find? place = some .directory := by simpa using hdir
    exact ih (dropLast_mem_ends_of_find? hfind) h
  | case7 _ _ _ _ _ _ _ _ hfind _ => exact Except.ok.inj h ▸ mem_ends_of_find? hfind
  | case8 => exact hfollow _ _ _ _ hplace h
  | case9 _ _ _ _ _ _ _ _ _ hfind ih => exact ih (mem_ends_of_find? hfind) h

theorem mem_ends_of_walk {followLast : Bool} {links : Nat} {steps place' : List FilePath}
    (hplace : place ∈ t.ends) (h : t.walk followLast links place steps = .ok place') :
    place' ∈ t.ends := by
  induction links generalizing place steps place' with
  | zero => exact mem_ends_of_walkWith (fun _ _ _ _ _ h => by cases h) hplace h
  | succ links ih =>
    refine mem_ends_of_walkWith (fun target place rest place' hplace h => ?_) hplace h
    split at h
    · cases h
    · refine ih ?_ h
      split
      · exact List.mem_cons_self
      · exact hplace

/-- Every path leads to one of the places at which walks end. -/
theorem mem_ends_of_locate {p : FilePath} (h : t.locate p = .ok place) : place ∈ t.ends := by
  unfold locate at h
  split at h
  · cases h
  split at h
  · cases h
  split at h
  · cases h
  refine mem_ends_of_walk ?_ h
  split
  · exact List.mem_cons_self
  · exact List.mem_cons_of_mem _ List.mem_cons_self

/-- The real path of a path names the place that it leads to, if that is not too long. -/
theorem realPath_eq_ok {p real : FilePath} :
    t.realPath p = .ok real ↔
      ∃ place, t.locate p = .ok place ∧ real = .ofNames place ∧ real.length < maxPath := by
  unfold realPath
  cases t.locate p with
  | error e => simp
  | ok place =>
    dsimp only
    constructor
    · intro h
      split at h
      · cases h
      · rename_i hlength
        obtain rfl := Except.ok.inj h
        exact ⟨place, rfl, rfl, Nat.not_le.1 hlength⟩
    · rintro ⟨place', hplace, rfl, hlength⟩
      obtain rfl := Except.ok.inj hplace
      rw [if_neg (Nat.not_le.2 hlength)]

/-- The file URLs of the places at which walks end. -/
def urls (t : FileTree) : List (List Char) :=
  t.ends.filterMap fun place => (Url.ofFilePath? (.ofNames place)).map Url.href

end FileTree

/-! ## Answers -/

/-- Whether a URL names a file, by its text. -/
def namesFile (url : List Char) : Bool := "file:".toList.isPrefixOf url

namespace Resolver

variable {tree : FileTree}

/-- The URL of a real path is one of the finitely many of a file tree. -/
theorem mem_urls_of_realUrl {path : FilePath} {url : List Char}
    (h : realUrl tree path = .ok url) : url ∈ tree.urls := by
  obtain ⟨real, hreal, hurl⟩ := bind_eq_ok.1 h
  obtain ⟨place, hplace, rfl, -⟩ := FileTree.realPath_eq_ok.1 (mapError_eq_ok.1 hreal)
  obtain ⟨u, hu, hhref⟩ := bind_eq_ok.1 hurl
  obtain rfl := Except.ok.inj hhref
  refine List.mem_filterMap.2 ⟨place, FileTree.mem_ends_of_locate hplace, ?_⟩
  unfold NodeResolution.fileUrl at hu
  split at hu
  · rename_i hsome
    rw [hsome, ← Except.ok.inj hu]
    rfl
  · cases hu

/-- How a resolver comes to an answer: it leaves the specifier alone; the specifier names a builtin
module; the answer is the URL of the real path of a file; or an attempt gave a URL, which is the
answer, by its real path if it names a file. -/
theorem resolve_cases {r : Resolver} {options : ResolveOptions} {specifier url : List Char}
    (h : r.resolve tree options specifier = .ok url) :
    (∃ protocol ∈ remoteProtocols, protocol <+: specifier) ∧ url = specifier ∨
    r.config.builtins.canonical? specifier = some url ∨
    (∃ path, tree.isFile path = true ∧ realUrl tree path = .ok url) ∨
    ∃ a found, Attempt.outcome (r.delegate tree) a = .ok found ∧
      (found.isFile = true ∧
          (∃ path, NodeResolution.filePath found = .ok path ∧ realUrl tree path = .ok url) ∨
        found.isFile = false ∧ url = found.href) := by
  unfold resolve trace at h
  split at h
  · rename_i answer himmediate
    obtain rfl : answer = .ok url := h
    unfold immediate? at himmediate
    split at himmediate
    · rename_i hremote
      obtain rfl := Except.ok.inj (Option.some.inj himmediate)
      simp only [List.any_eq_true, List.isPrefixOf_iff_prefix] at hremote
      exact .inl ⟨hremote, rfl⟩
    · split at himmediate
      · rename_i id hid
        obtain rfl := Except.ok.inj (Option.some.inj himmediate)
        exact .inr (.inl hid)
      · obtain ⟨hpath, hreal⟩ := Option.ite_none_right_eq_some.1 himmediate
        rw [Bool.and_eq_true] at hpath
        exact .inr (.inr (.inl ⟨_, hpath.2, Option.some.inj hreal⟩))
  · unfold searchAll at h
    dsimp only at h
    split at h
    · cases h
    · obtain ⟨found, hfound, hsettle⟩ := bind_eq_ok.1 h
      unfold settle at hsettle
      split at hsettle
      · cases hsettle
      · rename_i u
        rw [Search.acrossAnchors_eq_each] at hfound
        obtain ⟨a, -, hattempt⟩ := (Search.stops_each _).exists_attempt hfound
        refine .inr (.inr (.inr ⟨a, u, hattempt, ?_⟩))
        split at hsettle
        · rename_i hfile
          exact .inl ⟨hfile, bind_eq_ok.1 hsettle⟩
        · rename_i hfile
          exact .inr ⟨by simpa using hfile, (Except.ok.inj hsettle).symm⟩

/-- A protocol other than that of files makes no file. -/
theorem namesFile_of_remote {specifier : List Char}
    (h : ∃ protocol ∈ remoteProtocols, protocol <+: specifier) : namesFile specifier = false := by
  obtain ⟨protocol, hmem, rest, rfl⟩ := h
  simp only [remoteProtocols, List.map_cons, List.map_nil, List.mem_cons, List.not_mem_nil,
    or_false] at hmem
  rcases hmem with rfl | rfl | rfl | rfl <;> rfl

theorem namesFile_of_canonical {builtins : Builtins} {specifier id : List Char}
    (h : builtins.canonical? specifier = some id) : namesFile id = false := by
  obtain ⟨-, hid⟩ := Option.ite_none_right_eq_some.1 h
  rw [← Option.some.inj hid]
  rfl

/-- The URL of a scheme other than that of files names no file. -/
theorem namesFile_of_remoteSchemes {url : Url}
    (h : NodeResolution.remoteSchemes.contains url.scheme = true) : namesFile url.href = false := by
  have hmem := List.contains_iff_mem.1 h
  simp only [NodeResolution.remoteSchemes, List.map_cons, List.map_nil, List.mem_cons,
    List.not_mem_nil, or_false] at hmem
  unfold Url.href
  rcases hmem with hs | hs | hs | hs <;> rw [hs] <;> rfl

theorem isFile_of_fileUrl {path : FilePath} {url : Url}
    (h : NodeResolution.fileUrl path = .ok url) : url.isFile = true := by
  unfold NodeResolution.fileUrl Url.ofFilePath? at h
  split at h
  · rename_i hsome
    obtain ⟨-, hurl⟩ := Option.ite_none_right_eq_some.1 hsome
    rw [← Except.ok.inj h, ← Option.some.inj hurl]
    rfl
  · cases h

/-- The file URL of the real path of a regular file, with query and fragment of the URL that led
there. -/
theorem exists_of_finalize {url base found : Url}
    (h : NodeResolution.finalize tree url base = .ok found) :
    ∃ path real file, tree.isFile path = true ∧ tree.realPath path = .ok real ∧
      NodeResolution.fileUrl real = .ok file ∧
      found = { file with query := url.query, fragment := url.fragment } := by
  unfold NodeResolution.finalize at h
  split at h
  · cases h
  obtain ⟨path, -, h⟩ := bind_eq_ok.1 h
  split at h
  · cases h
  · rename_i content hstat
    obtain ⟨real, hreal, h⟩ := bind_eq_ok.1 h
    obtain ⟨file, hfile, h⟩ := bind_eq_ok.1 h
    refine ⟨path, real, file, ?_, mapError_eq_ok.1 hreal, hfile, (Except.ok.inj h).symm⟩
    unfold FileTree.isFile
    rw [hstat]
  · cases h

/-- Resolving as Node does gives the URL of a regular file or one of a remote scheme. -/
theorem finalize_or_remote_of_resolve {builtins : Builtins} {specifier : List Char} {base url : Url}
    {conditions : List (List Char)}
    (h : NodeResolution.resolve tree builtins specifier base conditions = .ok url) :
    (∃ located, NodeResolution.finalize tree located base = .ok url) ∨
      NodeResolution.remoteSchemes.contains url.scheme = true := by
  obtain ⟨located, -, hurl⟩ := bind_eq_ok.1 h
  split at hurl
  · exact .inl ⟨located, hurl⟩
  · split at hurl
    · rename_i hremote
      exact .inr (Except.ok.inj hurl ▸ hremote)
    · cases hurl

/-- The URL of a regular file is a file URL. -/
theorem isFile_of_finalize {url base found : Url}
    (h : NodeResolution.finalize tree url base = .ok found) : found.isFile = true := by
  obtain ⟨_, _, file, _, _, hfile, rfl⟩ := exists_of_finalize h
  have hscheme : file.isFile = true := isFile_of_fileUrl hfile
  exact hscheme

/-- A resolver tells files apart: what it finds and is no file is not spelled like one. -/
def TellsFiles (r : Resolver) (tree : FileTree) : Prop :=
  ∀ a found, Attempt.outcome (r.delegate tree) a = .ok found → found.isFile = false →
    namesFile found.href = false

/-- Resolving as Node does tells files apart. -/
theorem tellsFiles_new {config : ResolverConfig} {defaults : ResolveOptions} :
    (Resolver.new config defaults).TellsFiles tree := by
  intro a found houtcome hnot
  rcases finalize_or_remote_of_resolve houtcome with ⟨located, hfinal⟩ | hremote
  · rw [isFile_of_finalize hfinal] at hnot
    cases hnot
  · exact namesFile_of_remoteSchemes hremote

/-- **Every file URL that is an answer** is one of the finitely many of the file tree. -/
theorem mem_urls_of_tellsFiles {r : Resolver} (hr : r.TellsFiles tree) {options : ResolveOptions}
    {specifier url : List Char} (h : r.resolve tree options specifier = .ok url)
    (hfile : namesFile url = true) : url ∈ tree.urls := by
  rcases resolve_cases h with ⟨hremote, rfl⟩ | hid | ⟨path, -, hreal⟩ |
    ⟨a, found, houtcome, ⟨-, path, -, hreal⟩ | ⟨hnot, rfl⟩⟩
  · rw [namesFile_of_remote hremote] at hfile
    cases hfile
  · rw [namesFile_of_canonical hid] at hfile
    cases hfile
  · exact mem_urls_of_realUrl hreal
  · exact mem_urls_of_realUrl hreal
  · rw [hr a found houtcome hnot] at hfile
    cases hfile

end Resolver

end EsModules
