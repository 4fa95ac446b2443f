import EsModules.Package.Manifest
import EsModules.Proofs.Package.Installed
import EsModules.Proofs.Resolution.Canonical
import EsModules.Proofs.Url.Behind

/-!
# Projects at their sites

A project is what stands below a directory; a site is a directory of a file tree below which a
project stands.  What a walk finds below a site depends on the project alone, and no manifest and
no installation directory lies above.

* `Project`, `Site`: projects without links, and the places where they may lie.
* `Site.locate_cases`: a path below the sites leads to the same place at all of them, or to none.
* `Site.stat_eq`, `Site.isPlainReal_of_stat`: what stands there, and the real paths of files.
* `Site.ancestors_root`: what lies above a site.
-/

namespace EsModules

open FilePath

/-! ## Projects and sites -/

/-- What stands at the places below the directory of a project.  No link is among it. -/
structure Project where
  /-- What stands at a place. -/
  find? : List FilePath → Option Entry
  directory : find? [] = some .directory
  noLinks : ∀ place target, find? place ≠ some (.link target)

/-- The bytes of star, colon, backslash and bar. -/
def markBytes : List UInt8 := [0x2A, 0x3A, 0x5C, 0x7C]

/-- A directory, other than the root, below which a file tree holds a project.  Above it there is
neither a manifest nor an installation directory, its names hold no marks, and there is room for
paths that are longer than its own by some number of bytes. -/
structure Site (project : Project) (reach : Nat) where
  /-- The file tree. -/
  tree : FileTree
  /-- The names that lead to the directory. -/
  names : List FilePath
  wellFormed : tree.IsWellFormed
  ne_nil : names ≠ []
  plain : ∀ n ∈ names, ∀ b ∈ markBytes, b ∉ n
  notInstalled : PackageScope.installDir ∉ names
  bare : ∀ front, front <+: names → front ≠ names →
    ∀ n ∈ [Manifest.fileName, PackageScope.installDir], tree.find? (front ++ [n]) = none
  holds : ∀ place, tree.find? (names ++ place) = project.find? place
  room : (ofNames names).length + reach < FileTree.maxPath

namespace Site

variable {project : Project} {reach : Nat}

theorem directory (σ : Site project reach) : σ.tree.find? σ.names = some .directory := by
  rw [← List.append_nil σ.names, σ.holds, project.directory]

theorem named (σ : Site project reach) : ∀ n ∈ σ.names, isName n = true :=
  σ.wellFormed.isName_of_find? σ.directory

/-- The names of a site lead through directories. -/
theorem directories (σ : Site project reach) {front : List FilePath} (h : front <+: σ.names) :
    σ.tree.find? front = some .directory := by
  obtain ⟨back, hback⟩ := h
  cases back with
  | nil => rw [← List.append_nil front, hback, σ.directory]
  | cons n back => exact σ.wellFormed.find?_of_append (hback.symm ▸ σ.directory)

end Site

namespace FileTree

/-- A walk along directories goes on behind them. -/
theorem walkWith_directories {t : FileTree} (followLast : Bool)
    (follow : FilePath → List FilePath → List FilePath → Except IoError (List FilePath))
    {front names : List FilePath} (hnames : ∀ n ∈ names, isName n = true)
    (h : ∀ dirs, dirs <+: names → t.find? (front ++ dirs) = some .directory)
    (rest : List FilePath) :
    t.walkWith followLast follow front (names ++ rest) =
      t.walkWith followLast follow (front ++ names) rest := by
  induction names generalizing front with
  | nil => rw [List.append_nil, List.nil_append]
  | cons n names ih =>
    have hname : isName n = true := hnames n List.mem_cons_self
    have hhere : (n == here) = false := by simpa using ne_here_of_isName hname
    have habove : (n == above) = false := by simpa using ne_above_of_isName hname
    have hlength : ¬ n.length > maxName := Nat.not_lt.2 (length_le_of_isName hname)
    have hdir : t.find? front = some .directory := by simpa using h [] List.nil_prefix
    have hnext : t.find? (front ++ [n]) = some .directory := h [n] ⟨names, rfl⟩
    have hrest := @ih (front ++ [n]) (fun m hm => hnames m (List.mem_cons_of_mem n hm))
      fun dirs hdirs => by
        rw [List.append_assoc]
        exact h (n :: dirs) ((List.prefix_cons_inj n).2 hdirs)
    rw [List.append_assoc, List.singleton_append] at hrest
    rw [List.cons_append, walkWith, hdir, hhere, habove, if_neg hlength, hnext, ← hrest]
    rfl

/-- Locating a path that leads through directories is walking along the pieces behind them. -/
theorem exists_locate_eq {t : FileTree} {dirs ps : List FilePath} (hne : dirs ++ ps ≠ [])
    (hnames : ∀ n ∈ dirs, isName n = true)
    (hdirs : ∀ front, front <+: dirs → t.find? front = some .directory)
    (hslash : ∀ p ∈ ps, slash ∉ p) (hzero : ∀ p ∈ ps, 0 ∉ p)
    (hlength : (ofNames (dirs ++ ps)).length < maxPath) :
    ∃ follow, t.locate (ofNames (dirs ++ ps)) =
      t.walkWith true follow dirs (ps.filter (fun p => !p.isEmpty) ++
        (if ps.getLast? = some [] then [here] else [])) := by
  have hzeros : (ofNames (dirs ++ ps)).contains 0 = false := by
    rw [← Bool.not_eq_true, List.contains_iff_mem]
    intro hmem
    rcases mem_ofNames hmem with hmem | ⟨p, hp, hb⟩
    · cases hmem
    · rcases List.mem_append.1 hp with hp | hp
      · exact zero_notMem_of_isName (hnames p hp) hb
      · exact hzero p hp hb
  have hempty : (ofNames (dirs ++ ps)).isEmpty = false := by
    rw [ofNames_of_ne_nil hne]
    cases h : dirs ++ ps with
    | nil => exact absurd h hne
    | cons p rest => rfl
  have hnone : ∀ p ∈ dirs ++ ps, slash ∉ p := by
    intro p hp
    rcases List.mem_append.1 hp with hp | hp
    · exact slash_notMem_of_isName (hnames p hp)
    · exact hslash p hp
  have hkeep : dirs.filter (fun p => !p.isEmpty) = dirs :=
    List.filter_eq_self.2 fun p hp => by simpa using ne_nil_of_isName (hnames p hp)
  have hlast : (dirs ++ ps).getLast? = some [] ↔ ps.getLast? = some [] := by
    cases ps with
    | nil =>
      rw [List.append_nil]
      refine iff_of_false (fun h => ?_) (by simp)
      exact ne_nil_of_isName (hnames _ (List.mem_of_getLast? h)) rfl
    | cons p ps => rw [List.getLast?_append_of_ne_nil _ (List.cons_ne_nil p ps)]
  have hwalk : ∃ follow, ∀ steps, t.walk true maxLinks [] steps =
      t.walkWith true follow [] steps := ⟨_, fun _ => rfl⟩
  obtain ⟨follow, hwalk⟩ := hwalk
  refine ⟨follow, ?_⟩
  unfold locate
  rw [hzeros, hempty, if_neg (Nat.not_le.2 hlength), isAbsolute_ofNames, steps_ofNames hne hnone,
    List.filter_append, hkeep, List.append_assoc]
  simp only [hlast]
  exact (hwalk _).trans (walkWith_directories true follow hnames hdirs _)

end FileTree

/-! ## Paths within a project -/

/-- Pieces of a path within a project: plain, and none of them leads to the directory above. -/
def ArePieces (ts : List (List Char)) : Prop :=
  ∀ t ∈ ts, (∀ c ∈ t, c ∈ Url.plainChars ∧ c ≠ '/') ∧ t ≠ "..".toList

/-- Those of some pieces that name something. -/
def namedPieces (ts : List (List Char)) : List (List Char) :=
  ts.filter fun t => !isIdle (.ofText t)

section

variable {ts us : List (List Char)}

theorem ArePieces.of_subset (h : ArePieces ts) (hsub : us ⊆ ts) : ArePieces us :=
  fun t ht => h t (hsub ht)

theorem ArePieces.append (hts : ArePieces ts) (hus : ArePieces us) : ArePieces (ts ++ us) :=
  fun t ht => (List.mem_append.1 ht).elim (hts t) (hus t)

theorem ArePieces.named (h : ArePieces ts) : ArePieces (namedPieces ts) :=
  h.of_subset fun _ ht => List.mem_of_mem_filter ht

theorem ofText_ne_above {t : List Char} (h : t ≠ "..".toList) : ofText t ≠ above := by
  intro heq
  have hback : Utf8.decodeLossy (ofText t) = t := Utf8.decodeLossy_encode t
  rw [heq] at hback
  exact h (hback ▸ by decide)

theorem ArePieces.ne_above (h : ArePieces ts) : ∀ p ∈ ts.map ofText, p ≠ above := by
  intro p hp
  obtain ⟨t, ht, rfl⟩ := List.mem_map.1 hp
  exact ofText_ne_above (h t ht).2

/-- A byte that is no plain character, or a slash, stands in no piece. -/
theorem ArePieces.notMem (h : ArePieces ts) {c : Char} (hlt : c.toNat < 0x80)
    (hc : c ∉ Url.plainChars ∨ c = '/') : ∀ p ∈ ts.map ofText, UInt8.ofNat c.toNat ∉ p := by
  intro p hp hmem
  obtain ⟨t, ht, rfl⟩ := List.mem_map.1 hp
  obtain ⟨hplain, hslash⟩ := (h t ht).1 c ((Utf8.mem_encode_iff hlt).1 hmem)
  exact hc.elim (fun hc => hc hplain) hslash

theorem ArePieces.slash_notMem (h : ArePieces ts) : ∀ p ∈ ts.map ofText, slash ∉ p :=
  @ArePieces.notMem _ h '/' (by decide) (.inr rfl)

end

namespace Project

variable {project : Project} {reach : Nat}

/-- **A walk within a project** goes along its steps to the same place at all sites, or it fails at
all of them. -/
theorem walkWith_cases (project : Project) (reach : Nat) {steps : List FilePath}
    (h : above ∉ steps) (place : List FilePath) :
    (∀ (σ : Site project reach) followLast follow,
      σ.tree.walkWith followLast follow (σ.names ++ place) steps =
        .ok (σ.names ++ (place ++ steps.filter (· != here)))) ∨
      ∃ e, ∀ (σ : Site project reach) followLast follow,
        σ.tree.walkWith followLast follow (σ.names ++ place) steps = .error e := by
  induction steps generalizing place with
  | nil => exact .inl fun σ followLast follow => by simp [FileTree.walkWith]
  | cons s rest ih =>
    rw [List.mem_cons, not_or] at h
    have habove : (s == above) = false := by simpa using Ne.symm h.1
    by_cases hdir : project.find? place = some .directory
    swap
    · refine .inr ⟨.notDirectory, fun σ followLast follow => ?_⟩
      rw [FileTree.walkWith, σ.holds, if_pos (by simpa using hdir)]
    by_cases hhere : s = here
    · subst hhere
      have hstep : ∀ (σ : Site project reach) followLast follow,
          σ.tree.walkWith followLast follow (σ.names ++ place) (here :: rest) =
            σ.tree.walkWith followLast follow (σ.names ++ place) rest := by
        intro σ followLast follow
        rw [FileTree.walkWith, σ.holds, hdir]
        rfl
      have hkeep : (here :: rest).filter (· != here) = rest.filter (· != here) :=
        List.filter_cons_of_neg (by simp)
      simpa only [hstep, hkeep] using ih h.2 place
    by_cases hlength : s.length > FileTree.maxName
    · refine .inr ⟨.nameTooLong, fun σ followLast follow => ?_⟩
      rw [FileTree.walkWith, σ.holds, hdir, habove, if_pos hlength]
      simp [hhere]
    cases hfind : project.find? (place ++ [s]) with
    | none =>
      refine .inr ⟨.notFound, fun σ followLast follow => ?_⟩
      rw [FileTree.walkWith, σ.holds, hdir, habove, if_neg hlength, List.append_assoc, σ.holds,
        hfind]
      simp [hhere]
    | some e =>
      have hstep : ∀ (σ : Site project reach) followLast follow,
          σ.tree.walkWith followLast follow (σ.names ++ place) (s :: rest) =
            σ.tree.walkWith followLast follow (σ.names ++ (place ++ [s])) rest := by
        intro σ followLast follow
        rw [FileTree.walkWith, σ.holds, hdir, habove, if_neg hlength, List.append_assoc, σ.holds,
          hfind]
        cases e with
        | link target => exact absurd hfind (project.noLinks _ _)
        | file content => simp [hhere]
        | directory => simp [hhere]
      have hkeep : (s :: rest).filter (· != here) = s :: rest.filter (· != here) :=
        List.filter_cons_of_pos (by simpa using hhere)
      simpa only [hstep, hkeep, List.append_assoc, List.singleton_append] using
        ih h.2 (place ++ [s])

end Project

namespace Site

variable {project : Project} {reach : Nat} {ts : List (List Char)}

/-- The path of pieces below a site. -/
def path (σ : Site project reach) (ts : List (List Char)) : FilePath :=
  ofNames (σ.names ++ ts.map ofText)

/-- The length of the text of pieces. -/
def length (ts : List (List Char)) : Nat := (Url.joinSegments ts).length

theorem append_ne_nil (σ : Site project reach) (ps : List FilePath) : σ.names ++ ps ≠ [] :=
  List.append_ne_nil_of_left_ne_nil σ.ne_nil ps

/-- The bytes of pieces behind slashes are as many as the characters. -/
theorem length_flatMap (h : ArePieces ts) :
    ((ts.map ofText).flatMap (slash :: ·)).length = length ts := by
  induction ts with
  | nil => rfl
  | cons t ts ih =>
    have hrest := ih (h.of_subset (List.subset_cons_self t ts))
    have hone : (ofText t).length = t.length :=
      Utf8.length_encode_of_lt fun c hc =>
        (Url.of_mem_plainChars ((h t List.mem_cons_self).1 c hc).1).1
    unfold length at hrest ⊢
    rw [List.map_cons, List.flatMap_cons, Url.joinSegments_cons]
    simp only [List.length_append, List.length_cons, hrest, hone]
    omega

theorem length_path (σ : Site project reach) (h : ArePieces ts) :
    (σ.path ts).length = (ofNames σ.names).length + length ts := by
  unfold path
  rw [ofNames_of_ne_nil (σ.append_ne_nil _), ofNames_of_ne_nil σ.ne_nil, List.flatMap_append,
    List.length_append, length_flatMap h]

/-- **A path below the sites** leads to the same place at all of them, or at all of them to none. -/
theorem locate_cases (project : Project) (h : ArePieces ts) (hlength : length ts ≤ reach) :
    (∀ σ : Site project reach, σ.tree.locate (σ.path ts) =
        .ok (σ.names ++ (namedPieces ts).map ofText)) ∨
      ∃ e, ∀ σ : Site project reach, σ.tree.locate (σ.path ts) = .error e := by
  have hwalk : ∀ σ : Site project reach, ∃ follow, σ.tree.locate (σ.path ts) =
      σ.tree.walkWith true follow (σ.names ++ [])
        ((ts.map ofText).filter (fun p => !p.isEmpty) ++
          (if (ts.map ofText).getLast? = some [] then [here] else [])) := by
    intro σ
    have hroom : (σ.path ts).length < FileTree.maxPath := by
      have hsite := σ.room
      rw [length_path σ h]
      omega
    rw [List.append_nil]
    exact FileTree.exists_locate_eq (σ.append_ne_nil _) σ.named (fun _ => σ.directories)
      h.slash_notMem
      (@ArePieces.notMem _ h '\x00' (by decide) (.inl (by decide))) hroom
  have habove : above ∉ (ts.map ofText).filter (fun p => !p.isEmpty) ++
      (if (ts.map ofText).getLast? = some [] then [here] else []) := by
    intro hmem
    rcases List.mem_append.1 hmem with hmem | hmem
    · exact h.ne_above _ (List.mem_of_mem_filter hmem) rfl
    · split at hmem
      · exact absurd (List.mem_singleton.1 hmem) (by decide)
      · cases hmem
  have hplace : ((ts.map ofText).filter (fun p => !p.isEmpty) ++
      (if (ts.map ofText).getLast? = some [] then [here] else [])).filter (· != here) =
        (namedPieces ts).map ofText := by
    have hend : (if (ts.map ofText).getLast? = some [] then [here] else []).filter (· != here) =
        ([] : List FilePath) := by
      split <;> simp
    have hidle : ∀ p : FilePath, ((p != here) && !p.isEmpty) = !isIdle p := by
      intro p
      rw [isIdle, Bool.not_or, Bool.and_comm]
      rfl
    rw [List.filter_append, hend, List.append_nil, List.filter_filter]
    simp only [hidle]
    rw [List.filter_map]
    rfl
  rcases project.walkWith_cases reach habove [] with hok | ⟨e, herror⟩
  · refine .inl fun σ => ?_
    obtain ⟨follow, hlocate⟩ := hwalk σ
    rw [hlocate, hok, hplace, List.nil_append]
  · refine .inr ⟨e, fun σ => ?_⟩
    obtain ⟨follow, hlocate⟩ := hwalk σ
    rw [hlocate, herror]

theorem length_append (ts us : List (List Char)) : length (ts ++ us) = length ts + length us := by
  unfold length
  rw [Url.joinSegments_append, List.length_append]

theorem length_namedPieces (ts : List (List Char)) : length (namedPieces ts) ≤ length ts :=
  Url.length_joinSegments_sublist List.filter_sublist

/-- **What stands where a path leads** is what the project has there, the same at all sites. -/
theorem exists_stat (project : Project) (h : ArePieces ts) (hlength : length ts ≤ reach) :
    ∃ r, (∀ σ : Site project reach, σ.tree.stat (σ.path ts) = r) ∧
      ∀ e, r = .ok e → project.find? ((namedPieces ts).map ofText) = some e := by
  rcases locate_cases project h hlength with hplace | ⟨e, herror⟩
  · cases hfind : project.find? ((namedPieces ts).map ofText) with
    | some entry =>
      refine ⟨.ok entry, fun σ => ?_, fun e he => congrArg some (Except.ok.inj he)⟩
      unfold FileTree.stat
      rw [hplace]
      dsimp only
      rw [σ.holds, hfind]
    | none =>
      refine ⟨.error .notFound, fun σ => ?_, fun e he => by cases he⟩
      unfold FileTree.stat
      rw [hplace]
      dsimp only
      rw [σ.holds, hfind]
  · exact ⟨.error e, fun σ => by rw [FileTree.stat, herror], fun e he => by cases he⟩

theorem stat_eq (σ τ : Site project reach) (h : ArePieces ts) (hlength : length ts ≤ reach) :
    σ.tree.stat (σ.path ts) = τ.tree.stat (τ.path ts) := by
  obtain ⟨r, hstat, -⟩ := exists_stat project h hlength
  rw [hstat σ, hstat τ]

theorem find?_of_stat (σ : Site project reach) (h : ArePieces ts) (hlength : length ts ≤ reach)
    {e : Entry} (hstat : σ.tree.stat (σ.path ts) = .ok e) :
    project.find? ((namedPieces ts).map ofText) = some e := by
  obtain ⟨r, hall, hfind⟩ := exists_stat project h hlength
  exact hfind e ((hall σ).symm.trans hstat)

theorem isFile_eq (σ τ : Site project reach) (h : ArePieces ts) (hlength : length ts ≤ reach) :
    σ.tree.isFile (σ.path ts) = τ.tree.isFile (τ.path ts) := by
  unfold FileTree.isFile
  rw [stat_eq σ τ h hlength]

theorem isDirectory_eq (σ τ : Site project reach) (h : ArePieces ts) (hlength : length ts ≤ reach) :
    σ.tree.isDirectory (σ.path ts) = τ.tree.isDirectory (τ.path ts) := by
  unfold FileTree.isDirectory
  rw [stat_eq σ τ h hlength]

theorem readText_eq (σ τ : Site project reach) (h : ArePieces ts) (hlength : length ts ≤ reach) :
    σ.tree.readText (σ.path ts) = τ.tree.readText (τ.path ts) := by
  unfold FileTree.readText FileTree.read
  rw [stat_eq σ τ h hlength]

/-! ## Real paths -/

theorem room_namedPieces (σ : Site project reach) (h : ArePieces ts) (hlength : length ts ≤ reach) :
    (σ.path (namedPieces ts)).length < FileTree.maxPath := by
  have hsite := σ.room
  have hnamed := length_namedPieces ts
  rw [length_path σ h.named]
  omega

/-- The real path of what stands below a site is that of the pieces that name something. -/
theorem realPath_of_stat (σ : Site project reach) (h : ArePieces ts) (hlength : length ts ≤ reach)
    {e : Entry} (hstat : σ.tree.stat (σ.path ts) = .ok e) :
    σ.tree.realPath (σ.path ts) = .ok (σ.path (namedPieces ts)) := by
  rcases locate_cases project h hlength with hplace | ⟨e, herror⟩
  · unfold FileTree.realPath
    rw [hplace]
    exact if_neg (Nat.not_le.2 (σ.room_namedPieces h hlength))
  · rw [FileTree.stat, herror] at hstat
    cases hstat

theorem namedPieces_namedPieces (ts : List (List Char)) :
    namedPieces (namedPieces ts) = namedPieces ts := by
  unfold namedPieces
  rw [List.filter_filter]
  simp

/-- The bytes of a path below a site that stand in a URL as they are. -/
theorem mark_notMem_path (σ : Site project reach) (h : ArePieces ts) {c : Char}
    (hc : c ∈ ['\\', ':', '|']) : UInt8.ofNat c.toNat ∉ σ.path ts := by
  have hall : ∀ c ∈ ['\\', ':', '|'], UInt8.ofNat c.toNat ≠ slash ∧
      UInt8.ofNat c.toNat ∈ markBytes ∧ c.toNat < 0x80 ∧ c ∉ Url.plainChars :=
    Text.forall_mem_of_all (by decide)
  obtain ⟨hslash, hmark, hlt, hplain⟩ := hall c hc
  intro hmem
  rcases mem_ofNames hmem with hb | ⟨n, hn, hb⟩
  · exact hslash hb
  · rcases List.mem_append.1 hn with hn | hn
    · exact σ.plain n hn _ hmark hb
    · exact h.notMem hlt (.inl hplain) n hn hb

/-- **The names of a file** below a site can stand in a file URL and come back from it. -/
theorem isPlainReal_of_stat (σ : Site project reach) (h : ArePieces ts)
    (hlength : length ts ≤ reach) {content : List UInt8}
    (hstat : σ.tree.stat (σ.path ts) = .ok (.file content)) :
    σ.tree.IsPlainReal (σ.names ++ (namedPieces ts).map ofText) where
  real := by
    refine FileTree.isReal_of_realPath σ.wellFormed ?_ (σ.realPath_of_stat h hlength hstat)
    unfold FileTree.isFile
    rw [hstat]
  ne_nil := σ.append_ne_nil _
  named := by
    refine σ.wellFormed.isName_of_find? (e := .file content) ?_
    rw [σ.holds]
    exact σ.find?_of_stat h hlength hstat
  noBackslash := σ.mark_notMem_path h.named (by simp : '\\' ∈ _)
  noColon := σ.mark_notMem_path h.named (by simp : ':' ∈ _)
  noBar := σ.mark_notMem_path h.named (by simp : '|' ∈ _)

/-! ## Above a site -/

/-- Above a site there is neither a manifest nor anything installed. -/
theorem exists_stat_bare (σ : Site project reach) {front : List FilePath}
    (hfront : front <+: σ.names) (hne : front ≠ σ.names) {n : FilePath}
    (hn : n ∈ [Manifest.fileName, PackageScope.installDir]) {ps : List FilePath}
    (hslash : ∀ p ∈ ps, slash ∉ p) (hzero : ∀ p ∈ ps, 0 ∉ p) :
    ∃ e, σ.tree.stat (ofNames (front ++ n :: ps)) = .error e := by
  have hname : isName n = true := by
    have hall : ∀ n ∈ [Manifest.fileName, PackageScope.installDir], isName n = true := by
      decide
    exact hall n hn
  by_cases hlength : (ofNames (front ++ n :: ps)).length < FileTree.maxPath
  · have hpieces : ∀ p ∈ n :: ps, slash ∉ p ∧ 0 ∉ p := by
      intro p hp
      rcases List.mem_cons.1 hp with rfl | hp
      · exact ⟨slash_notMem_of_isName hname, zero_notMem_of_isName hname⟩
      · exact ⟨hslash p hp, hzero p hp⟩
    obtain ⟨follow, hlocate⟩ := @FileTree.exists_locate_eq σ.tree front (n :: ps) (by simp)
      (fun m hm => σ.named m (hfront.subset hm))
      (fun dirs hdirs => σ.directories (hdirs.trans hfront))
      (fun p hp => (hpieces p hp).1) (fun p hp => (hpieces p hp).2) hlength
    have hkeep : (n :: ps).filter (fun p => !p.isEmpty) = n :: ps.filter (fun p => !p.isEmpty) :=
      List.filter_cons_of_pos (by simpa using ne_nil_of_isName hname)
    have hhere : (n == here) = false := by simpa using ne_here_of_isName hname
    have habove : (n == above) = false := by simpa using ne_above_of_isName hname
    have hlong : ¬ n.length > FileTree.maxName := Nat.not_lt.2 (length_le_of_isName hname)
    refine ⟨.notFound, ?_⟩
    unfold FileTree.stat
    rw [hlocate, hkeep, List.cons_append, FileTree.walkWith,
      σ.directories hfront, hhere, habove, if_neg hlong, σ.bare front hfront hne n hn]
    rfl
  · unfold FileTree.stat FileTree.locate
    split
    · rename_i e _
      exact ⟨e, rfl⟩
    · rename_i place hplace
      split at hplace
      · cases hplace
      split at hplace
      · cases hplace
      rw [if_pos (Nat.le_of_not_lt hlength)] at hplace
      cases hplace

/-- The paths above names lead to beginnings of these names. -/
theorem mem_parents {ns : List FilePath} (h : ∀ n ∈ ns, isName n = true) {d : FilePath}
    (hd : d ∈ parents [slash] ns.reverse) :
    ∃ front, front <+: ns ∧ front ≠ ns ∧ d = ofNames front := by
  induction ns using List.reverseRecOn with
  | nil => cases hd
  | append_singleton init n ih =>
    have hidle : isIdle n = false := isIdle_of_isName (h n (by simp))
    have hinit : ∀ m ∈ init, isName m = true := fun m hm => h m (by simp [hm])
    have hne : ∀ front, front <+: init → front ≠ init ++ [n] := by
      rintro front hfront rfl
      have hlength := hfront.length_le
      rw [List.length_append, List.length_singleton] at hlength
      omega
    rw [List.reverse_concat, parents, hidle, if_neg Bool.false_ne_true] at hd
    rcases List.mem_cons.1 hd with rfl | hd
    · refine ⟨init, List.prefix_append _ _, hne init (List.prefix_refl init), ?_⟩
      have hkeep : init.reverse.dropWhile isIdle = init.reverse := by
        cases hback : init.reverse with
        | nil => rfl
        | cons m back =>
          have hm : m ∈ init := List.mem_reverse.1 (hback ▸ List.mem_cons_self)
          rw [List.dropWhile_cons_of_neg (by simp [isIdle_of_isName (hinit m hm)])]
      have hjoin : ∀ m ns, slash :: Text.joinWith [slash] (m :: ns) = ofNames (m :: ns) := by
        intro m ns
        rw [ofNames_of_ne_nil (List.cons_ne_nil m ns)]
        induction ns generalizing m with
        | nil => simp [Text.joinWith]
        | cons k ns ihns =>
          have hrest := ihns k
          rw [List.flatMap_cons, ← hrest]
          simp [Text.joinWith]
      unfold rebuild
      rw [hkeep, List.reverse_reverse]
      cases init with
      | nil => rfl
      | cons m ns => exact hjoin m ns
    · obtain ⟨front, hfront, -, rfl⟩ := ih hinit hd
      exact ⟨front, hfront.trans (List.prefix_append _ _), hne front hfront, rfl⟩

theorem lead_root (σ : Site project reach) : (σ.path [[]]).lead = [slash] := by
  unfold lead
  rw [show (σ.path [[]]).isAbsolute = true from isAbsolute_ofNames _]
  rfl

/-- The pieces of the path of a site with a slash at its end. -/
theorem piecesBack_root (σ : Site project reach) :
    (σ.path [[]]).piecesBack = [] :: σ.names.reverse := by
  have hslash : ∀ p ∈ σ.names ++ [[]], slash ∉ p := by
    intro p hp
    rcases List.mem_append.1 hp with hp | hp
    · exact slash_notMem_of_isName (σ.named p hp)
    · rw [List.mem_singleton.1 hp]
      exact List.not_mem_nil
  have hpieces : (σ.path [[]]).pieces = [] :: (σ.names ++ [[]]) :=
    pieces_ofNames (σ.append_ne_nil _) hslash
  have habsolute : (σ.path [[]]).isAbsolute = true := isAbsolute_ofNames _
  obtain ⟨rest, hrest⟩ : ∃ rest, σ.path [[]] = slash :: rest :=
    List.head?_eq_some_iff.1 (by simpa [isAbsolute] using habsolute)
  have hcut : pieces rest = σ.names ++ [[]] := by
    have hsplit : pieces (slash :: rest) = [] :: pieces rest := pieces_append_slash [] rest
    rw [hrest, hsplit] at hpieces
    exact (List.cons.inj hpieces).2
  unfold piecesBack
  rw [σ.lead_root, hrest]
  show (pieces rest).reverse = _
  rw [hcut, List.reverse_concat]

/-- **Above a site** there are only directories that its names lead through. -/
theorem ancestors_root (σ : Site project reach) : ∃ outside,
    ancestors (σ.path [[]]) = σ.path [[]] :: outside ∧
      ∀ d ∈ outside, ∃ front, front <+: σ.names ∧ front ≠ σ.names ∧ d = ofNames front := by
  refine ⟨_, rfl, fun d hd => mem_parents σ.named ?_⟩
  rw [σ.lead_root, σ.piecesBack_root] at hd
  exact hd

end Site

end EsModules
