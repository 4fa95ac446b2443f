import EsModules.Proofs.Resolution.Parallel

/-!
# Packages of a project

A project that lies at a site belongs to no package but its own, and what is installed for it is
installed in it: above a site there is neither a manifest nor an installation directory.  So the
manifests that are read for it come from the project alone.

* `Project.HasManifest`: the manifests in a project.
* `Site.parallel_load`, `Site.parallel_find`, `Site.installDir?_cases`: manifests, the package that
  the project is, and installed packages.
-/

namespace EsModules

/-! ## Paths -/

namespace FilePath

theorem isAbsolute_ofText {t : List Char} (h : t.head? ≠ some '/') :
    (ofText t).isAbsolute = false := by
  cases t with
  | nil => rfl
  | cons c t =>
    have hslash : slash ∉ ofText [c] := by
      intro hmem
      have hc : '/' ∈ [c] := (Utf8.mem_encode_iff (by decide)).1 hmem
      exact h (by rw [List.mem_singleton.1 hc]; rfl)
    have hsplit : ofText (c :: t) = ofText [c] ++ ofText t := Utf8.encode_append [c] t
    have hne : ofText [c] ≠ [] := ofText_ne_nil (List.cons_ne_nil c [])
    obtain ⟨b, bs, hb⟩ := List.exists_cons_of_ne_nil hne
    rw [hb] at hslash
    rw [hsplit, hb]
    have hfirst : b ≠ slash := fun heq => hslash (heq ▸ List.mem_cons_self)
    simpa [isAbsolute] using hfirst

end FilePath

open FilePath

/-! ## Manifests -/

/-- The name of a manifest. -/
def manifestName : List Char := "package.json".toList

/-- The pieces of the manifest in a directory. -/
def manifestIn (dir : List (List Char)) : List (List Char) :=
  (if dir.getLast? = some [] then dir.dropLast else dir) ++ [manifestName]

namespace Project

/-- A manifest that stands in a directory of a project. -/
def HasManifest (project : Project) (dir : List FilePath) (m : Manifest) : Prop :=
  ∃ content text v, project.find? (dir ++ [Manifest.fileName]) = some (.file content) ∧
    Utf8.decode? content = some text ∧ JsonValue.parse? text = some v ∧ m = .ofJson v

end Project

namespace Site

variable {project : Project} {reach : Nat} {dir ts : List (List Char)} {text : List Char}

theorem arePieces_empty : ArePieces [[]] := by
  intro t ht
  rw [List.mem_singleton.1 ht]
  exact ⟨fun c hc => absurd hc List.not_mem_nil, by decide⟩

theorem arePieces_manifestName : ArePieces [manifestName] := by
  intro t ht
  rw [List.mem_singleton.1 ht]
  exact ⟨Text.forall_mem_of_all (by decide), by decide⟩

theorem namedPieces_manifestName : namedPieces [manifestName] = [manifestName] := by decide

theorem arePieces_manifestIn (h : ArePieces dir) : ArePieces (manifestIn dir) := by
  refine ArePieces.append ?_ arePieces_manifestName
  split
  · exact h.of_subset (List.dropLast_subset dir)
  · exact h

theorem namedPieces_manifestIn (dir : List (List Char)) :
    namedPieces (manifestIn dir) = namedPieces dir ++ [manifestName] := by
  unfold manifestIn
  rw [namedPieces_append, namedPieces_manifestName]
  split
  · rename_i hlast
    obtain ⟨front, rfl⟩ := List.getLast?_eq_some_iff.1 hlast
    have hempty : namedPieces [([] : List Char)] = [] := by decide
    rw [List.dropLast_concat, namedPieces_append, hempty, List.append_nil]
  · rfl

theorem length_manifestIn (dir : List (List Char)) : length (manifestIn dir) ≤ length dir + 13 := by
  have hname : length [manifestName] = 13 := by decide
  unfold manifestIn
  rw [length_append, hname, Nat.add_le_add_iff_right]
  split
  · exact Url.length_joinSegments_sublist (List.dropLast_sublist dir)
  · exact Nat.le_refl _

/-! ## Paths put together -/

/-- A text put behind the path of pieces, the last of which is not empty. -/
theorem path_join (σ : Site project reach) (h : ArePieces ts) (hlast : ts.getLast? ≠ some [])
    (htext : text.head? ≠ some '/') :
    (σ.path ts).join (.ofText text) = σ.path (ts ++ Text.splitWhere (· == '/') text) := by
  have hend : (σ.names ++ ts.map ofText).getLast? ≠ some [] := by
    intro hnil
    rcases List.eq_nil_or_concat' ts with rfl | ⟨front, t, rfl⟩
    · rw [List.map_nil, List.append_nil] at hnil
      exact ne_nil_of_isName (σ.named _ (List.mem_of_getLast? hnil)) rfl
    · rw [List.map_append, ← List.append_assoc] at hnil
      simp only [List.map_cons, List.map_nil, List.getLast?_concat, Option.some.injEq] at hnil
      refine hlast ?_
      rw [List.getLast?_concat, Option.some.injEq]
      exact Decidable.not_not.1 fun hne => ofText_ne_nil hne hnil
  unfold path
  rw [ofNames_join (σ.slash_notMem h) hend (isAbsolute_ofText htext), pieces_ofText,
    List.map_append, List.append_assoc]

/-- A text put behind the path of pieces, the last of which is empty. -/
theorem path_join_open (σ : Site project reach) (ts : List (List Char))
    (htext : text.head? ≠ some '/') :
    (σ.path (ts ++ [[]])).join (.ofText text) = σ.path (ts ++ Text.splitWhere (· == '/') text) := by
  have hempty : ([[]] : List (List Char)).map ofText = [[]] := by decide
  unfold path
  rw [List.map_append, hempty, ← List.append_assoc, ofNames_join_open _ (isAbsolute_ofText htext),
    pieces_ofText, List.map_append, List.append_assoc]

/-- The manifest in a directory below a site. -/
theorem path_join_fileName (σ : Site project reach) (h : ArePieces dir) :
    (σ.path dir).join Manifest.fileName = σ.path (manifestIn dir) := by
  have hpieces : Text.splitWhere (· == '/') manifestName = [manifestName] := by decide
  have hhead : manifestName.head? ≠ some '/' := by decide
  unfold manifestIn
  split
  · rename_i hlast
    obtain ⟨front, rfl⟩ := List.getLast?_eq_some_iff.1 hlast
    rw [List.dropLast_concat, ← hpieces]
    exact σ.path_join_open front hhead
  · rename_i hlast
    rw [← hpieces]
    exact σ.path_join h hlast hhead

/-! ## Reading manifests -/

theorem exists_stat_of_readText {tree : FileTree} {path : FilePath}
    (h : tree.readText path = .ok text) :
    ∃ content, tree.stat path = .ok (.file content) ∧ Utf8.decode? content = some text := by
  unfold FileTree.readText at h
  split at h
  · cases h
  rename_i content hread
  split at h
  swap
  · cases h
  rename_i decoded hdecode
  obtain rfl := Except.ok.inj h
  refine ⟨content, ?_, hdecode⟩
  unfold FileTree.read at hread
  split at hread
  · cases hread
  · rename_i heq
    rw [heq, Except.ok.inj hread]
  · cases hread

/-- What is read as a manifest below a site is one of the project. -/
theorem hasManifest_of_readText (σ : Site project reach) (h : ArePieces dir)
    (hroom : length dir + 13 ≤ reach)
    (htext : σ.tree.readText (σ.path (manifestIn dir)) = .ok text) {v : JsonValue}
    (hparse : JsonValue.parse? text = some v) :
    project.HasManifest ((namedPieces dir).map ofText) (.ofJson v) := by
  obtain ⟨content, hstat, hdecode⟩ := exists_stat_of_readText htext
  have hfind := σ.find?_of_stat (arePieces_manifestIn h) ((length_manifestIn dir).trans hroom) hstat
  rw [namedPieces_manifestIn, List.map_append] at hfind
  exact ⟨content, text, v, hfind, hdecode, hparse, rfl⟩

theorem readText_manifestIn (σ τ : Site project reach) (h : ArePieces dir)
    (hroom : length dir + 13 ≤ reach) : σ.tree.readText (σ.path (manifestIn dir)) =
      τ.tree.readText (τ.path (manifestIn dir)) :=
  σ.readText_eq τ (arePieces_manifestIn h) ((length_manifestIn dir).trans hroom)

/-- A manifest that is absent says nothing at all sites; any other one is the same at all of
them. -/
theorem parallel_manifestOf (σ τ : Site project reach) (h : ArePieces dir)
    (hroom : length dir + 13 ≤ reach) :
    Parallel (fun m m' => m = m' ∧
        (m = .empty ∨ project.HasManifest ((namedPieces dir).map ofText) m))
      (NodeResolution.manifestOf σ.tree (σ.path (manifestIn dir)))
      (NodeResolution.manifestOf τ.tree (τ.path (manifestIn dir))) := by
  have hread := σ.readText_manifestIn τ h hroom
  unfold NodeResolution.manifestOf Manifest.load
  rw [← hread]
  cases htext : σ.tree.readText (σ.path (manifestIn dir)) with
  | error e => exact .ok ⟨rfl, .inl rfl⟩
  | ok text =>
    dsimp only
    unfold Manifest.parse
    cases hparse : JsonValue.parse? text with
    | none => exact .error rfl
    | some v => exact .ok ⟨rfl, .inr (σ.hasManifest_of_readText h hroom htext hparse)⟩

/-! ## The package that the project is -/

/-- Above a site no package is found. -/
theorem search_outside (σ : Site project reach) {outside : List FilePath}
    (h : ∀ d ∈ outside, ∃ front, front <+: σ.names ∧ front ≠ σ.names ∧ d = ofNames front) :
    PackageScope.search σ.tree outside = .ok none := by
  induction outside with
  | nil => rfl
  | cons d outside ih =>
    obtain ⟨front, hfront, hne, rfl⟩ := h d List.mem_cons_self
    have hrest := ih fun d hd => h d (List.mem_cons_of_mem _ hd)
    have hslash : ∀ n ∈ front, slash ∉ n := fun n hn =>
      slash_notMem_of_isName (σ.named n (hfront.subset hn))
    have hlast : front.getLast? ≠ some [] := fun hnil =>
      ne_nil_of_isName (σ.named _ (hfront.subset (List.mem_of_getLast? hnil))) rfl
    have hpieces : Manifest.fileName.pieces = [Manifest.fileName] := by decide
    have hjoin := ofNames_join hslash hlast (q := Manifest.fileName) (by decide)
    rw [hpieces] at hjoin
    obtain ⟨e, hstat⟩ : ∃ e, σ.tree.stat (ofNames (front ++ [Manifest.fileName])) = .error e :=
      σ.exists_stat_bare hfront hne (by simp) (by simp) (by simp)
    have hfile : σ.tree.isFile ((ofNames front).join Manifest.fileName) = false := by
      unfold FileTree.isFile
      rw [hjoin, hstat]
    unfold PackageScope.search
    split
    · rfl
    · dsimp only
      rw [hfile]
      exact hrest

theorem fileName?_root (σ : Site project reach) :
    (σ.path [[]]).fileName? ≠ some PackageScope.installDir := by
  intro h
  have hfound := (Option.filter_eq_some_iff.1 h).1
  have hmem := List.mem_of_find?_eq_some hfound
  rw [σ.piecesBack_root] at hmem
  rcases List.mem_cons.1 hmem with hempty | hname
  · exact absurd hempty (by decide)
  · exact σ.notInstalled (List.mem_reverse.1 hname)

theorem search_root (σ : Site project reach) : ∃ outside,
    PackageScope.find σ.tree (σ.path [[]]) = PackageScope.search σ.tree (σ.path [[]] :: outside) ∧
      PackageScope.search σ.tree outside = .ok none := by
  obtain ⟨outside, hancestors, houtside⟩ := σ.ancestors_root
  exact ⟨outside, congrArg _ hancestors, σ.search_outside houtside⟩

theorem root_join (σ : Site project reach) :
    (σ.path [[]]).join Manifest.fileName = σ.path [manifestName] :=
  σ.path_join_fileName arePieces_empty

/-- A project without a manifest that can be read belongs to no package. -/
theorem find_of_unread (σ : Site project reach)
    (h : σ.tree.isFile (σ.path [manifestName]) = true →
      ∃ e, σ.tree.readText (σ.path [manifestName]) = .error e) :
    PackageScope.find σ.tree (σ.path [[]]) = .ok none := by
  obtain ⟨outside, hfind, hnone⟩ := σ.search_root
  rw [hfind, PackageScope.search, if_neg (by simpa using σ.fileName?_root)]
  dsimp only
  rw [σ.root_join]
  split
  · exact hnone
  · rename_i hfile
    obtain ⟨e, hread⟩ := h (by simpa using hfile)
    unfold Manifest.load
    rw [hread]
    exact hnone

/-- A project whose manifest can be read is the package of that manifest. -/
theorem find_of_read (σ : Site project reach)
    (hfile : σ.tree.isFile (σ.path [manifestName]) = true)
    (hread : σ.tree.readText (σ.path [manifestName]) = .ok text) :
    PackageScope.find σ.tree (σ.path [[]]) =
      (Manifest.parse (σ.path [manifestName]) text).map fun manifest =>
        some ⟨σ.path [[]], σ.path [manifestName], manifest⟩ := by
  obtain ⟨outside, hfind, -⟩ := σ.search_root
  rw [hfind, PackageScope.search, if_neg (by simpa using σ.fileName?_root)]
  dsimp only
  rw [σ.root_join, hfile]
  unfold Manifest.load Manifest.parse
  rw [hread]
  dsimp only
  cases JsonValue.parse? text with
  | none => rfl
  | some v => rfl

/-- **The package that a project belongs to** is that of its own manifest, if it has one. -/
theorem parallel_find (σ τ : Site project reach) (hroom : 14 ≤ reach) :
    Parallel (Option.Rel fun s s' => s.manifestPath = σ.path [manifestName] ∧
        s'.manifestPath = τ.path [manifestName] ∧ s.manifest = s'.manifest ∧
          project.HasManifest [] s.manifest)
      (PackageScope.find σ.tree (σ.path [[]])) (PackageScope.find τ.tree (τ.path [[]])) := by
  have hroom' : length [[]] + 13 ≤ reach := hroom
  have hisFile := σ.isFile_eq τ arePieces_manifestName (Nat.le_of_succ_le hroom)
  have hread : σ.tree.readText (σ.path [manifestName]) = τ.tree.readText (τ.path [manifestName]) :=
    σ.readText_manifestIn τ arePieces_empty hroom'
  by_cases hfile : σ.tree.isFile (σ.path [manifestName]) = true
  swap
  · have hfile' : ¬ τ.tree.isFile (τ.path [manifestName]) = true := hisFile ▸ hfile
    rw [σ.find_of_unread fun h => absurd h hfile, τ.find_of_unread fun h => absurd h hfile']
    exact .ok .none
  cases htext : σ.tree.readText (σ.path [manifestName]) with
  | error e =>
    rw [σ.find_of_unread fun _ => ⟨e, htext⟩, τ.find_of_unread fun _ => ⟨e, hread ▸ htext⟩]
    exact .ok .none
  | ok text =>
    rw [σ.find_of_read hfile htext, τ.find_of_read (hisFile ▸ hfile) (hread ▸ htext)]
    unfold Manifest.parse
    cases hparse : JsonValue.parse? text with
    | none => exact .error rfl
    | some v =>
      have hmanifest := σ.hasManifest_of_readText arePieces_empty hroom' htext hparse
      exact .ok (.some ⟨rfl, rfl, rfl, hmanifest⟩)

/-! ## Installed packages -/

/-- The pieces of the directory that a package is installed in. -/
def installedIn (name : List Char) : List (List Char) :=
  "node_modules".toList :: Text.splitWhere (· == '/') name

theorem splitWhere_isSlash {name : List Char} (h : ∀ c ∈ name, c ∈ Url.plainChars) :
    Text.splitWhere Url.isSlash name = Text.splitWhere (· == '/') name := by
  refine Text.splitWhere_congr fun c hc => ?_
  have hne : c ≠ '\\' := Url.ne_of_plain (h c hc) (by decide)
  simp [Url.isSlash, hne]

theorem length_installedIn {name : List Char} (h : ∀ c ∈ name, c ∈ Url.plainChars) :
    length (installedIn name) = name.length + 14 := by
  have hmodules : length ["node_modules".toList] = 13 := by decide
  have hback : '\\' ∉ name := fun hmem => Url.ne_of_plain (h _ hmem) (by decide) rfl
  have hpieces : length (Text.splitWhere (· == '/') name) = name.length + 1 := by
    unfold length
    rw [← splitWhere_isSlash h, Url.joinSegments_splitWhere hback, List.length_cons]
  have happend := length_append ["node_modules".toList] (Text.splitWhere (· == '/') name)
  rw [hmodules, hpieces] at happend
  exact happend.trans (Nat.add_comm ..)

/-- The names of packages: plain texts that lead to no directory above. -/
theorem arePieces_installedIn {name : List Char} (h : Url.Descends name) :
    ArePieces (installedIn name) := by
  intro t ht
  rcases List.mem_cons.1 ht with rfl | ht
  · exact ⟨Text.forall_mem_of_all (by decide), by decide⟩
  · refine ⟨fun c hc => ?_, ?_⟩
    · obtain ⟨hname, hslash⟩ := Text.of_mem_splitWhere ht hc
      exact ⟨h.chars c hname, by simpa using hslash⟩
    · rintro rfl
      exact h.stays (splitWhere_isSlash h.chars ▸ ht)

/-- The directory that a package is installed in, below a site. -/
theorem path_installedIn (σ : Site project reach) {name : List Char} (h : name.head? ≠ some '/') :
    ((σ.path [[]]).join PackageScope.installDir).join (.ofText name) =
      σ.path (installedIn name) := by
  have hmodules : ArePieces ["node_modules".toList] := by
    intro t ht
    rw [List.mem_singleton.1 ht]
    exact ⟨Text.forall_mem_of_all (by decide), by decide⟩
  have hdir : (σ.path [[]]).join PackageScope.installDir = σ.path ["node_modules".toList] := by
    have hpieces : Text.splitWhere (· == '/') "node_modules".toList = ["node_modules".toList] := by
      decide
    have hhead : "node_modules".toList.head? ≠ some '/' := by decide
    rw [← hpieces]
    exact σ.path_join_open [] hhead
  rw [hdir]
  exact σ.path_join hmodules (by decide) h

/-- Above a site nothing is installed. -/
theorem not_isDirectory_outside (σ : Site project reach) {front : List FilePath}
    (hfront : front <+: σ.names) (hne : front ≠ σ.names) {name : List Char}
    (hname : name.head? ≠ some '/') (hzero : '\x00' ∉ name) :
    σ.tree.isDirectory (((ofNames front).join PackageScope.installDir).join (.ofText name)) =
      false := by
  have hslash : ∀ n ∈ front, slash ∉ n := fun n hn =>
    slash_notMem_of_isName (σ.named n (hfront.subset hn))
  have hlast : front.getLast? ≠ some [] := fun hnil =>
    ne_nil_of_isName (σ.named _ (hfront.subset (List.mem_of_getLast? hnil))) rfl
  have hdir : (ofNames front).join PackageScope.installDir =
      ofNames (front ++ [PackageScope.installDir]) := ofNames_join hslash hlast (by decide)
  have hslash' : ∀ n ∈ front ++ [PackageScope.installDir], slash ∉ n := by
    intro n hn
    rcases List.mem_append.1 hn with hn | hn
    · exact hslash n hn
    · rw [List.mem_singleton.1 hn]
      decide
  have hpath := ofNames_join hslash' (by simp [PackageScope.installDir, ofText_ne_nil])
    (isAbsolute_ofText hname)
  obtain ⟨e, hstat⟩ : ∃ e, σ.tree.stat
      (ofNames (front ++ PackageScope.installDir :: (ofText name).pieces)) = .error e :=
    σ.exists_stat_bare hfront hne (by simp)
      (fun p hp hb => by simpa using (Text.of_mem_splitWhere hp hb).2)
      (fun p hp hb => hzero ((Utf8.mem_encode_iff (c := '\x00') (by decide)).1
        (Text.of_mem_splitWhere hp hb).1))
  unfold FileTree.isDirectory
  rw [hdir, hpath, List.append_assoc, List.singleton_append, hstat]

/-- **An installed package** lies in the same directory of the project at all sites, or in none. -/
theorem installDir?_cases (σ τ : Site project reach) {name : List Char} (h : Url.Descends name)
    (hhead : name.head? ≠ some '/') (hroom : name.length + 14 ≤ reach) :
    NodeResolution.installDir? σ.tree (σ.path [[]]) name = some (σ.path (installedIn name)) ∧
        NodeResolution.installDir? τ.tree (τ.path [[]]) name = some (τ.path (installedIn name)) ∧
        project.find? ((namedPieces (installedIn name)).map ofText) = some .directory ∨
      NodeResolution.installDir? σ.tree (σ.path [[]]) name = none ∧
        NodeResolution.installDir? τ.tree (τ.path [[]]) name = none := by
  have hpieces := arePieces_installedIn h
  have hlength : length (installedIn name) ≤ reach := by rwa [length_installedIn h.chars]
  have hzero : '\x00' ∉ name := fun hmem => absurd (h.chars _ hmem) (by decide)
  have hsame := σ.isDirectory_eq τ hpieces hlength
  have hfirst : ∀ ρ : Site project reach, ∃ outside : List FilePath,
      (∀ d ∈ outside, ρ.tree.isDirectory d = false) ∧
        NodeResolution.installDir? ρ.tree (ρ.path [[]]) name =
          (ρ.path (installedIn name) :: outside).find? ρ.tree.isDirectory := by
    intro ρ
    obtain ⟨outside, hancestors, houtside⟩ := ρ.ancestors_root
    refine ⟨outside.map fun d => (d.join PackageScope.installDir).join (.ofText name), ?_, ?_⟩
    · intro d hd
      obtain ⟨above, habove, rfl⟩ := List.mem_map.1 hd
      obtain ⟨front, hfront, hne, rfl⟩ := houtside above habove
      exact ρ.not_isDirectory_outside hfront hne hhead hzero
    · unfold NodeResolution.installDir?
      rw [hancestors, List.map_cons, ρ.path_installedIn hhead]
  obtain ⟨outside, hσ, hfindσ⟩ := hfirst σ
  obtain ⟨outside', hτ, hfindτ⟩ := hfirst τ
  rw [hfindσ, hfindτ]
  by_cases hdir : σ.tree.isDirectory (σ.path (installedIn name)) = true
  · refine .inl ⟨List.find?_cons_of_pos hdir, List.find?_cons_of_pos (hsame ▸ hdir), ?_⟩
    refine σ.find?_of_stat hpieces hlength ?_
    unfold FileTree.isDirectory at hdir
    split at hdir
    · assumption
    · cases hdir
  · refine .inr ⟨?_, ?_⟩
    · rw [List.find?_cons_of_neg hdir, List.find?_eq_none]
      simpa using hσ
    · rw [List.find?_cons_of_neg (hsame ▸ hdir), List.find?_eq_none]
      simpa using hτ

end Site

end EsModules
