import EsModules.Proofs.Resolution.ProjectTargets

/-!
# Specifiers in a project

A specifier in the directory of a project is resolved side by side at two sites, as a path, through
the imports map of the project's manifest, or as the name of a package: of the project itself, or of
one that is installed in it.

* `Project.IsPlain`: projects whose manifests hold plain texts.
* `NodeResolution.parallel_mainFile`, `NodeResolution.parallel_installed`: packages.
* `NodeResolution.parallel_resolvePackage`, `NodeResolution.parallel_resolveInternal`: names.
* `NodeResolution.parallel_locate`, `NodeResolution.parallel_resolve`: specifiers.
-/

namespace EsModules

open FilePath

/-! ## Plain projects -/

/-- No name in a project holds a star, and its manifests hold plain texts of a limited length: the
main files of packages, the targets of their exports, and the targets of the imports of the project
itself, which are level and hold a limited number of stars. -/
structure Project.IsPlain (project : Project) (size stars : Nat) : Prop where
  starless : ∀ place e, project.find? place = some e → ∀ n ∈ place, UInt8.ofNat '*'.toNat ∉ n
  main : ∀ dir m, project.HasManifest dir m → ∀ text ∈ m.main,
    Url.Descends text ∧ text.head? ≠ some '/' ∧ text.length ≤ size
  exports : ∀ dir m, project.HasManifest dir m → ∀ map ∈ m.exports,
    NodeResolution.TextsAre size stars map
  imports : ∀ m, project.HasManifest [] m → ∀ map ∈ m.imports,
    NodeResolution.TextsAre size stars map

/-- What the stars of the keys of a project's imports stand for in an internal name has no piece of
one or two dots. -/
def Project.Fills (project : Project) (text : List Char) : Prop :=
  text.head? = some '#' → ∀ m, project.HasManifest [] m → ∀ map ∈ m.imports,
    ∀ e ∈ map.entries?.getD [], ∀ filling, PackageMap.matchKey? e.1 text = some filling →
      Url.IsFilling filling

/-! ## Texts with endings -/

namespace Url

variable {text ending : List Char}

/-- Plain texts that may be put behind others: three characters or more without a slash, or a slash
and pieces of which none leads to the directory above. -/
structure IsEnding (ending : List Char) : Prop where
  chars : ∀ c ∈ ending, c ∈ plainChars
  stays : '/' ∉ ending ∧ 3 ≤ ending.length ∨
    ending.head? = some '/' ∧ "..".toList ∉ Text.splitWhere isSlash ending

instance (ending : List Char) : Decidable (IsEnding ending) :=
  decidable_of_iff ((ending.all isPlain && !ending.contains '/') = true ∧ 3 ≤ ending.length ∨
      ending.head? == some '/' ∧ keepsLevel isSlash ending = true) <| by
    simp only [keepsLevel_iff, Bool.and_eq_true, List.all_eq_true, ← mem_plainChars_iff,
      Bool.not_eq_true', List.contains_eq_mem, decide_eq_false_iff_not, beq_iff_eq]
    constructor
    · rintro (⟨⟨hchars, hslash⟩, hlong⟩ | ⟨hslash, hchars, hstays⟩)
      · exact ⟨hchars, .inl ⟨hslash, hlong⟩⟩
      · exact ⟨hchars, .inr ⟨hslash, hstays⟩⟩
    · rintro ⟨hchars, ⟨hslash, hlong⟩ | ⟨hslash, hstays⟩⟩
      · exact .inl ⟨⟨hchars, hslash⟩, hlong⟩
      · exact .inr ⟨hslash, hchars, hstays⟩

/-- No piece becomes two dots with an ending. -/
theorem Descends.append_ending (h : Descends text) (hending : IsEnding ending) :
    Descends (text ++ ending) := by
  obtain ⟨hchars, ⟨hslash, hlong⟩ | ⟨hslash, hstays⟩⟩ := hending
  · refine ⟨fun c hc => (List.mem_append.1 hc).elim (h.chars c) (hchars c), fun hp => ?_⟩
    have hwhole : Text.splitWhere isSlash ending = [ending] :=
      Text.splitWhere_of_forall fun c hc => by
        have hback : c ≠ '\\' := ne_of_plain (hchars c hc) (by decide)
        simp [isSlash, hback, ne_of_mem_of_not_mem hc hslash]
    obtain ⟨init, last, hinit, happend⟩ := @Text.exists_splitWhere_append _ isSlash text
    rw [happend _ _ _ hwhole] at hp
    rcases List.mem_append.1 hp with hp | hp
    · exact h.stays (hinit ▸ List.mem_append_left _ hp)
    · have heq := congrArg List.length (List.mem_singleton.1 hp)
      rw [List.length_append] at heq
      have htwo : "..".toList.length = 2 := rfl
      omega
  · obtain ⟨behind, rfl⟩ := List.head?_eq_some_iff.1 hslash
    rw [Text.splitWhere_of_cut rfl, List.mem_cons, not_or] at hstays
    exact descends_append_slash.2
      ⟨h, fun c hc => hchars c (List.mem_cons_of_mem _ hc), hstays.2⟩

end Url

/-! ## References -/

namespace Site

variable {project : Project} {reach : Nat} {σ τ : Site project reach} {dir : List (List Char)}
  {text : List Char} {u v : Url}

/-- A plain reference in corresponding directories is read side by side. -/
theorem exists_join (hdir : AreNames dir) (hu : u.LiesIn (σ.segs dir))
    (hv : v.LiesIn (τ.segs dir)) (htext : Url.Descends text) (hne : text ≠ [])
    (hslash : text.head? ≠ some '/') (hsharp : text.head? ≠ some '#')
    (hroom : length dir + text.length + 2 ≤ reach) :
    ∃ w x, u.join text = .ok w ∧ v.join text = .ok x ∧ Corresponds σ τ w x ∧ w.isFile = true :=
  ⟨_, _, Url.join_descends hu (σ.driveless_segs hdir.1) htext hne hslash hsharp,
    Url.join_descends hv (τ.driveless_segs hdir.1) htext hne hslash hsharp,
    corresponds_behind σ τ hdir htext hroom, rfl⟩

/-- A plain reference to a manifest may be a fragment of it. -/
theorem exists_join_manifest (σ τ : Site project reach) (hdir : AreNames dir)
    (htext : Url.Descends text) (hne : text ≠ []) (hslash : text.head? ≠ some '/')
    (hroom : length dir + text.length + 15 ≤ reach) :
    ∃ w x, (σ.url (dir ++ [manifestName]) none).join text = .ok w ∧
      (τ.url (dir ++ [manifestName]) none).join text = .ok x ∧ Corresponds σ τ w x ∧
        w.isFile = true := by
  by_cases hsharp : text.head? = some '#'
  · obtain ⟨fragment, rfl⟩ := List.head?_eq_some_iff.1 hsharp
    have hfragment : ∀ c ∈ fragment, c ∈ Url.plainChars := fun c hc =>
      htext.chars c (List.mem_cons_of_mem _ hc)
    refine ⟨_, _, Url.join_fragment hfragment _, Url.join_fragment hfragment _,
      .below (some fragment) (pieces_manifest hdir) ?_, rfl⟩
    have hname : length [manifestName] = 13 := by decide
    rw [length_append, hname]
    omega
  · exact exists_join hdir (σ.liesIn_manifest hdir) (τ.liesIn_manifest hdir) htext hne hslash hsharp
      (by omega)

end Site

namespace NodeResolution

open Site PackageMap

variable {project : Project} {reach size stars : Nat} {σ τ : Site project reach}
  {dir : List (List Char)} {text : List Char} {b c : Url}

/-! ## Packages -/

/-- Candidates are looked for side by side. -/
theorem rel_find?_join {u v : Url} {candidates : List (List Char)}
    (h : ∀ text ∈ candidates, ∃ w x, u.join text = .ok w ∧ v.join text = .ok x ∧
      Corresponds σ τ w x ∧ w.isFile = true) :
    Option.Rel (Corresponds σ τ)
      ((candidates.filterMap fun text => (u.join text).toOption).find? (leadsToFile σ.tree))
      ((candidates.filterMap fun text => (v.join text).toOption).find? (leadsToFile τ.tree)) := by
  induction candidates with
  | nil => exact .none
  | cons text candidates ih =>
    have hrest := ih fun other hother => h other (List.mem_cons_of_mem _ hother)
    obtain ⟨w, x, hw, hx, hwx, hfile⟩ := h text List.mem_cons_self
    have hw' : (u.join text).toOption = some w := by rw [hw]; rfl
    have hx' : (v.join text).toOption = some x := by rw [hx]; rfl
    have hleads := leadsToFile_eq hwx hfile
    rw [List.filterMap_cons, List.filterMap_cons, hw', hx']
    dsimp only
    cases hfound : leadsToFile σ.tree w with
    | true =>
      rw [List.find?_cons_of_pos hfound, List.find?_cons_of_pos (hleads ▸ hfound)]
      exact .some hwx
    | false =>
      rw [List.find?_cons_of_neg (by simp [hfound]),
        List.find?_cons_of_neg (by simp [← hleads, hfound])]
      exact hrest

/-- The index files that a package may mean. -/
theorem descends_index : ∀ text ∈ ["./index.js", "./index.json", "./index.node"].map String.toList,
    Url.Descends text ∧ text ≠ [] ∧ text.head? ≠ some '/' ∧ text.length ≤ 13 := by
  decide

theorem isEnding_main : ∀ ending ∈ [".js", ".json", ".node", "/index.js", "/index.json",
    "/index.node"], Url.IsEnding ending.toList ∧ ending.toList.length ≤ 11 := by
  decide

/-- The main file may be any of some plain texts behind the directory of the package. -/
theorem descends_mainCandidates {main : Option (List Char)}
    (hmain : ∀ text ∈ main, Url.Descends text ∧ text.head? ≠ some '/' ∧ text.length ≤ size) :
    ∀ text ∈ mainCandidates main, Url.Descends text ∧ text ≠ [] ∧ text.head? ≠ some '/' ∧
      text.length ≤ size + 13 := by
  have hindex : ∀ text ∈ ["./index.js", "./index.json", "./index.node"].map String.toList,
      Url.Descends text ∧ text ≠ [] ∧ text.head? ≠ some '/' ∧ text.length ≤ size + 13 :=
    fun text htext => (descends_index text htext).imp id (And.imp id (And.imp id (by omega)))
  intro text htext
  unfold mainCandidates at htext
  dsimp only at htext
  split at htext
  · exact hindex text htext
  rename_i m hm
  obtain ⟨hm, hne⟩ := Option.filter_eq_some_iff.1 hm
  obtain ⟨hdescends, hslash, hlength⟩ := hmain m hm
  rcases List.mem_cons.1 htext with rfl | htext
  · exact ⟨hdescends, by simpa using hne, hslash, by omega⟩
  rcases List.mem_append.1 htext with htext | htext
  · obtain ⟨ending, hending, rfl⟩ := List.mem_map.1 htext
    obtain ⟨hending, hshort⟩ := isEnding_main ending hending
    have hdot : Url.Descends ['.'] := by decide
    have hsplit : "./".toList ++ m ++ ending.toList = ['.'] ++ '/' :: (m ++ ending.toList) := by
      simp
    rw [hsplit]
    refine ⟨Url.descends_append_slash.2 ⟨hdot, hdescends.append_ending hending⟩, by simp, by simp,
      ?_⟩
    simp
    omega
  · exact hindex text htext

/-- **The main file** of a package below the sites is looked for side by side. -/
theorem parallel_mainFile (σ τ : Site project reach) (h : ArePieces dir) {m : Manifest}
    (hmain : ∀ text ∈ m.main, Url.Descends text ∧ text.head? ≠ some '/' ∧ text.length ≤ size)
    (hroom : length (namedPieces dir) + size + 28 ≤ reach) (b c : Url) :
    Parallel (Corresponds σ τ)
      (mainFile σ.tree (σ.url (namedPieces dir ++ [manifestName]) none) m b)
      (mainFile τ.tree (τ.url (namedPieces dir ++ [manifestName]) none) m c) := by
  have hfound := @rel_find?_join _ _ σ τ (σ.url (namedPieces dir ++ [manifestName]) none)
    (τ.url (namedPieces dir ++ [manifestName]) none) (mainCandidates m.main) fun text htext => by
      obtain ⟨hdescends, hne, hslash, hlength⟩ := descends_mainCandidates hmain text htext
      exact exists_join_manifest σ τ h.areNames hdescends hne hslash (by omega)
  unfold mainFile
  dsimp only
  generalize List.find? (leadsToFile σ.tree) _ = found at hfound ⊢
  generalize List.find? (leadsToFile τ.tree) _ = found' at hfound ⊢
  cases hfound with
  | none => exact .error rfl
  | some huv => exact .ok huv

/-- **An installed package** is resolved in side by side. -/
theorem parallel_installed (hproject : project.IsPlain size stars) (σ τ : Site project reach)
    (h : ArePieces dir) (hstarless : ∀ t ∈ namedPieces dir, '*' ∉ t) {specifier subpath : List Char}
    (hsubpath : Url.Descends subpath) (hdot : subpath.head? = some '.')
    (hdir : length dir + 13 ≤ reach)
    (hroom : length (namedPieces dir) + (size + stars * subpath.length) + subpath.length + 28 ≤
      reach)
    (b c : Url) (conditions : List (List Char)) :
    Parallel (Corresponds σ τ)
      (installed σ.tree (σ.path dir) specifier subpath b conditions)
      (installed τ.tree (τ.path dir) specifier subpath c conditions) := by
  unfold installed
  dsimp only
  rw [σ.path_join_fileName h, τ.path_join_fileName h]
  refine (σ.parallel_manifestOf τ h hdir).bind fun m m' hm => ?_
  obtain ⟨rfl, hm⟩ := hm
  have hexports : ∀ map ∈ m.exports, TextsAre size stars map := by
    rcases hm with rfl | hm
    · intro map hmap
      cases hmap
    · exact hproject.exports _ m hm
  have hmain : ∀ text ∈ m.main,
      Url.Descends text ∧ text.head? ≠ some '/' ∧ text.length ≤ size := by
    rcases hm with rfl | hm
    · intro text htext
      cases htext
    · exact hproject.main _ m hm
  cases hmap : m.exports with
  | some exports =>
    exact parallel_exported h hstarless (hexports exports hmap) hsubpath.chars (by omega) b c
      conditions
  | none =>
    dsimp only
    rw [fileUrl_manifestIn σ h, fileUrl_manifestIn τ h]
    show Parallel _ (if subpath == ['.'] then _ else _) (if subpath == ['.'] then _ else _)
    split
    · exact parallel_mainFile σ τ h hmain (by omega) b c
    · have hne : subpath ≠ [] := by
        rintro rfl
        cases hdot
      have hslash : subpath.head? ≠ some '/' := by
        rw [hdot]
        decide
      obtain ⟨w, x, hw, hx, hwx, -⟩ :=
        exists_join_manifest σ τ h.areNames hsubpath hne hslash (by omega)
      rw [hw, hx]
      exact .ok hwx

/-! ## Names of packages -/

/-- A specifier is the name of a package with nothing behind it, or with a slash. -/
theorem exists_of_packageName {name subpath : List Char}
    (h : packageName text = .ok (name, subpath)) :
    ∃ rest, text = name ++ rest ∧ subpath = '.' :: rest ∧ (rest = [] ∨ rest.head? = some '/') ∧
      name.head? ≠ some '/' := by
  have htake : ∀ cs : List Char, ∃ rest, cs = cs.takeWhile (· != '/') ++ rest ∧
      (rest = [] ∨ rest.head? = some '/') := by
    intro cs
    refine ⟨cs.dropWhile (· != '/'), List.takeWhile_append_dropWhile.symm, ?_⟩
    cases hrest : cs.dropWhile (· != '/') with
    | nil => exact .inl rfl
    | cons c rest =>
      have hhead := List.head?_dropWhile_not (· != '/') cs
      rw [hrest] at hhead
      exact .inr (by simpa using hhead)
  have hname : ∀ found, (if text.head? == some '@' then scopedName? text
        else some (text.takeWhile (· != '/'))) = some found →
      ∃ rest, text = found ++ rest ∧ (rest = [] ∨ rest.head? = some '/') ∧
        found.head? ≠ some '/' := by
    intro found hfound
    split at hfound
    · rename_i hat
      unfold scopedName? at hfound
      split at hfound
      · cases hfound
      · rename_i scope rest hsplit
        obtain rfl := Option.some.inj hfound
        obtain ⟨rfl, hscope⟩ := Text.splitOnce_eq_some_iff.1 hsplit
        obtain ⟨more, hmore, hend⟩ := htake rest
        refine ⟨more, ?_, hend, ?_⟩
        · rw [List.append_assoc, List.cons_append, ← hmore]
        · cases scope with
          | nil => cases hat
          | cons c scope =>
            intro hslash
            exact hscope (by simp [Option.some.inj hslash])
    · obtain rfl := Option.some.inj hfound
      obtain ⟨rest, hrest, hend⟩ := htake text
      refine ⟨rest, hrest, hend, fun hslash => ?_⟩
      have hkeep := List.mem_takeWhile_imp (List.mem_of_head? hslash)
      simp at hkeep
  unfold packageName at h
  dsimp only at h
  split at h
  · cases h
  rename_i found hfound
  split at h
  · cases h
  obtain ⟨rfl, rfl⟩ := Prod.mk.inj (Except.ok.inj h)
  obtain ⟨rest, htext, hend, hslash⟩ := hname found hfound
  refine ⟨rest, htext, ?_, hend, hslash⟩
  rw [htext, List.drop_left]

end NodeResolution

/-! ## Builtin modules -/

/-- The id of a builtin module is a URL, and not that of a file. -/
theorem Url.exists_parse_builtin (htext : ∀ c ∈ text, c ∈ plainChars) (hne : text ≠ [])
    (hslash : text.head? ≠ some '/') :
    ∃ url, parse (Builtins.protocol ++ text) = .ok url ∧ url.isFile = false := by
  obtain ⟨c, rest, rfl⟩ := List.exists_cons_of_ne_nil hne
  have hfirst : c ≠ '/' := by simpa using hslash
  have htrim : trimControls (Builtins.protocol ++ c :: rest) = Builtins.protocol ++ c :: rest := by
    have hend : trimEnd ("ode:".toList ++ c :: rest) = "ode:".toList ++ c :: rest :=
      trimEnd_eq_self_iff.2 fun d hd => by
        rw [List.getLast?_append_of_ne_nil _ (List.cons_ne_nil c rest)] at hd
        exact not_le_of_plain (htext d (List.mem_of_getLast? hd))
    have hcons : Builtins.protocol ++ c :: rest = 'n' :: ("ode:".toList ++ c :: rest) := rfl
    rw [hcons, trimControls_cons (by decide), hend]
  have hscheme : splitScheme? (Builtins.protocol ++ c :: rest) =
      some ("node".toList, c :: rest) := by
    have hcons : Builtins.protocol ++ c :: rest =
        'n' :: 'o' :: 'd' :: 'e' :: ':' :: c :: rest := rfl
    rw [hcons]
    unfold splitScheme?
    rw [List.span_eq_takeWhile_dropWhile]
    rfl
  unfold parse read
  dsimp only
  rw [htrim, hscheme]
  show ∃ url, readGeneral "node".toList (withoutBreaks (c :: rest)) = .ok url ∧ _
  rw [withoutBreaks_of_plain htext]
  unfold readGeneral
  split
  · rename_i heq
    exact absurd (List.cons.inj heq).1 hfirst
  · rename_i heq
    exact absurd (List.cons.inj heq).1 hfirst
  · obtain ⟨query, fragment, htail⟩ := exists_withTail_eq _ _
    exact ⟨_, congrArg Except.ok htail, rfl⟩

/-- The builtin modules that a plain text names are no files. -/
theorem Builtins.exists_parse_of_canonical? {text id : List Char}
    (htext : ∀ c ∈ text, c ∈ Url.plainChars) (h : Builtins.node.canonical? text = some id) :
    ∃ url, Url.parse id = .ok url ∧ url.isFile = false := by
  obtain ⟨hcontains, hid⟩ := Option.ite_none_right_eq_some.1 h
  obtain rfl := Option.some.inj hid
  have hcolon : ':' ∉ text := fun hmem => Url.ne_of_plain (htext _ hmem) (by decide) rfl
  have hbare : Builtins.bareId text = text := by
    refine Builtins.bareId_eq_self fun hprefix => hcolon ?_
    exact hprefix.subset (by decide)
  unfold Builtins.contains Builtins.packageName at hcontains
  rw [hbare, List.contains_iff_mem] at hcontains
  have hnames : ∀ name ∈ Builtins.node.names, name ≠ [] := by decide +kernel
  have hname := hnames _ hcontains
  rw [hbare]
  refine Url.exists_parse_builtin htext ?_ ?_
  · rintro rfl
    exact hname rfl
  · intro hslash
    obtain ⟨rest, rfl⟩ := List.head?_eq_some_iff.1 hslash
    exact hname rfl

namespace NodeResolution

open Site PackageMap

variable {project : Project} {reach size stars limit : Nat} {σ τ : Site project reach}
  {text : List Char} {u v : Url}

/-! ## Packages by name -/

/-- The directory of a file right in the project. -/
theorem directory_eq (hu : u.LiesIn (σ.segs [])) : directory u = .ok (σ.path [[]]) := by
  have hdescends : Url.Descends "./".toList := by decide
  have hjoin := Url.join_descends hu (σ.driveless_segs areNames_nil.1) hdescends (by decide)
    (by decide) (by decide)
  have hurl : Url.behind (σ.segs []) "./".toList = σ.url [[]] none :=
    σ.behind_eq_url hdescends (by decide)
  unfold directory
  rw [hjoin, hurl]
  exact σ.filePath_url arePieces_empty none

/-- The names of what a project holds have no stars. -/
theorem starless_of_find? (hproject : project.IsPlain size stars) {ts : List (List Char)}
    {e : Entry} (hfind : project.find? (ts.map ofText) = some e) : ∀ t ∈ ts, '*' ∉ t := by
  intro t ht hmem
  exact hproject.starless _ e hfind _ (List.mem_map_of_mem ht)
    ((Utf8.mem_encode_iff (by decide)).2 hmem)

/-- The exports of the project itself are the same at both sites. -/
theorem parallel_selfExports? (hproject : project.IsPlain size stars) (σ τ : Site project reach)
    (hroom : 14 ≤ reach) (name : List Char) :
    Parallel (Option.Rel fun found found' => found.1 = σ.path [manifestName] ∧
        found'.1 = τ.path [manifestName] ∧ found.2 = found'.2 ∧ TextsAre size stars found.2)
      (selfExports? σ.tree (σ.path [[]]) name) (selfExports? τ.tree (τ.path [[]]) name) := by
  refine (σ.parallel_find τ hroom).bind fun scope scope' hscope => ?_
  cases hscope with
  | none => exact .ok .none
  | @some scope scope' h =>
    obtain ⟨hleft, hright, heq, hmanifest⟩ := h
    dsimp only
    rw [← heq, hleft, hright]
    split
    · cases hmap : scope.manifest.exports with
      | none => exact .ok .none
      | some map =>
        exact .ok (.some ⟨rfl, rfl, rfl, hproject.exports [] _ hmanifest map hmap⟩)
    · exact .ok .none

/-- The name of a package and its subpath lead to no directory above. -/
theorem descends_parts {name rest : List Char} (h : Url.Descends (name ++ rest))
    (hend : rest = [] ∨ rest.head? = some '/') :
    Url.Descends name ∧ Url.Descends ('.' :: rest) := by
  have hdot : Url.Descends ['.'] := by decide
  rcases hend with rfl | hslash
  · exact ⟨List.append_nil name ▸ h, hdot⟩
  · obtain ⟨behind, rfl⟩ := List.head?_eq_some_iff.1 hslash
    obtain ⟨hname, hbehind⟩ := Url.descends_append_slash.1 h
    exact ⟨hname, @Url.descends_append_slash ['.'] behind |>.2 ⟨hdot, hbehind⟩⟩

/-- **The name of a package** is resolved side by side. -/
theorem parallel_resolvePackage (hproject : project.IsPlain size stars) (hu : u.LiesIn (σ.segs []))
    (hv : v.LiesIn (τ.segs [])) (htext : Url.Descends text) (hlength : text.length ≤ limit)
    (hroom : (stars + 2) * limit + size + stars + 43 ≤ reach) (conditions : List (List Char)) :
    Parallel (Corresponds σ τ) (resolvePackage σ.tree .node u conditions text)
      (resolvePackage τ.tree .node v conditions text) := by
  unfold resolvePackage
  cases hbuiltin : Builtins.node.canonical? text with
  | some id =>
    obtain ⟨url, hurl, hremote⟩ := Builtins.exists_parse_of_canonical? htext.chars hbuiltin
    dsimp only
    rw [hurl]
    exact .ok (.remote hremote)
  | none =>
    dsimp only
    rw [directory_eq hu, directory_eq hv]
    cases hname : packageName text with
    | error e => exact .error rfl
    | ok found =>
      obtain ⟨name, subpath⟩ := found
      obtain ⟨rest, rfl, rfl, hend, hslash⟩ := exists_of_packageName hname
      rw [List.length_append] at hlength
      obtain ⟨hnamed, hsubpath⟩ := descends_parts htext hend
      have hsize : stars * ('.' :: rest).length ≤ stars * limit + stars := by
        rw [← Nat.mul_succ]
        exact Nat.mul_le_mul (Nat.le_refl stars) (Nat.succ_le_succ (by omega))
      rw [Nat.add_mul] at hroom
      show Parallel _ (selfExports? σ.tree (σ.path [[]]) name >>= _)
        (selfExports? τ.tree (τ.path [[]]) name >>= _)
      refine (parallel_selfExports? hproject σ τ (by omega) name).bind fun self self' hself => ?_
      cases hself with
      | @some found found' h =>
        obtain ⟨hleft, hright, heq, hexports⟩ := h
        have hroot : length (namedPieces []) = 0 := rfl
        dsimp only
        rw [hleft, hright, ← heq]
        exact parallel_exported areNames_nil.1 (by simp [namedPieces]) hexports hsubpath.chars
          (by omega) u v conditions
      | none =>
        dsimp only
        rcases installDir?_cases σ τ hnamed hslash (by omega) with
          ⟨hleft, hright, hfind⟩ | ⟨hleft, hright⟩
        · have hshort := length_namedPieces (installedIn name)
          rw [length_installedIn hnamed.chars] at hshort
          rw [hleft, hright]
          refine parallel_installed hproject σ τ (arePieces_installedIn hnamed)
            (starless_of_find? hproject hfind) hsubpath rfl ?_ ?_ u v conditions
          · rw [length_installedIn hnamed.chars]
            omega
          · rw [List.length_cons] at hsize ⊢
            omega
        · rw [hleft, hright]
          exact .error rfl

/-! ## Internal names -/

/-- **An internal name** is resolved side by side. -/
theorem parallel_resolveInternal (hproject : project.IsPlain size stars)
    (hfills : project.Fills text) (hsharp : text.head? = some '#') (hu : u.LiesIn (σ.segs []))
    (hv : v.LiesIn (τ.segs []))
    (hlength : size + stars * text.length ≤ limit)
    (hroom : (stars + 2) * limit + size + stars + 43 ≤ reach) (conditions : List (List Char)) :
    Parallel (Corresponds σ τ) (resolveInternal σ.tree .node u conditions text)
      (resolveInternal τ.tree .node v conditions text) := by
  unfold resolveInternal
  rw [directory_eq hu, directory_eq hv]
  split
  · exact .error rfl
  show Parallel _ (PackageScope.find σ.tree (σ.path [[]]) >>= _)
    (PackageScope.find τ.tree (τ.path [[]]) >>= _)
  refine (σ.parallel_find τ (by omega)).bind fun scope scope' hscope => ?_
  cases hscope with
  | none => exact .error rfl
  | @some scope scope' h =>
    obtain ⟨hleft, hright, heq, hmanifest⟩ := h
    dsimp only
    rw [← heq, hleft, hright]
    cases hmap : scope.manifest.imports with
    | none => exact .error rfl
    | some imports =>
      have hurl : ∀ ρ : Site project reach,
          fileUrl (ρ.path [manifestName]) = .ok (ρ.url [manifestName] none) := fun ρ =>
        @fileUrl_manifestIn _ _ [] ρ areNames_nil.1
      have halong : Context.Alongside σ τ [] limit
          (contextAt σ [] u conditions
            (some (resolvePackage σ.tree .node (σ.url [manifestName] none) conditions)))
          (contextAt τ [] v conditions
            (some (resolvePackage τ.tree .node (τ.url [manifestName] none) conditions))) :=
        ⟨areNames_nil, by simp, rfl, rfl, rfl, .some fun name hname hshort =>
          parallel_resolvePackage hproject (σ.liesIn_manifest areNames_nil)
            (τ.liesIn_manifest areNames_nil) hname hshort hroom conditions⟩
      dsimp only
      rw [hurl σ, hurl τ]
      refine Parallel.bind (r := Option.Rel (Corresponds σ τ)) (Context.parallel_resolveImport
        halong.conditions fun req hreq target htarget => ?_) fun found found' hfound => ?_
      · obtain ⟨hlevel, hshort, hstars⟩ := hproject.imports _ hmanifest imports hmap target htarget
        have hasked : req.isPattern = false ∧ req.text = [] ∨
            req.isPattern = true ∧ Url.IsFilling req.text := by
          rcases hreq with rfl | ⟨hpattern, ⟨t, hmem⟩, hmatch⟩
          · exact .inl ⟨rfl, rfl⟩
          · exact .inr ⟨hpattern, hfills hsharp _ hmanifest imports hmap _ hmem _ hmatch⟩
        have hless : req.text.length ≤ text.length := by
          rcases hreq with rfl | ⟨-, -, hmatch⟩
          · exact Nat.zero_le _
          · obtain ⟨-, before, after, -, -, -, hname⟩ := matchKey?_eq_some_iff.1 hmatch
            simp [hname]
            omega
        have hcount : target.count '*' * req.text.length ≤ stars * text.length :=
          Nat.mul_le_mul hstars hless
        have hroot : length ([] : List (List Char)) = 0 := rfl
        rw [Nat.add_mul] at hroom
        refine Context.parallel_resolvePath halong hlevel (hasked.imp And.right And.left) ?_
          (by omega) fun _ => ⟨hasked, by omega⟩
        rcases hasked with ⟨-, hempty⟩ | ⟨-, hfilling⟩
        · simp [hempty]
        · exact hfilling.chars
      · cases hfound with
        | none => exact .error rfl
        | some huv => exact .ok huv

/-! ## Specifiers -/

/-- A plain text is no URL. -/
theorem url?_of_plain (h : ∀ c ∈ text, c ∈ Url.plainChars) : url? text = none := by
  have hcolon : ∀ c ∈ text.drop 2, (c != ':') = true := fun c hc => by
    simpa using Url.ne_of_plain (h c (List.mem_of_mem_drop hc)) (by decide)
  have hprotocol : Id.protocol? text = none := by
    unfold Id.protocol?
    split
    · rfl
    · rw [List.span_eq_takeWhile_dropWhile, List.dropWhile_eq_nil_iff.2 hcolon]
  unfold url?
  rw [hprotocol]

theorem isFile_of_liesIn {front : List (List Char)} (h : u.LiesIn front) : u.isFile = true := by
  obtain ⟨last, -, -, rfl⟩ := h.file
  rfl

/-- A path that is not absolute starts with a dot. -/
theorem head?_of_isPath (h : isPath text = true) (hslash : text.head? ≠ some '/') :
    text.head? = some '.' := by
  unfold isPath at h
  simp only [Bool.or_eq_true, beq_iff_eq, List.isPrefixOf_iff_prefix] at h
  rcases h with (((h | rfl) | rfl) | ⟨rest, rfl⟩) | ⟨rest, rfl⟩
  · exact absurd h hslash
  all_goals rfl

/-- **The URL that a specifier stands for** is found side by side. -/
theorem parallel_locate (hproject : project.IsPlain size stars) (hfills : project.Fills text)
    (hu : u.LiesIn (σ.segs [])) (hv : v.LiesIn (τ.segs [])) (htext : Url.Descends text)
    (hne : text ≠ []) (hslash : text.head? ≠ some '/') (hlength : text.length ≤ limit)
    (hstarred : size + stars * text.length ≤ limit)
    (hroom : (stars + 2) * limit + size + stars + 43 ≤ reach) (conditions : List (List Char)) :
    Parallel (Corresponds σ τ) (locate σ.tree .node text u conditions)
      (locate τ.tree .node text v conditions) := by
  have hlimit : 2 * limit ≤ (stars + 2) * limit := Nat.mul_le_mul_right limit (by omega)
  unfold locate
  rw [isFile_of_liesIn hu, isFile_of_liesIn hv, Bool.true_and]
  split
  · rename_i hpath
    have hsharp : text.head? ≠ some '#' := by
      rw [head?_of_isPath hpath hslash]
      decide
    have hroot : length ([] : List (List Char)) = 0 := rfl
    obtain ⟨w, x, hw, hx, hwx, -⟩ :=
      exists_join areNames_nil hu hv htext hne hslash hsharp (by omega)
    rw [hw, hx]
    exact .ok hwx
  split
  · rename_i hsharp
    exact parallel_resolveInternal hproject hfills (by simpa using hsharp) hu hv hstarred hroom
      conditions
  · rw [url?_of_plain htext.chars]
    exact parallel_resolvePackage hproject hu hv htext hlength hroom conditions

/-- **A specifier** is resolved side by side. -/
theorem parallel_resolve (hproject : project.IsPlain size stars) (hfills : project.Fills text)
    (hu : u.LiesIn (σ.segs [])) (hv : v.LiesIn (τ.segs [])) (htext : Url.Descends text)
    (hne : text ≠ []) (hslash : text.head? ≠ some '/') (hlength : text.length ≤ limit)
    (hstarred : size + stars * text.length ≤ limit)
    (hroom : (stars + 2) * limit + size + stars + 43 ≤ reach) (conditions : List (List Char)) :
    Parallel (Meets σ τ) (resolve σ.tree .node text u conditions)
      (resolve τ.tree .node text v conditions) := by
  refine (parallel_locate hproject hfills hu hv htext hne hslash hlength hstarred hroom
    conditions).bind fun w x hwx => ?_
  rw [← hwx.isFile_eq]
  cases hfile : w.isFile with
  | true => exact parallel_finalize hwx hfile u v
  | false =>
    obtain rfl := hwx.of_not_isFile hfile
    rw [if_neg Bool.false_ne_true, if_neg Bool.false_ne_true]
    split
    · rename_i hremote
      exact .ok (.remote hremote)
    · exact .error rfl

end NodeResolution

end EsModules
