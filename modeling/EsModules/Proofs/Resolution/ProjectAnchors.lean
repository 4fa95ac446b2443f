import EsModules.Proofs.Resolution.ProjectSpecifiers
import EsModules.Proofs.Resolution.Search

/-!
# The anchors of a project

A resolver whose working directory is that of a project tries specifiers against three URLs: that of
the directory itself, that of an index file in it, and that of the installation directory beside
that.  All of them lie right in the project.

* `Url.setPath_segments`: a path that is read anew.
* `Site.anchors_eq`, `Site.liesIn_anchor`: the anchors of a project at a site.
-/

namespace EsModules

/-! ## URLs -/

namespace Url

variable {front : List (List Char)} {last : List Char}

theorem addPiece_first {s : List Char} (h : IsSegment s) (hdrive : ':' ∉ s ∧ '|' ∉ s) :
    addPiece true [[]] s true = [s] ++ [[]] := by
  unfold addPiece
  dsimp only
  rw [if_pos (by decide), brokenDrive?_of_driveless hdrive]
  dsimp only
  rw [h.encode]
  unfold addSegment
  rw [h.notDouble, h.notSingle, isDriveLetter_of_driveless hdrive]
  simp [isNormalDriveLetter, extendLast]

/-- **A path that is read anew** is that of its segments. -/
theorem setPath_segments (h : IsDirectory front) (hdrive : Driveless front) (hlast : IsSegment last)
    {url : Url} (hscheme : url.scheme = bareFile.scheme) :
    url.setPath (joinSegments front ++ '/' :: last) =
      { url with location := .segments (front ++ [last]) } := by
  have hpieces : pathPieces bareFile.scheme (joinSegments front ++ '/' :: last) =
      [] :: (front ++ [last]) := by
    have hwhole : Text.splitWhere isSlash last = [last] := Text.splitWhere_of_forall fun c hc =>
      isSlash_of_isPathChar (hlast.chars c hc)
    rw [pathPieces_file, splitWhere_joinSegments h.segments, hwhole]
  obtain ⟨s, more, rfl⟩ := List.exists_cons_of_ne_nil h.ne_nil
  have hread : addPieces true [] ([] :: (s :: more ++ [last])) = s :: more ++ [last] := by
    have hmore : (!(more ++ [last]).isEmpty) = true := by simp
    have hfirst : addPiece true [] [] true = [[]] := by decide
    have hrest := addPieces_segments (List.cons_ne_nil s [])
      (fun t ht => h.segments t (List.mem_cons_of_mem s ht)) hlast
    rw [addPieces, List.cons_append]
    show addPieces true (addPiece true [] [] true) (s :: (more ++ [last])) = _
    rw [hfirst, addPieces, hmore, addPiece_first (h.segments s List.mem_cons_self)
      (hdrive s List.mem_cons_self), hrest]
    rfl
  have hpath : readPath url.scheme [] (joinSegments (s :: more) ++ '/' :: last) =
      s :: more ++ [last] := by
    unfold readPath
    rw [hscheme, hpieces]
    show dropEmptyFront (addPieces true [] _) = _
    rw [hread]
    exact h.dropEmptyFront [last]
  unfold setPath
  rw [hpath]

end Url

/-! ## Anchors -/

namespace Site

variable {project : Project} {reach : Nat}

/-- The path of the directory of a project. -/
def root (σ : Site project reach) : FilePath := FilePath.ofNames σ.names

/-- The URLs that specifiers are tried against in the directory of a project. -/
def anchorUrls (σ : Site project reach) : List Url :=
  [[], "_index.js".toList, "node_modules".toList].map fun name => σ.url [name] none

theorem isAnchorName : ∀ name ∈ [[], "_index.js".toList, "node_modules".toList],
    (∀ c ∈ name, c ∈ Url.plainChars ∧ c ≠ '/' ∧ c ≠ '#') ∧ name ≠ ['.'] ∧ name ≠ "..".toList := by
  decide

theorem liesIn_anchor (σ : Site project reach) {name : List Char}
    (h : name ∈ [[], "_index.js".toList, "node_modules".toList]) :
    (σ.url [name] none).LiesIn (σ.segs []) := by
  obtain ⟨hchars, hhere, habove⟩ := isAnchorName name h
  exact σ.liesIn_url areNames_nil hchars hhere habove

theorem ofDirectory_root (σ : Site project reach) :
    Anchor.ofDirectory σ.tree σ.root = .ok (σ.url [[]] none) := by
  have hpath : σ.tree.absolute σ.root = .ok σ.root := by
    have hempty : σ.root.isEmpty = false := by
      have habsolute : σ.root.isAbsolute = true := FilePath.isAbsolute_ofNames _
      cases hroot : σ.root with
      | nil => rw [hroot] at habsolute; cases habsolute
      | cons b p => rfl
    unfold FileTree.absolute
    rw [hempty]
    exact congrArg Except.ok
      (FilePath.absolute_ofPieces σ.ne_nil (fun n hn => FilePath.isPiece_of_isName (σ.named n hn)) _)
  have hsegs : Url.openLast (σ.segs []) = σ.segs [[]] := by
    have hlast : (σ.segs []).getLast? ≠ some [] := fun hnil => by
      obtain ⟨n, hn, hempty⟩ := List.mem_map.1 (List.mem_of_getLast? hnil)
      have hname : n ∈ σ.names := by simpa using hn
      exact Url.encodeBytes_ne_nil (FilePath.ne_nil_of_isName (σ.named n hname)) hempty
    have hopen : Url.openLast (σ.segs []) = σ.segs [] ++ [[]] := if_neg (by simpa using hlast)
    rw [hopen]
    exact (@segs_append_of_plain _ _ [[]] σ [] (by simp)).symm
  have hurl : Url.ofDirectoryPath? σ.root = some (σ.url [[]] none) := by
    have hnames : (Url.ofNames σ.names).segments = σ.segs [] := by
      unfold segs
      rw [List.map_nil, List.append_nil]
      rfl
    unfold Url.ofDirectoryPath? root url
    rw [Url.ofFilePath?_ofNames σ.ne_nil σ.named, ← hsegs, ← hnames]
    rfl
  unfold Anchor.ofDirectory
  rw [hpath]
  dsimp only [Except.mapError, bind, Except.bind]
  rw [hurl]
  rfl

theorem url_injective (σ : Site project reach) {s t : List Char}
    (hs : ∀ c ∈ s, c ∈ Url.plainChars ∧ c ≠ '/' ∧ c ≠ '#')
    (ht : ∀ c ∈ t, c ∈ Url.plainChars ∧ c ≠ '/' ∧ c ≠ '#')
    (h : σ.url [s] none = σ.url [t] none) : s = t := by
  have hlocation : UrlPath.segments (σ.segs [s]) = .segments (σ.segs [t]) :=
    congrArg Url.location h
  have hsegs := UrlPath.segments.inj hlocation
  rw [← List.nil_append [s], ← List.nil_append [t], σ.segs_append_of_plain [] (by simpa using hs),
    σ.segs_append_of_plain [] (by simpa using ht)] at hsegs
  exact List.singleton_inj.1 (List.append_cancel_left hsegs)

theorem distinct_anchorUrls (σ : Site project reach) :
    Anchor.distinct ([σ.url [[]] none] ++ σ.anchorUrls) = σ.anchorUrls := by
  have hne : ∀ s ∈ [[], "_index.js".toList, "node_modules".toList],
      ∀ t ∈ [[], "_index.js".toList, "node_modules".toList], s ≠ t →
        σ.url [s] none ≠ σ.url [t] none := fun s hs t ht hst heq =>
    hst (σ.url_injective (isAnchorName s hs).1 (isAnchorName t ht).1 heq)
  have hindex := hne "_index.js".toList (by simp) [] (by simp) (by decide)
  have hmodules := hne "node_modules".toList (by simp) [] (by simp) (by decide)
  have hboth := hne "node_modules".toList (by simp) "_index.js".toList (by simp) (by decide)
  unfold Anchor.distinct anchorUrls
  simp only [List.map_cons, List.map_nil, List.cons_append, List.nil_append, List.foldl_cons,
    List.foldl_nil, List.contains_eq_mem, List.mem_cons, List.not_mem_nil, hindex, hmodules, hboth,
    or_self, or_false, decide_true, decide_false, if_true, Bool.false_eq_true, if_false]

/-- The index file that is looked for in the directory of a project. -/
theorem indexProbe_root (σ : Site project reach) :
    Anchor.indexProbe (σ.url [[]] none) = σ.url ["_index.js".toList] none := by
  have hdir := σ.isDirectory_segs areNames_nil
  have hpath : (σ.url [[]] none).path = Url.joinSegments (σ.segs []) ++ ['/'] := by
    have hsegs : σ.segs [[]] = σ.segs [] ++ [[]] :=
      @segs_append_of_plain _ _ [[]] σ [] (by simp)
    show Url.joinSegments (σ.segs [[]]) = _
    rw [hsegs, Url.joinSegments_append]
    rfl
  have hkeep : (Url.joinSegments (σ.segs [])).rdropWhile (· == '/') =
      Url.joinSegments (σ.segs []) := by
    obtain ⟨init, last, hsegs⟩ := List.eq_nil_or_concat' (σ.segs []) |>.resolve_left hdir.ne_nil
    have hlast : last ∈ σ.segs [] := by simp [hsegs]
    obtain ⟨n, hn, hwritten⟩ := List.mem_map.1 hlast
    have hname : n ∈ σ.names := by simpa using hn
    have hne : last ≠ [] :=
      hwritten ▸ Url.encodeBytes_ne_nil (FilePath.ne_nil_of_isName (σ.named n hname))
    obtain ⟨front, c, rfl⟩ := List.eq_nil_or_concat' last |>.resolve_left hne
    have hc : c ≠ '/' :=
      PercentEncoding.ne_of_isPathChar ((hdir.segments _ hlast).chars c (by simp)) (by decide)
    have hend : Url.joinSegments (σ.segs []) = (Url.joinSegments init ++ '/' :: front) ++ [c] := by
      rw [hsegs, Url.joinSegments_append, Url.joinSegments_singleton]
      simp
    rw [hend, List.rdropWhile_concat_neg _ _ _ (by simpa using hc)]
  have hlast : Url.IsSegment "_index.js".toList := by
    obtain ⟨hchars, hhere, habove⟩ := isAnchorName "_index.js".toList (by simp)
    exact Url.isSegment_of_plain hchars hhere habove
  have hset := @Url.setPath_segments _ _ hdir (σ.driveless_segs areNames_nil.1) hlast
    (σ.url [[]] none) rfl
  unfold Anchor.indexProbe
  rw [hpath]
  show (σ.url [[]] none).setPath
    ((Url.joinSegments (σ.segs []) ++ ['/']).rdropWhile (· == '/') ++ "/_index.js".toList) = _
  rw [List.rdropWhile_concat_pos _ _ _ (by rfl), hkeep]
  have hsegs : σ.segs ["_index.js".toList] = σ.segs [] ++ ["_index.js".toList] :=
    @segs_append_of_plain _ _ ["_index.js".toList] σ [] (by decide)
  refine hset.trans ?_
  unfold url
  rw [hsegs]

/-- **The anchors of a project** at a site. -/
theorem anchors_eq (σ : Site project reach) :
    (Resolver.new (.new σ.root) .none).anchors σ.tree .none = .ok σ.anchorUrls := by
  have hlies : (σ.url [[]] none).LiesIn (σ.segs []) := σ.liesIn_anchor (by simp)
  have hdrive := σ.driveless_segs areNames_nil.1
  have hjoin : ∀ text, Url.Descends text → text ≠ [] → text.head? ≠ some '/' →
      text.head? ≠ some '#' → ¬ Url.Climbs text → (σ.url [[]] none).join text =
        .ok (σ.url (Url.trailOf text) (Url.fragmentPart? text)) := by
    intro text htext hne hslash hsharp hclimbs
    rw [Url.join_descends hlies hdrive htext hne hslash hsharp]
    exact congrArg Except.ok (σ.behind_eq_url htext hclimbs)
  have hdir : (σ.url [[]] none).join "./".toList = .ok (σ.url [[]] none) :=
    hjoin _ (by decide) (by decide) (by decide)
      (by decide) (by decide)
  have hmodules : (σ.url [[]] none).join "node_modules".toList =
      .ok (σ.url ["node_modules".toList] none) :=
    hjoin _ (by decide) (by decide) (by decide)
      (by decide) (by decide)
  have hderived : Anchor.derived (σ.url [[]] none) = .ok σ.anchorUrls := by
    unfold Anchor.derived
    rw [σ.indexProbe_root]
    dsimp only
    rw [hdir, hmodules]
    rfl
  show (do
    let primary ← (Anchor.ofDirectory σ.tree σ.root).map ([·])
    let derived ← (primary.filter Url.isFile).mapM Anchor.derived
    return Anchor.distinct (primary ++ derived.flatten)) = Except.ok σ.anchorUrls
  rw [σ.ofDirectory_root]
  show (do
    let derived ← [σ.url [[]] none].mapM Anchor.derived
    return Anchor.distinct ([σ.url [[]] none] ++ derived.flatten)) = Except.ok σ.anchorUrls
  rw [List.mapM_cons, List.mapM_nil, hderived]
  show Except.ok (Anchor.distinct ([σ.url [[]] none] ++ [σ.anchorUrls].flatten)) = _
  rw [List.flatten_singleton]
  exact congrArg Except.ok σ.distinct_anchorUrls

end Site

end EsModules
