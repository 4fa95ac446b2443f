import EsModules.Proofs.Package.Arrival
import EsModules.Proofs.Package.Installed
import Mathlib

/-!
# Published subpaths and where they lead

A file in a package is published under the subpath of the first path in the exports map that stands
for it.  What the map gives for that subpath is the file if it is led to such a path again, as long
as the path is one that may be given at all and the names below the package are written in a URL as
they are.  It may as well be led elsewhere: a more specific key, an exclusion or an earlier
condition is not looked for when a file is published.

* `Subpath.IsPublished`: the subpath that a file is published under.
* `PackageMap.Context.Manages`: where the exports map of the package of a file is evaluated.
* `Subpath.resolve_published`: what the map gives for the subpath of a file.
-/

namespace EsModules

namespace PackageMap

open Text Url PercentEncoding

/-! ## Paths that may be given -/

/-- A path without forbidden segments has none of the dots among its pieces. -/
theorem ne_dots_of_hasForbiddenSegment {text : List Char} (h : hasForbiddenSegment text = false) :
    ∀ p ∈ splitWhere isSlash text, p ≠ ".".toList ∧ p ≠ "..".toList := by
  intro p hp
  have hallowed := List.any_eq_false.1 h p hp
  constructor
  · rintro rfl
    exact hallowed (by decide)
  · rintro rfl
    exact hallowed (by decide)

namespace Context

variable {ctx : Context} {r : Request} {front : List (List Char)} {text : List Char}

/-- A path without forbidden segments is located below the directory of the manifest. -/
theorem locate_below (h : ctx.manifestUrl.LiesIn front) (htext : IsPathText text)
    (hallowed : hasForbiddenSegment text = false) :
    ctx.locate ('.' :: '/' :: text) r = .ok (below front text) := by
  have hdrop : hasForbiddenSegment (('.' :: '/' :: text).drop 2) = false := hallowed
  have hinside : (below front []).path.isPrefixOf (below front text).path = true := by
    rw [List.isPrefixOf_iff_prefix, path_below, path_below]
    refine (List.prefix_append_right_inj _).2 ?_
    exact slash_prefix_joinSegments (splitWhere_ne_nil _ _)
  unfold locate packageUrl
  rw [hdrop, if_neg Bool.false_ne_true, join_below h htext, join_here h]
  dsimp only
  rw [if_pos hinside]

/-- A path for no text gives the file that it names. -/
theorem resolvePath_exact (h : ctx.manifestUrl.LiesIn front) (htext : IsPathText text)
    (hallowed : hasForbiddenSegment text = false) (hr : r.text = []) :
    ctx.resolvePath ('.' :: '/' :: text) r = .ok (below front text) := by
  have hdot : "./".toList.isPrefixOf ('.' :: '/' :: text) = true := by simp
  unfold resolvePath
  rw [hr, hdot, locate_below h htext hallowed]
  rfl

/-- The text of a star is put into the text of the URL, which is read anew. -/
theorem resolvePath_star (h : ctx.manifestUrl.LiesIn front) (htext : IsPathText text)
    (hallowed : hasForbiddenSegment text = false) (hback : '\\' ∉ text)
    (hr : r.isPattern = true) (hne : r.text ≠ []) (hmatch : hasForbiddenSegment r.text = false)
    (hstar : '*' ∉ joinSegments front)
    (hread : IsPathText (replaceChar '*' r.text (encode inPath text))) :
    ctx.resolvePath ('.' :: '/' :: text) r =
      .ok (below front (replaceChar '*' r.text (encode inPath text))) := by
  have hdot : "./".toList.isPrefixOf ('.' :: '/' :: text) = true := by simp
  have hsome : r.text.isEmpty = false := by simpa using hne
  have hhref : replaceChar '*' r.text (below front text).href = "file://".toList ++
      (joinSegments front ++ '/' :: replaceChar '*' r.text (encode inPath text)) := by
    have hcons : ∀ cs, replaceChar '*' r.text ('/' :: cs) = '/' :: replaceChar '*' r.text cs :=
      fun cs => rfl
    rw [href_below front hback, replaceChar_append, replaceChar_append, hcons,
      replaceChar_eq_self hstar, replaceChar_eq_self (by decide)]
  unfold resolvePath
  rw [hsome, hr, hdot, locate_below h htext hallowed]
  dsimp only
  rw [hmatch, hhref, parse_below h.dir hread]
  rfl

/-- A path without a star gives the file that it names, for every text. -/
theorem resolvePath_starless (h : ctx.manifestUrl.LiesIn front) (htext : IsPathText text)
    (hallowed : hasForbiddenSegment text = false) (hback : '\\' ∉ text) (hnone : '*' ∉ text)
    (hr : r.text = [] ∨ r.isPattern = true ∧ r.text ≠ [])
    (hmatch : hasForbiddenSegment r.text = false) (hstar : '*' ∉ joinSegments front) :
    ctx.resolvePath ('.' :: '/' :: text) r = .ok (below front text) := by
  rcases hr with hempty | ⟨hpattern, hne⟩
  · exact resolvePath_exact h htext hallowed hempty
  · have hwritten : '*' ∉ encode inPath text := fun hmem =>
      hnone (mem_of_mem_encode (by decide) (by decide) hmem)
    have hsame : below front (encode inPath text) = below front text := by
      unfold below
      rw [encode_encode]
    have hresolve := resolvePath_star h htext hallowed hback hpattern hne hmatch hstar
      (by rw [replaceChar_eq_self hwritten]; exact htext.written)
    rwa [replaceChar_eq_self hwritten, hsame] at hresolve

/-- A path with a star that is allowed, and what it becomes once a text takes the place of the star
as it does in the key: if the whole is one that URLs take as it is, that file is given. -/
theorem resolvePath_replaced (h : ctx.manifestUrl.LiesIn front)
    (hstar : '*' ∉ joinSegments front) {before after : List Char}
    (hverbatim : IsVerbatim (before ++ (r.text ++ after)))
    (hnone : '*' ∉ before ++ (r.text ++ after))
    (hdots : ∀ p ∈ splitWhere isSlash (before ++ (r.text ++ after)),
      p ≠ ".".toList ∧ p ≠ "..".toList)
    (hr : r.isPattern = true) (hne : r.text ≠ [])
    (hallowed : hasForbiddenSegment (before ++ '*' :: after) = false)
    (hmatch : hasForbiddenSegment r.text = false) :
    ctx.resolvePath ('.' :: '/' :: (before ++ '*' :: after)) r =
      .ok (below front (before ++ (r.text ++ after))) := by
  have htext : IsVerbatim (before ++ '*' :: after) := hverbatim.star
  have hbefore : '*' ∉ encode inPath before := fun hmem =>
    hnone (by simp [mem_of_mem_encode (by decide) (by decide) hmem])
  have hafter : '*' ∉ encode inPath after := fun hmem =>
    hnone (by simp [mem_of_mem_encode (by decide) (by decide) hmem])
  have hreplaced : replaceChar '*' r.text (encode inPath (before ++ '*' :: after)) =
      encode inPath before ++ (r.text ++ encode inPath after) := by
    have hcons : ∀ cs, replaceChar '*' r.text ('*' :: cs) = r.text ++ replaceChar '*' r.text cs :=
      fun cs => rfl
    rw [encode_append, encode_cons_of_lt inPath (by decide) (by decide), replaceChar_append, hcons,
      replaceChar_eq_self hbefore, replaceChar_eq_self hafter]
  have hread := hverbatim.isPathText_written hdots
  have hlocated : below front (encode inPath before ++ (r.text ++ encode inPath after)) =
      below front (before ++ (r.text ++ after)) := by
    unfold below
    simp only [encode_append, encode_encode]
  rw [← hlocated, ← hreplaced]
  refine resolvePath_star h (htext.isPathText (ne_dots_of_hasForbiddenSegment hallowed)) hallowed
    (htext.notMem (by decide)) hr hne hmatch hstar ?_
  rwa [hreplaced]

/-- Paths into the package are given only without forbidden segments, and only for a text without
forbidden segments. -/
theorem allowed_of_dotSlash {target : List Char} {url : Url} (hdot : "./".toList <+: target)
    (h : ctx.resolvePath target r = .ok url) :
    hasForbiddenSegment (target.drop 2) = false ∧ hasForbiddenSegment r.text = false := by
  have hinside : "./".toList.isPrefixOf target = true := List.isPrefixOf_iff_prefix.2 hdot
  unfold resolvePath at h
  rw [hinside] at h
  split at h
  · cases h
  rw [if_neg (by simp)] at h
  split at h
  · cases h
  rename_i located hlocated
  have htarget : hasForbiddenSegment (target.drop 2) = false := by
    by_contra hforbidden
    unfold locate at hlocated
    rw [Bool.not_eq_false] at hforbidden
    rw [hforbidden] at hlocated
    cases hlocated
  refine ⟨htarget, ?_⟩
  split at h
  · rename_i hempty
    rw [List.isEmpty_iff.1 hempty]
    decide
  split at h
  · cases h
  · rename_i hmatch
    exact Bool.of_not_eq_true hmatch

/-- Only paths into the package without forbidden segments are given by an exports map, and only for
a text without forbidden segments. -/
theorem allowed_of_resolvePath {target : List Char} {url : Url} (hnone : ctx.resolvePackage = none)
    (h : ctx.resolvePath target r = .ok url) : "./".toList <+: target ∧
      hasForbiddenSegment (target.drop 2) = false ∧ hasForbiddenSegment r.text = false := by
  have hdot : "./".toList <+: target := by
    by_contra hforeign
    rw [← List.isPrefixOf_iff_prefix, Bool.not_eq_true] at hforeign
    unfold resolvePath at h
    rw [hforeign] at h
    split at h
    · cases h
    unfold resolveForeign at h
    rw [hnone] at h
    cases h
  exact ⟨hdot, allowed_of_dotSlash hdot h⟩

/-- Conditions do not matter to what a path is resolved to. -/
theorem resolvePath_conditions (ctx : Context) (conditions : List (List Char)) :
    resolvePath { ctx with conditions := conditions } = ctx.resolvePath := rfl

end Context

end PackageMap

/-! ## Published files -/

namespace Subpath

open Text Url FilePath PercentEncoding PackageMap

/-- A file is published under a key: it lies in a package whose exports map has a path that stands
for it, and the first such path is under that key. -/
structure IsPublished (tree : FileTree) (path location : List Char) (p : InstalledPath)
    (exports : Target) (key : List Char) : Prop where
  toPath : Id.toPath path = .ok location
  installed : InstalledPath.parse location = .ok (some p)
  subpath : p.subpath ≠ []
  map : exportsOf tree p = .ok (some exports)
  found : exports.publishedPaths.findSome? (fun e => published? e.1 e.2 p.subpath) = some key

variable {tree : FileTree} {path location : List Char} {p : InstalledPath} {exports : Target}
  {key : List Char}

/-- **A published file** is found under its key. -/
theorem IsPublished.resolve (h : IsPublished tree path location p exports key) :
    Subpath.resolve tree path = .ok key := by
  have hsome : p.subpath.isEmpty = false := by simpa using h.subpath
  have hfound := h.found
  unfold Subpath.resolve
  rw [h.toPath]
  show (InstalledPath.parse location >>= _) = _
  rw [h.installed]
  show (if p.subpath.isEmpty then _ else _) = _
  rw [hsome, if_neg Bool.false_ne_true]
  show (exportsOf tree p >>= _) = _
  rw [h.map]
  show Except.ok (Option.getD _ _) = _
  rw [hfound]
  rfl

theorem stripDot_dotSlash (text : List Char) : stripDot ('.' :: '/' :: text) = text := by
  simp [stripDot, dropPrefix?]

/-- A path stands for a file if it names it, or if its first star stands for a text that makes it
name the file. -/
theorem published?_eq_some {text rest k : List Char}
    (h : published? key ('.' :: '/' :: text) ('.' :: '/' :: rest) = some k) :
    '*' ∉ text ∧ text = rest ∧ k = key ∨ ∃ before middle after, text = before ++ '*' :: after ∧
      rest = before ++ (middle ++ after) ∧ '*' ∈ key ∧ k = replaceFirst '*' middle key := by
  unfold published? at h
  rw [stripDot_dotSlash, stripDot_dotSlash] at h
  dsimp only at h
  split at h
  · rename_i hnone
    obtain ⟨htext, heq⟩ := Option.ite_none_right_eq_some.1 h
    obtain rfl := Option.some.inj heq
    exact .inl ⟨splitOnce_eq_none_iff.1 hnone, by simpa using htext, rfl⟩
  · rename_i before after hsplit
    obtain ⟨htext, -⟩ := splitOnce_eq_some_iff.1 hsplit
    obtain ⟨behind, hbehind, h⟩ := Option.bind_eq_some_iff.1 h
    obtain ⟨middle, hmiddle, h⟩ := Option.bind_eq_some_iff.1 h
    obtain ⟨hstar, heq⟩ := Option.ite_none_right_eq_some.1 h
    obtain rfl := Option.some.inj heq
    refine .inr ⟨before, middle, after, htext, ?_, by simpa using hstar, rfl⟩
    rw [dropSuffix?_eq_some_iff.1 hmiddle, dropPrefix?_eq_some_iff.1 hbehind]

/-- Where the exports map of a package is evaluated that has a file in it: the path of the file has
no dots and no idle pieces, the manifest lies in the directory of the package, and a URL is that of
the file. -/
structure Manages (ctx : Context) (location : List Char) (p : InstalledPath) (url : Url) :
    Prop where
  place : ∃ ns, ofText location = FilePath.ofNames ns ∧ ∀ n ∈ ns, isName n = true
  manifest : ofFilePath? ((ofText p.packageDir).join Manifest.fileName) = some ctx.manifestUrl
  exports : ctx.resolvePackage = none
  file : ofFilePath? (ofText location) = some url

variable {ctx : Context} {url : Url}

theorem normalize_of_toPath {id : List Char} (h : Id.toPath id = .ok location) :
    Location.normalize location = location := by
  have htwice : ∀ cs, Location.normalize (Location.normalize cs) = Location.normalize cs := by
    intro cs
    unfold Location.normalize
    rw [List.map_map]
    refine List.map_congr_left fun c _ => ?_
    by_cases hc : c = '\\' <;> simp [hc]
  unfold Id.toPath at h
  split at h
  · split at h
    · cases h
    · split at h
      · cases h
      · obtain rfl := Except.ok.inj h
        exact htwice _
  · obtain rfl := Except.ok.inj h
    exact htwice _

/-- An absolute path is no URL. -/
theorem toPath_of_isAbsolute (h : (ofText location).isAbsolute = true) :
    Id.toPath location = .ok (Location.normalize location) := by
  have hfile : Id.fileProtocol.isPrefixOf location = false := by
    by_contra hprotocol
    rw [Bool.not_eq_false, List.isPrefixOf_iff_prefix] at hprotocol
    obtain ⟨rest, rfl⟩ := hprotocol
    have hfirst : Utf8.encode Id.fileProtocol = 0x66 :: Utf8.encode "ile://".toList := by decide
    rw [ofText, Utf8.encode_append, hfirst] at h
    cases h
  unfold Id.toPath
  rw [hfile, if_neg Bool.false_ne_true]

/-- The parts of an absolute path are those of the path itself. -/
theorem ofLocation?_of_parse (hplace : ∃ ns, ofText location = FilePath.ofNames ns)
    (hpath : Id.toPath path = .ok location) (h : InstalledPath.parse location = .ok (some p)) :
    InstalledPath.ofLocation? location = some p := by
  obtain ⟨ns, hns⟩ := hplace
  have habsolute : (ofText location).isAbsolute = true := hns ▸ isAbsolute_ofNames ns
  obtain ⟨found, hfound, heq⟩ := map_eq_ok.1 h
  rw [toPath_of_isAbsolute habsolute, normalize_of_toPath hpath] at hfound
  obtain rfl := Except.ok.inj hfound
  exact heq

/-- There is no star in the URL of a directory above a path without stars. -/
theorem star_notMem_joinSegments {ns dirs : List FilePath}
    (hns : ofText location = FilePath.ofNames ns) (hsubset : dirs ⊆ ns) (h : '*' ∉ location) :
    '*' ∉ joinSegments (dirs.map (encodeBytes inSegment)) := by
  intro hmem
  obtain ⟨s, hs, hmem⟩ := List.mem_flatMap.1 hmem
  obtain ⟨n, hn, rfl⟩ := List.mem_map.1 hs
  have hbyte : UInt8.ofNat '*'.toNat ∈ n :=
    mem_of_mem_encodeBytes (by decide) ((List.mem_cons.1 hmem).resolve_left (by decide))
  have hplace : UInt8.ofNat '*'.toNat ∈ FilePath.ofNames ns := by
    rw [ofNames_of_ne_nil (List.ne_nil_of_mem (hsubset hn))]
    exact List.mem_flatMap.2 ⟨n, hsubset hn, List.mem_cons_of_mem _ hbyte⟩
  rw [← hns] at hplace
  exact h ((Utf8.mem_encode_iff (by decide)).1 hplace)

/-- A published file lies below the directory of its package, and so does its URL. -/
theorem IsPublished.exists_below (h : IsPublished tree path location p exports key)
    (hctx : Manages ctx location p url) : ∃ front rest, ctx.manifestUrl.LiesIn front ∧
      p.subpath = '.' :: '/' :: rest ∧ ('*' ∉ location → '*' ∉ joinSegments front ++ rest) ∧
      (IsVerbatim rest → url = below front rest ∧
        ∀ q ∈ splitWhere isSlash rest, q ≠ ".".toList ∧ q ≠ "..".toList) := by
  obtain ⟨ns, hns, hnames⟩ := hctx.place
  have hparts := ofLocation?_of_parse ⟨ns, hns⟩ h.toPath h.installed
  obtain ⟨rest, above, hsubpath, rfl, habove⟩ :=
    InstalledPath.exists_rest_of_ofLocation? hparts h.subpath
  obtain ⟨dirs, hne, hdirs, rfl⟩ := InstalledPath.exists_dirs habove hns hnames
  have hdirNames : ∀ n ∈ dirs, isName n = true := fun n hn => hnames n (List.mem_append_left _ hn)
  refine ⟨dirs.map (encodeBytes inSegment), rest,
    InstalledPath.liesIn_of_manifest hne hdirs hdirNames hctx.manifest, hsubpath, ?_, ?_⟩
  · intro hstar hmem
    rcases List.mem_append.1 hmem with hmem | hmem
    · exact star_notMem_joinSegments hns (List.subset_append_left _ _) hstar hmem
    · exact hstar (by simp [hmem])
  · intro hverbatim
    have hpercent : '%' ∉ rest := hverbatim.notMem (by decide)
    have hback : '\\' ∉ rest := hverbatim.notMem (by decide)
    have hurl := InstalledPath.ofFilePath?_eq_below hns hnames hne hpercent hback
    refine ⟨Option.some.inj (hctx.file.symm.trans hurl), ?_⟩
    intro q hq
    have hname : isName (ofText q) = true := by
      refine hnames _ (List.mem_append_right _ ?_)
      rw [pieces_ofText_of_notMem hback]
      exact List.mem_map_of_mem hq
    constructor
    · rintro rfl
      exact ne_here_of_isName hname (by decide)
    · rintro rfl
      exact ne_above_of_isName hname (by decide)

/-- **Led to a path that stands for the file**, the map gives the file exactly if the path may be
given, and the text of the star, too. -/
theorem IsPublished.resolvePath_iff (h : IsPublished tree path location p exports key)
    (hctx : Manages ctx location p url) (hverbatim : IsVerbatim (p.subpath.drop 2))
    (hstar : '*' ∉ location) {r : Request} {target : List Char}
    (hleads : ctx.LeadsTo exports key r target)
    (hstands : published? r.key target p.subpath = some key) :
    ctx.resolvePath target r = .ok url ↔ "./".toList <+: target ∧
      hasForbiddenSegment (target.drop 2) = false ∧ hasForbiddenSegment r.text = false := by
  refine ⟨Context.allowed_of_resolvePath hctx.exports, ?_⟩
  rintro ⟨⟨text, rfl⟩, hallowed, hmatch⟩
  obtain ⟨front, rest, hlies, hsubpath, hnone, hbelow⟩ := h.exists_below hctx
  have hrest : IsVerbatim rest := by
    rw [hsubpath] at hverbatim
    exact hverbatim
  obtain ⟨rfl, hdots⟩ := hbelow hrest
  have hstars := hnone hstar
  rw [List.mem_append, not_or] at hstars
  have hsplit : "./".toList ++ text = '.' :: '/' :: text := by simp
  rw [hsplit] at hallowed hstands ⊢
  rw [hsubpath] at hstands
  rcases published?_eq_some hstands with
    ⟨htext, rfl, -⟩ | ⟨before, middle, after, rfl, rfl, hkey, hnamed⟩
  · -- the path names the file
    refine Context.resolvePath_starless hlies (hrest.isPathText hdots) hallowed
      (hrest.notMem (by decide)) htext ?_ hmatch hstars.1
    rcases hleads.request with ⟨-, hr⟩ | ⟨hpattern, hkey⟩
    · exact .inl (by rw [hr])
    · exact .inr ⟨hpattern, (matchKey?_eq_some_iff.1 hkey).1⟩
  · -- a star of the path stands for a part of the file's subpath
    rcases hleads.request with ⟨hnostar, hr⟩ | ⟨hpattern, hmatched⟩
    · rw [hr] at hkey
      exact absurd hkey hnostar
    · obtain ⟨hne, kb, ka, hrkey, hkb, -, hname⟩ := matchKey?_eq_some_iff.1 hmatched
      have hmiddle : r.text = middle := by
        rw [hrkey, replaceFirst_append hkb, hname, List.append_assoc] at hnamed
        exact List.append_cancel_right (List.append_cancel_left hnamed)
      subst hmiddle
      exact Context.resolvePath_replaced hlies hstars.1 hrest hstars.2 hdots hpattern hne hallowed
        hmatch

/-- **Published subpaths and what the map gives for them.**  A published file is found under its
key.  The map gives the file for that key exactly if it leads to a path that is resolved to the
file; and if it leads to a path that stands for the file under the key, that path is resolved to the
file exactly if it starts with a dot and a slash and neither it nor the text of the star has a
forbidden segment, provided that the names below the package are written in URLs as they are and
that there is no star among all names. -/
theorem resolve_published (tree : FileTree) (path location : List Char) (p : InstalledPath)
    (exports : Target) (key : List Char) (h : IsPublished tree path location p exports key)
    (ctx : Context) (url : Url) (hctx : Manages ctx location p url) :
    Subpath.resolve tree path = .ok key ∧
      (ctx.resolveExport exports key = .ok url ↔
        ∃ r target, ctx.LeadsTo exports key r target ∧ ctx.resolvePath target r = .ok url) ∧
      (IsVerbatim (p.subpath.drop 2) → '*' ∉ location → ∀ r target,
        ctx.LeadsTo exports key r target → published? r.key target p.subpath = some key →
        (ctx.resolvePath target r = .ok url ↔ "./".toList <+: target ∧
          hasForbiddenSegment (target.drop 2) = false ∧ hasForbiddenSegment r.text = false)) := by
  refine ⟨h.resolve, Context.resolveExport_eq_ok_iff, ?_⟩
  intro hverbatim hstar r target hleads hstands
  exact h.resolvePath_iff hctx hverbatim hstar hleads hstands

/-! ### Files of an installed package -/

/-- A package with nothing but its manifest. -/
def treeWith (manifest : List Char) : FileTree :=
  let dirs := ["w", "node_modules", "p"].map fun name => FilePath.ofText name.toList
  ⟨[(dirs.take 1, .directory), (dirs.take 2, .directory), (dirs, .directory),
    (dirs ++ [Manifest.fileName], .file (Utf8.encode manifest))], []⟩

/-- A file of that package. -/
def fileOf (subpath : List Char) : InstalledPath :=
  ⟨"/w/node_modules/".toList, "p".toList, subpath⟩

/-- The URL of a path below the package. -/
def urlOf (segments : List String) : Url :=
  { bareFile with
    location := .segments ((["w", "node_modules", "p"] ++ segments).map String.toList) }

/-- Where its exports map is evaluated for modules that are imported. -/
def importContext : Context where
  manifestUrl := urlOf ["package.json"]
  manifestPath := FilePath.ofText "/w/node_modules/p/package.json".toList
  base := { bareFile with location := .segments ["w".toList, "m.mjs".toList] }
  conditions := ["import".toList]
  resolvePackage := none

/-- All scripts in a directory, for imports only. -/
def importedFiles : Target :=
  .branch [("./*".toList, .branch [("require".toList, .excluded),
    ("import".toList, .path "./dist/*.js".toList)])]

/-- The manifest with that exports map. -/
def importedManifest : List Char :=
  "\x7b\"exports\":\x7b\"./*\":\x7b\"require\":null,\"import\":\"./dist/*.js\"\x7d\x7d\x7d".toList

/-- Imports of a script lead to the file in the directory. -/
theorem leadsTo_importedFiles : importContext.LeadsTo importedFiles "./a".toList
    ⟨"./*".toList, "a".toList, true⟩ "./dist/*.js".toList := by
  have hchoice : choice? (Context.mapOf importedFiles false)
      (!"./a".toList.contains '*' && "./a".toList.getLast? != some '/') "./a".toList =
        some (⟨"./*".toList, "a".toList, true⟩, .branch [("require".toList, .excluded),
          ("import".toList, .path "./dist/*.js".toList)]) := by
    unfold importedFiles
    cbv
  refine ⟨false, _, by decide, hchoice, ?_⟩
  refine @Context.ArrivesAt.branch _ _ [("require".toList, .excluded)] [] "import".toList
    (.path "./dist/*.js".toList) _ (by decide) ?_ (by decide) (.path _)
  intro e he
  rw [List.mem_singleton.1 he]
  decide

/-- A script that is published for imports is found under its name, and given for it. -/
theorem resolve_published_import :
    IsPublished (treeWith importedManifest) "/w/node_modules/p/dist/a.js".toList
        "/w/node_modules/p/dist/a.js".toList (fileOf "./dist/a.js".toList) importedFiles
        "./a".toList ∧
      Manages importContext "/w/node_modules/p/dist/a.js".toList (fileOf "./dist/a.js".toList)
        (urlOf ["dist", "a.js"]) ∧
      Subpath.resolve (treeWith importedManifest) "/w/node_modules/p/dist/a.js".toList =
        .ok "./a".toList ∧
      importContext.resolveExport importedFiles "./a".toList = .ok (urlOf ["dist", "a.js"]) := by
  have hpublished : IsPublished (treeWith importedManifest) "/w/node_modules/p/dist/a.js".toList
      "/w/node_modules/p/dist/a.js".toList (fileOf "./dist/a.js".toList) importedFiles
      "./a".toList := by
    refine ⟨by decide +kernel, by decide +kernel, by decide, ?_, by decide +kernel⟩
    unfold importedFiles importedManifest fileOf
    cbv
  have hctx : Manages importContext "/w/node_modules/p/dist/a.js".toList
      (fileOf "./dist/a.js".toList) (urlOf ["dist", "a.js"]) := by
    refine ⟨⟨["w", "node_modules", "p", "dist", "a.js"].map fun n => FilePath.ofText n.toList,
      ?_, ?_⟩, ?_, rfl, ?_⟩ <;> decide +kernel
  have hverbatim : IsVerbatim "dist/a.js".toList := by
    refine ⟨forall_mem_of_all (by decide), ?_⟩
    · intro c hc
      obtain rfl := Option.some.inj hc
      decide
  obtain ⟨hkey, hexports, hpath⟩ := resolve_published _ _ _ _ _ _ hpublished _ _ hctx
  refine ⟨hpublished, hctx, hkey, hexports.2 ⟨_, _, leadsTo_importedFiles, ?_⟩⟩
  refine (hpath hverbatim (by decide) _ _ leadsTo_importedFiles (by decide)).2
    ⟨⟨"dist/*.js".toList, ?_⟩, ?_, ?_⟩
  · decide
  · decide +kernel
  · decide +kernel

/-- A key for all scripts in front of a more specific one. -/
def shadowedFiles : Target :=
  .branch [("./*".toList, .path "./dist/*.js".toList),
    ("./special".toList, .path "./special.js".toList)]

/-- The manifest with that exports map. -/
def shadowedManifest : List Char :=
  "\x7b\"exports\":\x7b\"./*\":\"./dist/*.js\",\"./special\":\"./special.js\"\x7d\x7d".toList

/-- The file in the directory is found under the subpath of the other file, and under no conditions
does the map give it for that subpath. -/
theorem resolve_shadowed :
    IsPublished (treeWith shadowedManifest) "/w/node_modules/p/dist/special.js".toList
        "/w/node_modules/p/dist/special.js".toList (fileOf "./dist/special.js".toList)
        shadowedFiles "./special".toList ∧
      Manages importContext "/w/node_modules/p/dist/special.js".toList
        (fileOf "./dist/special.js".toList) (urlOf ["dist", "special.js"]) ∧
      Subpath.resolve (treeWith shadowedManifest) "/w/node_modules/p/dist/special.js".toList =
        .ok "./special".toList ∧
      ∀ conditions, Context.resolveExport { importContext with conditions := conditions }
        shadowedFiles "./special".toList = .ok (urlOf ["special.js"]) ∧
        urlOf ["special.js"] ≠ urlOf ["dist", "special.js"] := by
  have hpublished : IsPublished (treeWith shadowedManifest)
      "/w/node_modules/p/dist/special.js".toList "/w/node_modules/p/dist/special.js".toList
      (fileOf "./dist/special.js".toList) shadowedFiles "./special".toList := by
    refine ⟨by decide +kernel, by decide +kernel, by decide, ?_, by decide +kernel⟩
    unfold shadowedFiles shadowedManifest fileOf
    cbv
  have hctx : Manages importContext "/w/node_modules/p/dist/special.js".toList
      (fileOf "./dist/special.js".toList) (urlOf ["dist", "special.js"]) := by
    refine ⟨⟨["w", "node_modules", "p", "dist", "special.js"].map fun n =>
      FilePath.ofText n.toList, ?_, ?_⟩, ?_, rfl, ?_⟩ <;> decide +kernel
  refine ⟨hpublished, hctx, hpublished.resolve, ?_⟩
  have hchoice : choice? (Context.mapOf shadowedFiles false)
      (!"./special".toList.contains '*' && "./special".toList.getLast? != some '/')
      "./special".toList =
        some (⟨"./special".toList, [], false⟩, .path "./special.js".toList) := by
    unfold shadowedFiles
    cbv
  have hpath : importContext.resolvePath "./special.js".toList
      ⟨"./special".toList, [], false⟩ = .ok (urlOf ["special.js"]) := by
    decide +kernel
  have hother : urlOf ["special.js"] ≠ urlOf ["dist", "special.js"] := by decide
  intro conditions
  refine ⟨Context.resolveExport_eq_ok_iff.2 ⟨_, _, ⟨false, _, ?_, hchoice, .path _⟩, ?_⟩, hother⟩
  · exact Context.isShorthand_of_subpaths (by decide)
  · rwa [Context.resolvePath_conditions]

end Subpath

end EsModules
