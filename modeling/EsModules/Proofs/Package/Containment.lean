import EsModules.Proofs.Package.Arrival
import EsModules.Proofs.Url.PlainFile

/-!
# Where exports maps lead

A path in an exports map is checked to lie in the directory of its package before the text of a
star is put into it.  What is read anew behind that lies in the directory, too, unless the text
makes some piece behind the directory stand for the one above; the check of the text alone does not
see all of these, since it looks neither past the tabs and line ends that URLs drop nor at what the
text stands beside.

* `PackageMap.Context.exists_located_of_resolvePath`: paths are located before a text is put in.
* `PackageMap.Context.Strays`: a star's text that leads above the directory of its package.
* `PackageMap.Context.resolveExport_contained`: all that an exports map gives is in the directory
  of the package, unless a text strays.
-/

namespace EsModules.PackageMap

namespace Context

section

variable {ctx : Context} {r : Request} {url : Url}

/-! ## Paths -/

/-- A path of an exports map is located first; then the text of a star, if there is one, is put
into the URL, which is read anew. -/
theorem exists_located_of_resolvePath {target : List Char} (hnone : ctx.resolvePackage = none)
    (hr : r.text = [] ∨ r.isPattern = true) (h : ctx.resolvePath target r = .ok url) :
    ∃ rest located, target = '.' :: rest ∧ ctx.locate target r = .ok located ∧
      (url = located ∨
        r.text ≠ [] ∧ Url.parse (Text.replaceChar '*' r.text located.href) = .ok url) := by
  unfold resolvePath at h
  split at h
  · cases h
  split at h
  · unfold resolveForeign at h
    rw [hnone] at h
    cases h
  rename_i hprefix
  obtain ⟨rest, hrest⟩ : "./".toList <+: target := by simpa using hprefix
  split at h
  · cases h
  rename_i located hlocated
  refine ⟨'/' :: rest, located, hrest.symm, hlocated, ?_⟩
  split at h
  · exact .inl (Except.ok.inj h).symm
  rename_i hsome
  have hne : r.text ≠ [] := by simpa using hsome
  split at h
  · cases h
  rw [if_pos (hr.resolve_left hne)] at h
  exact .inr ⟨hne, mapError_eq_ok.1 h⟩

/-- The directory of a package and a target located behind it. -/
theorem exists_package_of_locate {rest : List Char} {located : Url}
    (hplain : ctx.manifestUrl.IsPlainFile) (h : ctx.locate ('.' :: rest) r = .ok located) :
    ∃ front package more, ctx.packageUrl = .ok package ∧
      package.href = "file://".toList ++ package.path ∧
      package.path = Url.joinSegments front ++ ['/'] ∧ (∀ s ∈ front, Url.IsSegment s) ∧
      front.head? ≠ some [] ∧ located.isFile = true ∧ package.path <+: located.path ∧
      located.href = package.href ++ more := by
  obtain ⟨front, package, hpackage, hhref, hpath, hsegs, hfirst⟩ := Url.join_dot hplain
  unfold locate at h
  split at h
  · cases h
  rw [Url.join_dotCons hplain, packageUrl, hpackage] at h
  dsimp only at h
  split at h
  · rename_i hprefix
    have hinside := List.isPrefixOf_iff_prefix.1 hprefix
    obtain ⟨query, fragment, hsame⟩ := Url.exists_withPath_eq ctx.manifestUrl
      (Url.clearLast true ctx.manifestUrl.segments) ('.' :: Url.trimEnd rest)
    rw [Except.ok.inj h] at hinside hsame
    obtain ⟨behind, hbehind⟩ := hinside
    have hscheme : located.scheme = Url.bareFile.scheme := by
      rw [hsame]
      exact hplain.scheme
    have hauthority : located.authority = some .empty := by
      rw [hsame]
      exact hplain.authority
    have hfile : located.isFile = true := by
      unfold Url.isFile
      rw [hscheme]
      rfl
    have hmore : located.href = package.href ++ (behind
        ++ ((located.query.map ('?' :: ·)).getD []
          ++ (located.fragment.map ('#' :: ·)).getD [])) := by
      rw [Url.href_eq_append hscheme hauthority, hhref, ← hbehind]
      simp
    exact ⟨front, package, _, hpackage, hhref, hpath, hsegs, hfirst, hfile, ⟨behind, hbehind⟩,
      hmore⟩
  · cases h

/-- The text that the star of a key stands for leads above the directory of its package: the URL of
the path that the map leads to continues that of the directory with a text in which, once the star's
text is in its place, a piece stands for the directory above.  A star in the URL of the directory
counts, too: it is replaced as well. -/
def Strays (ctx : Context) (package : Url) (exports : Target) (subpath : List Char) : Prop :=
  ∃ r target located more, ctx.LeadsTo exports subpath r target ∧ r.text ≠ [] ∧
    ctx.locate target r = .ok located ∧ located.href = package.href ++ more ∧
    ('*' ∈ package.href ∨ Url.leadsAbove (Text.replaceChar '*' r.text more) = true)

end

/-- **Exports maps and the directory of their package.**  What an exports map gives is a file URL,
and it lies in the directory of the package unless the text of a star strays. -/
theorem resolveExport_contained (ctx : Context) (hplain : ctx.manifestUrl.IsPlainFile)
    (hnone : ctx.resolvePackage = none) (exports : Target) (subpath : List Char) (url : Url)
    (h : ctx.resolveExport exports subpath = .ok url) :
    url.isFile = true ∧ ∃ package, ctx.packageUrl = .ok package ∧
      (package.path <+: url.path ∨ ctx.Strays package exports subpath) := by
  obtain ⟨r, target, hleads, hpath⟩ := resolveExport_eq_ok_iff.1 h
  have hr : r.text = [] ∨ r.isPattern = true :=
    hleads.request.imp (fun h => by rw [h.2]) And.left
  obtain ⟨rest, located, rfl, hlocated, hurl⟩ :=
    exists_located_of_resolvePath hnone hr hpath
  obtain ⟨front, package, more, hpackage, hhref, hdir, hsegs, hfirst, hfile, hinside, hmore⟩ :=
    exists_package_of_locate hplain hlocated
  rcases hurl with rfl | ⟨hne, hparse⟩
  · exact ⟨hfile, package, hpackage, .inl hinside⟩
  have htext : located.href = "file://".toList ++ (Url.joinSegments front ++ '/' :: more) := by
    rw [hmore, hhref, hdir]
    simp
  have hscheme : url.isFile = true := by
    obtain ⟨tail, htail⟩ : ∃ tail, Url.joinSegments front ++ '/' :: more = '/' :: tail := by
      cases front with
      | nil => exact ⟨_, rfl⟩
      | cons s front => exact ⟨_, rfl⟩
    have hfixed : Text.replaceChar '*' r.text ("file://".toList ++ '/' :: tail) =
        "file://".toList ++ '/' :: Text.replaceChar '*' r.text tail := rfl
    rw [htext, htail, hfixed] at hparse
    have hread := Url.parse_joinSegments [] (Text.replaceChar '*' r.text tail)
    rw [← Except.ok.inj (hread.symm.trans hparse)]
    exact Url.isFile_withPath Url.bareFile _ _
  refine ⟨hscheme, package, hpackage, ?_⟩
  by_cases hstrays : '*' ∈ package.href ∨
      Url.leadsAbove (Text.replaceChar '*' r.text more) = true
  · exact .inr ⟨r, _, located, more, hleads, hne, hlocated, hmore, hstrays⟩
  · obtain ⟨hstar, hstays⟩ := not_or.1 hstrays
    have hreplaced : Text.replaceChar '*' r.text located.href =
        "file://".toList ++
          (Url.joinSegments front ++ '/' :: Text.replaceChar '*' r.text more) := by
      rw [hmore, Text.replaceChar_append, Text.replaceChar_eq_self hstar, hhref, hdir]
      simp
    rw [hreplaced] at hparse
    rw [hdir]
    exact .inl (Url.path_prefix_of_parse hsegs hfirst hparse (Bool.of_not_eq_true hstays))

/-! ### A package that exports all its files -/

/-- All files, under their own names. -/
def allFiles : Target := .branch [("./*".toList, .path "./*".toList)]

theorem isPlainFile_openPackage : openPackage.manifestUrl.IsPlainFile := by
  have hmade : Url.ofFilePath? openPackage.manifestPath = some openPackage.manifestUrl := by
    decide +kernel
  exact Url.isPlainFile_ofFilePath? hmade (by decide +kernel)

/-- A file in a directory of the package. -/
theorem resolveExport_contained_nested :
    openPackage.manifestUrl.IsPlainFile ∧ openPackage.resolvePackage = none ∧
      ∃ url package, openPackage.resolveExport allFiles "./lib/a.js".toList = .ok url ∧
        openPackage.packageUrl = .ok package ∧ package.path <+: url.path ∧ url.isFile = true := by
  let url : Url := ⟨"file".toList, some .empty,
    .segments ["w".toList, "p".toList, "lib".toList, "a.js".toList], none, none⟩
  have hurl : openPackage.resolveExport allFiles "./lib/a.js".toList = .ok url := by decide +kernel
  obtain ⟨hfile, package, hpackage, -⟩ := resolveExport_contained openPackage
    isPlainFile_openPackage rfl allFiles "./lib/a.js".toList url hurl
  have hdir : openPackage.packageUrl = .ok ⟨"file".toList, some .empty,
      .segments ["w".toList, "p".toList, []], none, none⟩ := by
    decide +kernel
  obtain rfl := Except.ok.inj (hdir.symm.trans hpackage)
  exact ⟨isPlainFile_openPackage, rfl, url, _, hurl, hpackage, by decide +kernel, hfile⟩

/-- A tab hides two dots from the check of a star's text, and URLs drop it: the file beside the
directory of the package is given. -/
theorem resolveExport_leaves_package :
    openPackage.manifestUrl.IsPlainFile ∧ openPackage.resolvePackage = none ∧
      ∃ url package, openPackage.resolveExport allFiles "./.\t./secret.js".toList = .ok url ∧
        openPackage.packageUrl = .ok package ∧ package.path = "/w/p/".toList ∧
        url.path = "/w/secret.js".toList ∧ ¬ package.path <+: url.path := by
  refine ⟨isPlainFile_openPackage, rfl,
    ⟨"file".toList, some .empty, .segments ["w".toList, "secret.js".toList], none, none⟩,
    ⟨"file".toList, some .empty, .segments ["w".toList, "p".toList, []], none, none⟩,
    by decide +kernel, by decide +kernel, by decide, by decide, by decide⟩

end Context

end EsModules.PackageMap
