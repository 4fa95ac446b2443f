import EsModules.Proofs.Package.SideBySide
import EsModules.Proofs.Resolution.ProjectPackages

/-!
# Targets of a project

The maps of a package that lies below two sites are looked up side by side.  A target within the
package is located behind its directory; the text of a star is put into the whole URL, so that the
result is read behind the directory again only if no name above it has a star.

* `PackageMap.Context.Alongside`: contexts of the same package at two sites.
* `PackageMap.Context.parallel_resolvePath`: the path of a target.
* `NodeResolution.parallel_exported`: an exports map.
-/

namespace EsModules

open FilePath

namespace Site

variable {project : Project} {reach : Nat} {ns : List (List Char)}

theorem liesIn_manifest (σ : Site project reach) (h : AreNames ns) :
    (σ.url (ns ++ [manifestName]) none).LiesIn (σ.segs ns) :=
  σ.liesIn_url h (Text.forall_mem_of_all (by decide)) (by decide) (by decide)

/-- Two names of a directory and its manifest. -/
theorem pieces_manifest (h : AreNames ns) : ArePieces (ns ++ [manifestName]) :=
  h.1.append arePieces_manifestName

/-- A text that does not climb, read behind a directory below a site. -/
theorem behind_eq_url (σ : Site project reach) {text : List Char} (htext : Url.Descends text)
    (hclimbs : ¬ Url.Climbs text) : Url.behind (σ.segs ns) text =
      σ.url (ns ++ Url.trailOf text) (Url.fragmentPart? text) := by
  unfold Url.behind Url.segmentsBehind url
  rw [if_neg hclimbs, σ.segs_append_of_plain ns fun t ht => (htext.mem_trailOf hclimbs ht).1]

theorem arePieces_trailOf {text : List Char} (htext : Url.Descends text)
    (hclimbs : ¬ Url.Climbs text) : ArePieces (Url.trailOf text) := by
  intro t ht
  obtain ⟨hplain, -, habove⟩ := htext.mem_trailOf hclimbs ht
  exact ⟨fun c hc => ⟨(hplain c hc).1, (hplain c hc).2.1⟩, habove⟩

/-- The text of the URL of pieces below a directory, with its path cut behind the directory. -/
theorem href_url (σ : Site project reach) {ts : List (List Char)}
    (hts : ∀ t ∈ ts, ∀ c ∈ t, c ∈ Url.plainChars ∧ c ≠ '/' ∧ c ≠ '#')
    (fragment : Option (List Char)) : (σ.url (ns ++ ts) fragment).href =
      "file://".toList ++ (Url.joinSegments (σ.segs ns) ++
        (Url.joinSegments ts ++ (fragment.map ('#' :: ·)).getD [])) := by
  have hpath : (σ.url (ns ++ ts) fragment).path =
      Url.joinSegments (σ.segs ns) ++ Url.joinSegments ts := by
    rw [← Url.joinSegments_append, ← σ.segs_append_of_plain ns hts]
    rfl
  rw [@Url.href_eq_append (σ.url (ns ++ ts) fragment) rfl rfl, hpath, List.append_assoc]
  rfl

end Site

namespace PackageMap

/-- A plain text that may stand for a star is one that may be put in for it. -/
theorem isFilling_of_allowed {u : List Char} (hne : u ≠ []) (hchars : ∀ c ∈ u, c ∈ Url.plainChars)
    (h : hasForbiddenSegment u = false) : Url.IsFilling u where
  ne_nil := hne
  chars := hchars
  dots := by
    intro p hp
    unfold hasForbiddenSegment at h
    have hallowed := List.any_eq_false.1 h p hp
    constructor
    · rintro rfl
      exact hallowed (by decide)
    · rintro rfl
      exact hallowed (by decide)

namespace Context

variable {project : Project} {reach : Nat} {σ τ : Site project reach} {ns : List (List Char)}
  {ctx ctx' : Context} {req : Request} {target : List Char} {size : Nat}

/-- Contexts of a package at two sites.  No name of the package's directory has a star, and the
names of other packages are resolved side by side, up to some length. -/
structure Alongside (σ τ : Site project reach) (ns : List (List Char)) (size : Nat)
    (ctx ctx' : Context) : Prop where
  names : AreNames ns
  starless : ∀ t ∈ ns, '*' ∉ t
  left : ctx.manifestUrl = σ.url (ns ++ [manifestName]) none
  right : ctx'.manifestUrl = τ.url (ns ++ [manifestName]) none
  conditions : ctx.conditions = ctx'.conditions
  foreign : Option.Rel (fun f g => ∀ name, Url.Descends name → name.length ≤ size →
    Parallel (Site.Corresponds σ τ) (f name) (g name)) ctx.resolvePackage ctx'.resolvePackage

/-- A target within a package is located behind the package's directory, unless it is forbidden. -/
theorem locate_eq (h : AreNames ns) (hurl : ctx.manifestUrl = σ.url (ns ++ [manifestName]) none)
    (htarget : Url.IsLevel target) (hpath : "./".toList <+: target) :
    ctx.locate target req = if hasForbiddenSegment (target.drop 2) then
        .error (ctx.invalidTarget target req.key)
      else .ok (σ.url (ns ++ Url.trailOf target) (Url.fragmentPart? target)) := by
  obtain ⟨rest, rfl⟩ := hpath
  have hlies := σ.liesIn_manifest h
  have hdrive := σ.driveless_segs h.1
  have hjoin : ctx.manifestUrl.join ("./".toList ++ rest) =
      .ok (σ.url (ns ++ Url.trailOf ("./".toList ++ rest))
        (Url.fragmentPart? ("./".toList ++ rest))) := by
    rw [hurl, Url.join_descends hlies hdrive htarget.descends (by simp) (by simp) (by simp),
      σ.behind_eq_url htarget.descends htarget.not_climbs]
  have hdir : Url.Descends ['.'] := by decide
  have hpackage : ctx.packageUrl = .ok (Url.behind (σ.segs ns) ['.']) := by
    unfold packageUrl
    rw [hurl, Url.join_descends hlies hdrive hdir (by simp) (by simp) (by simp)]
  have hin : (Url.behind (σ.segs ns) ['.']).path.isPrefixOf
      (σ.url (ns ++ Url.trailOf ("./".toList ++ rest))
        (Url.fragmentPart? ("./".toList ++ rest))).path = true := by
    rw [List.isPrefixOf_iff_prefix, ← σ.behind_eq_url htarget.descends htarget.not_climbs]
    obtain ⟨s, ss, htrail⟩ := List.exists_cons_of_ne_nil
      (Url.trail_ne_nil (Url.parts ("./".toList ++ rest)))
    have hleft : (Url.behind (σ.segs ns) ['.']).path = Url.joinSegments (σ.segs ns) ++ ['/'] := by
      show Url.joinSegments (Url.segmentsBehind (σ.segs ns) ['.']) = _
      have hdot : Url.segmentsBehind (σ.segs ns) ['.'] = σ.segs ns ++ [[]] := if_neg (by decide)
      rw [hdot, Url.joinSegments_append]
      rfl
    have hright : (Url.behind (σ.segs ns) ("./".toList ++ rest)).path =
        Url.joinSegments (σ.segs ns) ++ '/' :: (s ++ Url.joinSegments ss) := by
      show Url.joinSegments (Url.segmentsBehind (σ.segs ns) ("./".toList ++ rest)) = _
      unfold Url.segmentsBehind Url.trailOf
      rw [if_neg htarget.not_climbs, htrail, Url.joinSegments_append]
      rfl
    rw [hleft, hright]
    exact ⟨s ++ Url.joinSegments ss, by simp⟩
  unfold locate
  rw [hjoin, hpackage]
  dsimp only
  rw [if_pos hin]

/-- The text of a star put into the URL of a target: it is read behind the directory of the
package, and what is read there does not depend on the directory. -/
theorem exists_parse_replaced (h : AreNames ns) (hstar : ∀ t ∈ ns, '*' ∉ t)
    (htarget : Url.IsLevel target) {u : List Char} (hu : Url.IsFilling u) :
    ∃ text, Url.Descends text ∧ text.length ≤ target.length + target.count '*' * u.length ∧
      ∀ σ : Site project reach, Url.parse (Text.replaceChar '*' u
        (σ.url (ns ++ Url.trailOf target) (Url.fragmentPart? target)).href) =
          .ok (Url.behind (σ.segs ns) text) := by
  obtain ⟨more, hmore, hdescends, hlength⟩ :=
    Url.exists_trailOf_replaced htarget.chars (htarget.descends_replaced hu)
  refine ⟨_, hdescends, hlength.trans (Url.length_replaceChar u target), fun σ => ?_⟩
  have hfront : '*' ∉ "file://".toList ++ Url.joinSegments (σ.segs ns) := by
    rw [List.mem_append, not_or]
    exact ⟨by decide, σ.star_notMem_segs hstar⟩
  have hslash : Text.replaceChar '*' u ('/' :: more) = '/' :: Text.replaceChar '*' u more := rfl
  rw [σ.href_url fun t ht => (htarget.descends.mem_trailOf htarget.not_climbs ht).1, hmore,
    ← List.append_assoc, Text.replaceChar_append, Text.replaceChar_eq_self hfront, hslash,
    List.append_assoc]
  exact Url.parse_descends (σ.isDirectory_segs h) (σ.driveless_segs h.1) hdescends

/-- **A target within a package** is resolved side by side. -/
theorem parallel_resolveOwn (h : Alongside σ τ ns size ctx ctx') (htarget : Url.IsLevel target)
    (hpath : "./".toList <+: target) (hreq : req.text = [] ∨ req.isPattern = true)
    (hchars : ∀ c ∈ req.text, c ∈ Url.plainChars)
    (hroom : Site.length ns + (target.length + target.count '*' * req.text.length) + 2 ≤ reach) :
    Parallel (Site.Corresponds σ τ) (ctx.resolvePath target req)
      (ctx'.resolvePath target req) := by
  have hopen : (!req.text.isEmpty && !req.isPattern && target.getLast? != some '/') = false := by
    rcases hreq with hreq | hreq <;> simp [hreq]
  have hprefix : (!"./".toList.isPrefixOf target) = false := by simpa using hpath
  unfold resolvePath
  rw [hopen, hprefix, if_neg Bool.false_ne_true, if_neg Bool.false_ne_true,
    if_neg Bool.false_ne_true, if_neg Bool.false_ne_true, locate_eq h.names h.left htarget hpath,
    locate_eq h.names h.right htarget hpath]
  by_cases hforbidden : hasForbiddenSegment (target.drop 2) = true
  · rw [if_pos hforbidden, if_pos hforbidden]
    exact .error rfl
  rw [if_neg hforbidden, if_neg hforbidden]
  dsimp only
  split
  · refine .ok (.below _ (h.names.1.append
      (Site.arePieces_trailOf htarget.descends htarget.not_climbs)) ?_)
    have hlength := Url.length_trailOf htarget.chars
    rw [Site.length_append]
    unfold Site.length at hroom ⊢
    omega
  rename_i hsome
  have hne : req.text ≠ [] := by simpa using hsome
  split
  · exact .error rfl
  rename_i hallowed
  have hu := isFilling_of_allowed hne hchars (Bool.of_not_eq_true hallowed)
  obtain ⟨text, hdescends, hlength, hparse⟩ :=
    @exists_parse_replaced project reach _ _ h.names h.starless htarget _ hu
  have hpattern := hreq.resolve_left hne
  rw [if_pos hpattern, if_pos hpattern, hparse σ, hparse τ]
  exact .ok (Site.corresponds_behind σ τ h.names hdescends (by omega))

/-- A target that names another package is resolved side by side. -/
theorem parallel_resolveForeign (h : Alongside σ τ ns size ctx ctx') (htarget : Url.IsLevel target)
    (hfills : req.isPattern = false ∧ req.text = [] ∨ req.isPattern = true ∧ Url.IsFilling req.text)
    (hroom : target.length + target.count '*' * req.text.length ≤ size) :
    Parallel (Site.Corresponds σ τ) (ctx.resolveForeign target req)
      (ctx'.resolveForeign target req) := by
  have hname : Url.Descends (if req.isPattern then Text.replaceChar '*' req.text target
        else target ++ req.text) ∧
      (if req.isPattern then Text.replaceChar '*' req.text target
        else target ++ req.text).length ≤ size := by
    rcases hfills with ⟨hexact, hempty⟩ | ⟨hpattern, hfills⟩
    · rw [hexact, if_neg Bool.false_ne_true, hempty, List.append_nil]
      exact ⟨htarget.descends, by omega⟩
    · rw [if_pos hpattern]
      exact ⟨htarget.descends_replaced hfills, (Url.length_replaceChar _ _).trans hroom⟩
  have hforeign := h.foreign
  unfold resolveForeign
  generalize ctx.resolvePackage = f at hforeign ⊢
  generalize ctx'.resolvePackage = g at hforeign ⊢
  cases hforeign with
  | none => exact .error rfl
  | some hfg =>
    dsimp only
    split
    · exact .error rfl
    · exact hfg _ hname.1 hname.2

/-- **A target** is resolved side by side. -/
theorem parallel_resolvePath (h : Alongside σ τ ns size ctx ctx') (htarget : Url.IsLevel target)
    (hreq : req.text = [] ∨ req.isPattern = true) (hchars : ∀ c ∈ req.text, c ∈ Url.plainChars)
    (hroom : Site.length ns + (target.length + target.count '*' * req.text.length) + 2 ≤ reach)
    (hforeign : ctx.resolvePackage.isSome = true →
      (req.isPattern = false ∧ req.text = [] ∨ req.isPattern = true ∧ Url.IsFilling req.text) ∧
        target.length + target.count '*' * req.text.length ≤ size) :
    Parallel (Site.Corresponds σ τ) (ctx.resolvePath target req)
      (ctx'.resolvePath target req) := by
  by_cases hpath : "./".toList <+: target
  · exact parallel_resolveOwn h htarget hpath hreq hchars hroom
  have hopen : (!req.text.isEmpty && !req.isPattern && target.getLast? != some '/') = false := by
    rcases hreq with hreq | hreq <;> simp [hreq]
  have hother : (!"./".toList.isPrefixOf target) = true := by
    rw [Bool.not_eq_true', ← Bool.not_eq_true, List.isPrefixOf_iff_prefix]
    exact hpath
  unfold resolvePath
  rw [hopen, hother, if_neg Bool.false_ne_true, if_neg Bool.false_ne_true, if_pos rfl, if_pos rfl]
  by_cases hsome : ctx.resolvePackage.isSome = true
  · obtain ⟨hfills, hlength⟩ := hforeign hsome
    exact parallel_resolveForeign h htarget hfills hlength
  · have hnone := h.foreign
    rw [Option.not_isSome_iff_eq_none.1 hsome] at hnone
    unfold resolveForeign
    rw [Option.not_isSome_iff_eq_none.1 hsome]
    generalize ctx'.resolvePackage = g at hnone ⊢
    cases hnone
    exact .error rfl

end Context

end PackageMap

/-! ## Exports maps -/

namespace NodeResolution

open Site PackageMap

variable {project : Project} {reach : Nat} {σ τ : Site project reach} {dir : List (List Char)}
  {size stars : Nat}

/-- The texts of a map are level, of a limited length and with a limited number of stars. -/
def TextsAre (size stars : Nat) (map : Target) : Prop :=
  ∀ text ∈ map.texts, Url.IsLevel text ∧ text.length ≤ size ∧ text.count '*' ≤ stars

instance (size stars : Nat) (map : Target) : Decidable (TextsAre size stars map) :=
  inferInstanceAs (Decidable (∀ text ∈ map.texts,
    Url.IsLevel text ∧ text.length ≤ size ∧ text.count '*' ≤ stars))

theorem fileUrl_manifestIn (σ : Site project reach) (h : ArePieces dir) :
    fileUrl (σ.path (manifestIn dir)) = .ok (σ.url (namedPieces dir ++ [manifestName]) none) := by
  rw [σ.fileUrl_path (arePieces_manifestIn h), namedPieces_manifestIn]

/-- Where the maps of a package below a site are evaluated. -/
def contextAt (σ : Site project reach) (dir : List (List Char)) (base : Url)
    (conditions : List (List Char)) (resolvePackage : Option (List Char → Except Error Url)) :
    Context :=
  ⟨σ.url (namedPieces dir ++ [manifestName]) none, σ.path (manifestIn dir), base, conditions,
    resolvePackage⟩

theorem exported_eq (σ : Site project reach) (h : ArePieces dir) (exports : Target)
    (subpath : List Char) (base : Url) (conditions : List (List Char)) :
    exported (σ.path (manifestIn dir)) exports subpath base conditions =
      (contextAt σ dir base conditions none).resolveExport exports subpath := by
  unfold exported
  rw [fileUrl_manifestIn σ h]
  rfl

/-- **The exports map** of a package below the sites is evaluated side by side. -/
theorem parallel_exported (h : ArePieces dir) (hstarless : ∀ t ∈ namedPieces dir, '*' ∉ t)
    {exports : Target} (hexports : TextsAre size stars exports) {subpath : List Char}
    (hsubpath : ∀ c ∈ subpath, c ∈ Url.plainChars)
    (hroom : length (namedPieces dir) + (size + stars * subpath.length) + 2 ≤ reach)
    (b c : Url) (conditions : List (List Char)) :
    Parallel (Corresponds σ τ)
      (exported (σ.path (manifestIn dir)) exports subpath b conditions)
      (exported (τ.path (manifestIn dir)) exports subpath c conditions) := by
  rw [exported_eq σ h, exported_eq τ h]
  have halong : Context.Alongside σ τ (namedPieces dir) size (contextAt σ dir b conditions none)
      (contextAt τ dir c conditions none) :=
    ⟨h.areNames, hstarless, rfl, rfl, rfl, .none⟩
  refine Context.parallel_resolveExport halong.conditions fun req hreq text htext => ?_
  obtain ⟨hlevel, hlength, hstars⟩ := hexports text htext
  have hchars : ∀ c ∈ req.text, c ∈ Url.plainChars := by
    rcases hreq with rfl | ⟨-, hmatch⟩
    · exact fun c hc => absurd hc List.not_mem_nil
    · obtain ⟨-, before, after, -, -, -, hname⟩ := matchKey?_eq_some_iff.1 hmatch
      exact fun c hc => hsubpath c (by simp [hname, hc])
  have hshort : req.text.length ≤ subpath.length := by
    rcases hreq with rfl | ⟨-, hmatch⟩
    · exact Nat.zero_le _
    · obtain ⟨-, before, after, -, -, -, hname⟩ := matchKey?_eq_some_iff.1 hmatch
      simp [hname]
      omega
  have hcount : text.count '*' * req.text.length ≤ stars * subpath.length :=
    Nat.mul_le_mul hstars hshort
  refine Context.parallel_resolvePath halong hlevel ?_ hchars (by omega)
    fun h => absurd h Bool.false_ne_true
  exact hreq.imp (fun h => by rw [h]) And.left

end NodeResolution

end EsModules
