import EsModules.Proofs.Resolution.PlacedProjects
import EsModules.Proofs.Resolution.ProjectAnchors
import Mathlib.Data.List.Forall2

/-!
# Projects that are moved

What a resolver answers in the directory of a project depends on the project alone, and on no name
above it: at two sites it answers with the same file of the project, with the same remote module, or
with an error.  This holds as long as no name of the project has a star, the texts of its manifests
lead to no directory above, whatever is put in for their stars, and there is room for all paths.

* `Attempt.forms`: the specifiers that a resolver tries.
* `Search.parallel_each`: searches along two lists of attempts.
* `Site.Agree`: answers that mean the same at two sites.
* `Resolver.resolvePath_moved`: resolution does not depend on where a project lies.
-/

namespace EsModules

/-! ## Searches side by side -/

namespace Attempt

/-- The specifiers that are tried for a specifier: itself, with extensions, and with extensions as
an index file in the directory that it names. -/
def forms (extensions : List (List Char)) (specifier : List Char) : List (List Char) :=
  specifier :: (extensions.map (specifier ++ ·) ++
    extensions.map (specifier.rdropWhile (· == '/') ++ "/index".toList ++ ·))

/-- Attempts against two lists of anchors that are related form by form. -/
theorem forall₂_all {P : Attempt → Attempt → Prop} {conditions extensions : List (List Char)}
    {specifier : List Char} {anchors anchors' : List Url}
    (h : List.Forall₂ (fun u v => ∀ form ∈ forms extensions specifier,
      P ⟨form, u, conditions⟩ ⟨form, v, conditions⟩) anchors anchors') :
    List.Forall₂ P (all conditions extensions specifier anchors)
      (all conditions extensions specifier anchors') := by
  have hforms : ∀ {forms' : List (List Char)} {u v : Url}, (∀ form ∈ forms',
      P ⟨form, u, conditions⟩ ⟨form, v, conditions⟩) → List.Forall₂ P
        (forms'.map fun form => ⟨form, u, conditions⟩)
        (forms'.map fun form => ⟨form, v, conditions⟩) := by
    intro forms' u v hall
    rw [List.forall₂_map_left_iff, List.forall₂_map_right_iff]
    exact List.forall₂_same.2 hall
  unfold all
  refine List.rel_append ?_ ?_
  · rw [List.forall₂_map_left_iff, List.forall₂_map_right_iff]
    exact h.imp fun u v huv => huv _ List.mem_cons_self
  · refine List.rel_flatMap h fun u v huv => List.rel_append ?_ ?_
    · have hmapped := hforms fun form hform =>
        huv form (List.mem_cons_of_mem _ (List.mem_append_left _ hform))
      rwa [List.map_map, List.map_map] at hmapped
    · have hmapped := hforms fun form hform =>
        huv form (List.mem_cons_of_mem _ (List.mem_append_right _ hform))
      rwa [List.map_map, List.map_map] at hmapped

end Attempt

namespace Search

/-- **A search along a list** runs parallel to one along another list if the attempts do. -/
theorem parallel_each {delegate delegate' : Delegate} {r : Url → Url → Prop}
    {attempts attempts' : List Attempt}
    (h : List.Forall₂ (fun a b => Parallel r (a.outcome delegate) (b.outcome delegate'))
      attempts attempts') :
    Parallel (Option.Rel r) (each (once delegate) attempts).found
      (each (once delegate') attempts').found := by
  induction h with
  | nil => exact .ok .none
  | @cons a b rest rest' hab _ ih =>
    unfold each once orElse
    dsimp only
    generalize a.outcome delegate = x at hab ⊢
    generalize b.outcome delegate' = y at hab ⊢
    cases hab with
    | ok huv => exact .ok (.some huv)
    | @error e e' he =>
      have hmissed : e.isNotFound = e'.isNotFound := by
        rw [Error.isNotFound_eq, Error.isNotFound_eq, he]
      dsimp only
      rw [← hmissed]
      cases e.isNotFound with
      | true => exact ih
      | false => exact .error he

end Search

/-! ## Answers -/

theorem NodeResolution.isFile_of_remote {url : Url} (h : remoteSchemes.contains url.scheme = true) :
    url.isFile = false := by
  refine Bool.eq_false_iff.2 fun hfile => ?_
  rw [Url.isFile, Url.isFileScheme] at hfile
  rw [eq_of_beq hfile] at h
  exact absurd h (by decide)

namespace Site

variable {project : Project} {reach size stars : Nat} {σ τ : Site project reach}
  {text : List Char}

/-- What a resolver answers in the directory of a project to those who ask for paths. -/
def answer (σ : Site project reach) (text : List Char) : Except Error (List Char) :=
  (Resolver.new (.new σ.root) .none).resolvePath σ.tree .none text

/-- An id starts with the protocol of a remote module. -/
def IsRemoteId (id : List Char) : Prop := ∃ protocol ∈ Resolver.remoteProtocols, protocol <+: id

/-- URLs that mean the same at two sites: that of the same file, or of a remote module. -/
inductive SameModule (σ τ : Site project reach) : List Char → List Char → Prop
  | file {ts : List (List Char)} (left : σ.tree.IsPlainReal (σ.names ++ ts.map .ofText))
      (right : τ.tree.IsPlainReal (τ.names ++ ts.map .ofText)) :
      SameModule σ τ (Url.ofNames (σ.names ++ ts.map .ofText)).href
        (Url.ofNames (τ.names ++ ts.map .ofText)).href
  | remote {id : List Char} (h : IsRemoteId id) : SameModule σ τ id id

/-- Answers that mean the same at two sites: the paths of the same file, or a remote module. -/
inductive Agree (σ τ : Site project reach) : List Char → List Char → Prop
  | file (q : List Char) : Agree σ τ (σ.root.display ++ '/' :: q) (τ.root.display ++ '/' :: q)
  | remote {id : List Char} (h : IsRemoteId id) : Agree σ τ id id

/-- The URL that is found for a file is that of its real path. -/
theorem realUrl_url (σ : Site project reach) {ts : List (List Char)}
    (h : σ.tree.IsPlainReal (σ.names ++ ts.map .ofText)) (fragment : Option (List Char)) :
    (do
      let path ← NodeResolution.filePath (σ.url ts fragment)
      Resolver.realUrl σ.tree path) = .ok (Url.ofNames (σ.names ++ ts.map .ofText)).href := by
  have hpath : (σ.url ts fragment).toFilePath? = some (.ofNames (σ.names ++ ts.map .ofText)) :=
    Url.toFilePath?_ofNames h.ne_nil h.noColon h.noBar
  unfold NodeResolution.filePath
  rw [hpath]
  exact Resolver.realUrl_of_isPlainReal h

/-- What is found side by side is answered side by side. -/
theorem parallel_settle {found found' : Option Url} (h : Option.Rel (Meets σ τ) found found')
    (text : List Char) (anchors anchors' : List Url) :
    Parallel (SameModule σ τ) (Resolver.settle σ.tree text anchors found)
      (Resolver.settle τ.tree text anchors' found') := by
  unfold Resolver.settle
  cases h with
  | none => exact .error rfl
  | some huv =>
    cases huv with
    | file fragment left right =>
      have hfile : ∀ ρ : Site project reach, ∀ ts, (ρ.url ts fragment).isFile = true :=
        fun _ _ => rfl
      dsimp only
      rw [if_pos (hfile σ _), if_pos (hfile τ _), σ.realUrl_url left, τ.realUrl_url right]
      exact .ok (.file left right)
    | remote hremote =>
      dsimp only
      rw [NodeResolution.isFile_of_remote hremote, if_neg Bool.false_ne_true,
        if_neg Bool.false_ne_true]
      exact .ok (.remote (Resolver.exists_protocol_of_remoteSchemes hremote))

/-! ### The text of a path below a site -/

theorem head?_display_root (σ : Site project reach) : σ.root.display.head? = some '/' := by
  have habsolute : σ.root.isAbsolute = true := FilePath.isAbsolute_ofNames _
  obtain ⟨p, hp⟩ : ∃ p, σ.root = FilePath.slash :: p :=
    List.head?_eq_some_iff.1 (by simpa [FilePath.isAbsolute] using habsolute)
  rw [hp]
  rfl

/-- The text of a path below a site is that of the site with the pieces behind it. -/
theorem display_ofNames (σ : Site project reach) (ts : List (List Char)) :
    (FilePath.ofNames (σ.names ++ ts.map .ofText)).display =
      σ.root.display ++ Url.joinSegments ts := by
  have hbytes : (ts.map FilePath.ofText).flatMap (FilePath.slash :: ·) =
      Utf8.encode (Url.joinSegments ts) := by
    induction ts with
    | nil => rfl
    | cons t ts ih =>
      rw [List.map_cons, List.flatMap_cons, ih, Url.joinSegments_cons, ← List.cons_append,
        Utf8.encode_append]
      rfl
  have hpath : FilePath.ofNames (σ.names ++ ts.map .ofText) =
      σ.root ++ Utf8.encode (Url.joinSegments ts) := by
    unfold root
    rw [FilePath.ofNames_of_ne_nil (σ.append_ne_nil _), FilePath.ofNames_of_ne_nil σ.ne_nil,
      List.flatMap_append, hbytes]
  unfold FilePath.display
  rw [hpath]
  cases ts with
  | nil => simp [Url.joinSegments]
  | cons t ts =>
    have hslash : Utf8.encode (Url.joinSegments (t :: ts)) =
        FilePath.slash :: Utf8.encode (t ++ Url.joinSegments ts) := rfl
    rw [hslash, Utf8.decodeLossy_append (by decide), ← hslash, Utf8.decodeLossy_encode]

/-- A file below a site is not the directory of the site. -/
theorem ne_nil_of_isPlainReal (σ : Site project reach) {ts : List (List Char)}
    (h : σ.tree.IsPlainReal (σ.names ++ ts.map .ofText)) : ts ≠ [] := by
  rintro rfl
  obtain ⟨place, content, hpath, hfind⟩ := h.real.exists_find?
  have hnames := congrArg FilePath.names hpath
  rw [List.map_nil, List.append_nil, FilePath.names_ofNames σ.named,
    FilePath.names_ofNames (σ.wellFormed.isName_of_find? hfind)] at hnames
  rw [← hnames, σ.directory] at hfind
  cases hfind

theorem toPath_of_isRemoteId {id : List Char} (h : IsRemoteId id) :
    ∃ path, IsRemoteId path ∧ Id.toPath id = .ok path := by
  obtain ⟨protocol, hprotocol, rest, rfl⟩ := h
  have hnormal : ∀ protocol ∈ Resolver.remoteProtocols, Location.normalize protocol = protocol := by
    decide
  have hfile : ∀ protocol ∈ Resolver.remoteProtocols,
      Id.fileProtocol.isPrefixOf (protocol ++ rest) = false := by
    intro protocol hprotocol
    simp only [Resolver.remoteProtocols, List.map_cons, List.map_nil, List.mem_cons,
      List.not_mem_nil, or_false] at hprotocol
    rcases hprotocol with rfl | rfl | rfl | rfl <;> rfl
  refine ⟨protocol ++ Location.normalize rest, ⟨protocol, hprotocol, List.prefix_append _ _⟩, ?_⟩
  have hsplit : Location.normalize (protocol ++ rest) =
      Location.normalize protocol ++ Location.normalize rest := List.map_append
  unfold Id.toPath
  rw [hfile protocol hprotocol, if_neg Bool.false_ne_true, hsplit, hnormal protocol hprotocol]

/-- The path of a file is no id of a remote module. -/
theorem ne_of_isRemoteId (σ : Site project reach) {id : List Char} (h : IsRemoteId id)
    (q : List Char) : σ.root.display ++ '/' :: q ≠ id := by
  rintro rfl
  obtain ⟨protocol, hprotocol, rest, heq⟩ := h
  have hall : ∀ protocol ∈ Resolver.remoteProtocols, protocol ≠ [] ∧ protocol.head? ≠ some '/' := by
    decide
  obtain ⟨hne, hslash⟩ := hall protocol hprotocol
  obtain ⟨c, more, rfl⟩ := List.exists_cons_of_ne_nil hne
  obtain ⟨text, htext⟩ := List.head?_eq_some_iff.1 σ.head?_display_root
  rw [htext] at heq
  exact hslash (congrArg some (List.cons.inj heq).1)

/-- **Paths are answered side by side.** -/
theorem parallel_toPath {id id' : List Char} (h : SameModule σ τ id id') :
    Parallel (Agree σ τ) (Id.toPath id) (Id.toPath id') := by
  cases h with
  | @file ts left right =>
    rw [Resolver.toPath_href left, Resolver.toPath_href right, σ.display_ofNames, τ.display_ofNames]
    obtain ⟨t, ts, rfl⟩ := List.exists_cons_of_ne_nil (σ.ne_nil_of_isPlainReal left)
    exact .ok (.file (t ++ Url.joinSegments ts))
  | remote hremote =>
    obtain ⟨path, hpath, hok⟩ := toPath_of_isRemoteId hremote
    rw [hok]
    exact .ok (.remote hpath)

end Site

/-! ## Projects in trees -/

section

variable {t : FileTree} {hlinks : ∀ e ∈ t.entries, ∀ target, e.2 ≠ .link target}
  {size stars : Nat}

/-- A project is plain if the names and the manifests in its tree are. -/
theorem Project.isPlain_ofTree
    (hnames : ∀ entry ∈ t.entries, ∀ n ∈ entry.1, UInt8.ofNat '*'.toNat ∉ n)
    (hmanifests : ∀ e ∈ manifests t,
      (∀ text ∈ e.2.main, Url.Descends text ∧ text.head? ≠ some '/' ∧ text.length ≤ size) ∧
      (∀ map ∈ e.2.exports, NodeResolution.TextsAre size stars map) ∧
      ∀ map ∈ e.2.imports, NodeResolution.TextsAre size stars map) :
    (ofTree t hlinks).IsPlain size stars where
  starless := by
    intro place e hfind n hn
    obtain ⟨entry, hentry, hmem⟩ := mem_place_of_find? hfind hn
    exact hnames entry hentry n hmem
  main := fun _ _ h => (hmanifests _ (mem_manifests h)).1
  exports := fun _ _ h => (hmanifests _ (mem_manifests h)).2.1
  imports := fun _ h => (hmanifests _ (mem_manifests h)).2.2

theorem Project.fills_ofTree {text : List Char}
    (h : ∀ e ∈ manifests t, ∀ map ∈ e.2.imports, ∀ k ∈ map.entries?.getD [],
      ∀ filling ∈ PackageMap.matchKey? k.1 text, Url.IsFilling filling) :
    (ofTree t hlinks).Fills text :=
  fun _ _ hm map hmap k hk filling hfilling =>
    h _ (mem_manifests hm) map hmap k hk filling hfilling

end

/-! ## Resolvers -/

namespace Resolver

open Site

variable {project : Project} {reach size stars : Nat} {text : List Char}

/-- The room that paths need behind that of a site, for texts of manifests of a given length and
with a given number of stars, and for specifiers of a given length. -/
def roomFor (size stars length : Nat) : Nat :=
  (stars + 2) * (size + (stars + 1) * (length + 11)) + size + stars + 43

/-- The specifiers that are tried for a specifier if a call chooses nothing. -/
def triedFor (text : List Char) : List (List Char) :=
  Attempt.forms (ResolverConfig.new []).extensions text

theorem isEnding_extension : ∀ x ∈ (ResolverConfig.new []).extensions, Url.IsEnding x ∧
    Url.IsEnding ("/index".toList ++ x) ∧ x.length ≤ 5 := by
  decide

/-- A plain text without the slashes at its end. -/
theorem descends_rdropWhile (htext : Url.Descends text) (hne : text ≠ [])
    (hslash : text.head? ≠ some '/') : Url.Descends (text.rdropWhile (· == '/')) ∧
      (text.rdropWhile (· == '/')).head? = text.head? := by
  induction text using List.reverseRecOn with
  | nil => exact absurd rfl hne
  | append_singleton init c ih =>
    by_cases hc : c = '/'
    · subst hc
      have hinit : init ≠ [] := by
        rintro rfl
        exact hslash rfl
      have hhead : (init ++ ['/']).head? = init.head? := List.head?_append_of_ne_nil _ hinit
      rw [hhead] at hslash
      rw [List.rdropWhile_concat_pos _ _ _ (by rfl), hhead]
      exact ih (Url.descends_append_slash.1 htext).1 hinit hslash
    · rw [List.rdropWhile_concat_neg _ _ _ (by simpa using hc)]
      exact ⟨htext, rfl⟩

/-- The specifiers that are tried for a plain one are plain. -/
theorem of_mem_triedFor {form : List Char} (htext : Url.Descends text) (hne : text ≠ [])
    (hslash : text.head? ≠ some '/') (h : form ∈ triedFor text) :
    Url.Descends form ∧ form ≠ [] ∧ form.head? ≠ some '/' ∧ form.length ≤ text.length + 11 := by
  have happend : ∀ {front : List Char}, front.head? = text.head? → ∀ ending : List Char,
      front ++ ending ≠ [] ∧ (front ++ ending).head? ≠ some '/' := by
    intro front hfront ending
    obtain ⟨c, rest, rfl⟩ := List.exists_cons_of_ne_nil hne
    obtain ⟨more, rfl⟩ := List.head?_eq_some_iff.1 hfront
    exact ⟨List.cons_ne_nil _ _, hslash⟩
  rcases List.mem_cons.1 h with rfl | h
  · exact ⟨htext, hne, hslash, by omega⟩
  rcases List.mem_append.1 h with h | h
  · obtain ⟨x, hx, rfl⟩ := List.mem_map.1 h
    obtain ⟨hending, -, hlength⟩ := isEnding_extension x hx
    refine ⟨htext.append_ending hending, (happend rfl x).1, (happend rfl x).2, ?_⟩
    rw [List.length_append]
    omega
  · obtain ⟨x, hx, rfl⟩ := List.mem_map.1 h
    obtain ⟨-, hending, hlength⟩ := isEnding_extension x hx
    obtain ⟨hfront, hhead⟩ := descends_rdropWhile htext hne hslash
    have hshort := (List.rdropWhile_prefix (· == '/') text).length_le
    rw [List.append_assoc]
    refine ⟨hfront.append_ending hending, (happend hhead _).1, (happend hhead _).2, ?_⟩
    have hindex : "/index".toList.length = 6 := rfl
    rw [List.length_append, List.length_append, hindex]
    omega

/-- A plain specifier gives the same answer without a search at both sites, or needs a search. -/
theorem immediate?_eq (σ τ : Site project reach) (htext : ∀ c ∈ text, c ∈ Url.plainChars)
    (hslash : text.head? ≠ some '/') :
    (∃ id, IsRemoteId id ∧ (new (.new σ.root) .none).immediate? σ.tree text = some (.ok id) ∧
        (new (.new τ.root) .none).immediate? τ.tree text = some (.ok id)) ∨
      (new (.new σ.root) .none).immediate? σ.tree text = none ∧
        (new (.new τ.root) .none).immediate? τ.tree text = none := by
  have hremote : remoteProtocols.any (·.isPrefixOf text) = false := by
    refine List.any_eq_false.2 fun protocol hprotocol hprefix => ?_
    have hcolon : ∀ protocol ∈ remoteProtocols, ':' ∈ protocol := by decide
    obtain ⟨rest, rfl⟩ := List.isPrefixOf_iff_prefix.1 hprefix
    have hmem := htext ':' (List.mem_append_left _ (hcolon protocol hprotocol))
    exact absurd hmem (by decide)
  have hanswer : ∀ ρ : Site project reach, (new (.new ρ.root) .none).immediate? ρ.tree text =
      (Builtins.node.canonical? text).map .ok := by
    intro ρ
    have hrelative : (FilePath.ofText text).isAbsolute = false :=
      FilePath.isAbsolute_ofText hslash
    have hbuiltins : (new (.new ρ.root) .none).config.builtins = Builtins.node := rfl
    unfold immediate?
    rw [hremote, if_neg Bool.false_ne_true, hbuiltins]
    cases Builtins.node.canonical? text with
    | some id => rfl
    | none =>
      show (if ((FilePath.ofText text).isAbsolute && _) = true then _ else _) = _
      rw [hrelative]
      rfl
  rw [hanswer σ, hanswer τ]
  cases hid : Builtins.node.canonical? text with
  | none => exact .inr ⟨rfl, rfl⟩
  | some id =>
    obtain ⟨-, hid⟩ := Option.ite_none_right_eq_some.1 hid
    obtain rfl := Option.some.inj hid
    exact .inl ⟨_, ⟨Builtins.protocol, by decide, List.prefix_append _ _⟩, rfl, rfl⟩

/-- **Modules are found side by side.** -/
theorem parallel_resolve (hproject : project.IsPlain size stars) (htext : Url.Descends text)
    (hne : text ≠ []) (hslash : text.head? ≠ some '/')
    (hfills : ∀ form ∈ triedFor text, project.Fills form)
    (hroom : roomFor size stars text.length ≤ reach) (σ τ : Site project reach) :
    Parallel (SameModule σ τ) ((new (.new σ.root) .none).resolve σ.tree .none text)
      ((new (.new τ.root) .none).resolve τ.tree .none text) := by
  unfold resolve trace
  rcases immediate?_eq σ τ htext.chars hslash with ⟨id, hid, hσ, hτ⟩ | ⟨hσ, hτ⟩
  · rw [hσ, hτ]
    exact .ok (.remote hid)
  have hanchors : ∀ ρ : Site project reach, (new (.new ρ.root) .none).anchors ρ.tree
      (ResolveOptions.none.orElse (new (.new ρ.root) .none).defaults) = .ok ρ.anchorUrls :=
    fun ρ => ρ.anchors_eq
  rw [hσ, hτ]
  unfold searchAll
  dsimp only
  rw [hanchors σ, hanchors τ]
  dsimp only
  rw [Search.acrossAnchors_eq_each, Search.acrossAnchors_eq_each]
  refine Parallel.bind (r := Option.Rel (Meets σ τ)) (Search.parallel_each
    (Attempt.forall₂_all ?_)) fun found found' hfound => parallel_settle hfound text _ _
  unfold anchorUrls
  rw [List.forall₂_map_left_iff, List.forall₂_map_right_iff]
  refine List.forall₂_same.2 fun name hname form hform => ?_
  obtain ⟨hform', hne', hslash', hlength⟩ := of_mem_triedFor htext hne hslash hform
  -- What a specifier and what is put in for the stars of a target may come to.
  have hstarred : stars * form.length ≤ stars * (text.length + 11) :=
    Nat.mul_le_mul_left stars hlength
  have hlimit : size + (stars + 1) * (text.length + 11) =
      size + stars * (text.length + 11) + (text.length + 11) := by
    rw [Nat.add_mul, Nat.one_mul, Nat.add_assoc]
  exact NodeResolution.parallel_resolve hproject (hfills form hform) (σ.liesIn_anchor hname)
    (τ.liesIn_anchor hname) hform' hne' hslash'
    (show form.length ≤ size + (stars + 1) * (text.length + 11) by omega) (by omega) hroom _

/-- **Resolution does not depend on where a project lies.** -/
theorem resolvePath_moved (hproject : project.IsPlain size stars) (htext : Url.Descends text)
    (hne : text ≠ []) (hslash : text.head? ≠ some '/')
    (hfills : ∀ form ∈ triedFor text, project.Fills form)
    (hroom : roomFor size stars text.length ≤ reach) (σ τ : Site project reach) :
    (∀ q, σ.answer text = .ok (σ.root.display ++ '/' :: q) ↔
        τ.answer text = .ok (τ.root.display ++ '/' :: q)) ∧
      (∀ id, IsRemoteId id → (σ.answer text = .ok id ↔ τ.answer text = .ok id)) ∧
      ((∃ q, σ.answer text = .ok (σ.root.display ++ '/' :: q)) ∨
        (∃ id, IsRemoteId id ∧ σ.answer text = .ok id) ∨
        ∃ e e', σ.answer text = .error e ∧ τ.answer text = .error e' ∧ e.code = e'.code) := by
  have hboth : Parallel (Agree σ τ) (σ.answer text) (τ.answer text) :=
    (parallel_resolve hproject htext hne hslash hfills hroom σ τ).bind fun id id' hid =>
      parallel_toPath hid
  generalize σ.answer text = answer at hboth ⊢
  generalize τ.answer text = answer' at hboth ⊢
  cases hboth with
  | ok hagree =>
    cases hagree with
    | file q =>
      refine ⟨fun p => ?_, fun id hid => ?_, .inl ⟨q, rfl⟩⟩
      · simp
      · exact iff_of_false (fun heq => σ.ne_of_isRemoteId hid q (Except.ok.inj heq))
          fun heq => τ.ne_of_isRemoteId hid q (Except.ok.inj heq)
    | @remote id hid =>
      refine ⟨fun q => ?_, fun id' hid' => Iff.rfl, .inr (.inl ⟨_, hid, rfl⟩)⟩
      exact iff_of_false (fun heq => σ.ne_of_isRemoteId hid q (Except.ok.inj heq).symm)
        fun heq => τ.ne_of_isRemoteId hid q (Except.ok.inj heq).symm
  | error he =>
    refine ⟨fun q => iff_of_false (by simp) (by simp), fun id hid => ?_,
      .inr (.inr ⟨_, _, rfl, rfl, he⟩)⟩
    exact iff_of_false (by simp) (by simp)

/-! ### A project with internal names -/

/-- A project whose internal names stand for modules of a package, and that package, which keeps its
modules in a directory. -/
def internalTree : FileTree :=
  let modules := FilePath.ofText "node_modules".toList
  let pkg := FilePath.ofText "pkg".toList
  let dist := FilePath.ofText "dist".toList
  let imports := "\x7b\"imports\":\x7b\"#lib/*\":\"pkg/*\"\x7d\x7d".toList
  let exports := "\x7b\"exports\":\x7b\"./*\":\"./dist/*.js\"\x7d\x7d".toList
  ⟨[([Manifest.fileName], .file (FilePath.ofText imports)),
    ([modules], .directory),
    ([modules, pkg], .directory),
    ([modules, pkg, Manifest.fileName], .file (FilePath.ofText exports)),
    ([modules, pkg, dist], .directory),
    ([modules, pkg, dist, FilePath.ofText "x.js".toList], .file [])], []⟩

theorem noLinks_internalTree : ∀ e ∈ internalTree.entries, ∀ target, e.2 ≠ .link target := by
  intro e he target hlink
  simp only [internalTree, List.mem_cons, List.not_mem_nil, or_false] at he
  rcases he with rfl | rfl | rfl | rfl | rfl | rfl <;> cases hlink

theorem isWellFormed_internalTree : internalTree.IsWellFormed :=
  ⟨by decide, by decide⟩

theorem isPlain_internalTree :
    (Project.ofTree internalTree noLinks_internalTree).IsPlain 11 1 := by
  refine Project.isPlain_ofTree ?_ ?_
  · decide
  · decide +kernel

/-- The project below a single name. -/
def internalSite : Site (Project.ofTree internalTree noLinks_internalTree) 200 :=
  .placed isWellFormed_internalTree noLinks_internalTree [FilePath.ofText "w".toList]
    (by decide) (by decide) 200 (by decide)

/-- The project below two names, one of them with a blank. -/
def internalSite' : Site (Project.ofTree internalTree noLinks_internalTree) 200 :=
  .placed isWellFormed_internalTree noLinks_internalTree
    [FilePath.ofText "home".toList, FilePath.ofText "a b".toList] (by decide) (by decide) 200
    (by decide)

/-- An internal name leads to the same module of the package in both places. -/
theorem resolvePath_moved_internal :
    let text := "#lib/x".toList
    roomFor 11 1 text.length ≤ 200 ∧
      internalSite.answer text = .ok "/w/node_modules/pkg/dist/x.js".toList ∧
      internalSite'.answer text = .ok "/home/a b/node_modules/pkg/dist/x.js".toList := by
  intro text
  have hfills : ∀ form ∈ triedFor text,
      (Project.ofTree internalTree noLinks_internalTree).Fills form := by
    have hall : ∀ form ∈ triedFor text, ∀ e ∈ Project.manifests internalTree,
        ∀ map ∈ e.2.imports, ∀ k ∈ map.entries?.getD [],
          ∀ filling ∈ PackageMap.matchKey? k.1 form, Url.IsFilling filling := by
      decide +kernel
    exact fun form hform => Project.fills_ofTree (hall form hform)
  have hroom : roomFor 11 1 text.length ≤ 200 := by decide
  have hmoved := resolvePath_moved isPlain_internalTree (by decide) (by decide) (by decide)
    hfills hroom internalSite internalSite'
  have hanswer : internalSite.answer text = .ok "/w/node_modules/pkg/dist/x.js".toList := by
    decide +kernel
  exact ⟨hroom, hanswer, (hmoved.1 "node_modules/pkg/dist/x.js".toList).1 hanswer⟩

/-! ### A directory with a star in its name -/

/-- The star in the name of the directory is taken for one of the target, so that the package loses
its modules there. -/
theorem resolvePath_starred :
    let starred := FilePath.ofText "a*b".toList
    let tree := FileTree.placed [starred] internalTree
    let text := "pkg/x".toList
    FilePath.isName starred = true ∧ (∀ c ∈ ['\\', ':', '|'], UInt8.ofNat c.toNat ∉ starred) ∧
      tree.IsWellFormed ∧ (∀ place, tree.find? (starred :: place) = internalTree.find? place) ∧
      internalSite.answer text = .ok "/w/node_modules/pkg/dist/x.js".toList ∧
      (new (.new (.ofNames [starred])) .none).resolvePath tree .none text =
        .error (.notFound text ["file:///a*b/".toList, "file:///a*b/_index.js".toList,
          "file:///a*b/node_modules".toList]) := by
  intro starred tree text
  have hname : FilePath.isName starred = true := by decide
  refine ⟨hname, by decide, ?_, FileTree.find?_placed [starred] internalTree, by decide +kernel,
    by decide +kernel⟩
  exact FileTree.isWellFormed_placed isWellFormed_internalTree (by simpa using hname)

end Resolver

end EsModules
