import EsModules.Proofs.FileTree.SiteUrl

/-!
# Resolution at two sites

A project that lies at two sites is resolved in side by side.  Two results run parallel if they are
related values, or errors of the same code; URLs correspond if they are of the same pieces below the
sites, or of the directories above them, or the same URL that names no file.

* `Parallel`: results of computations that go side by side.
* `Site.Corresponds`: URLs of the same place, seen from two sites.
* `NodeResolution.parallel_finalize`: what is found for URLs that correspond.
-/

namespace EsModules

open FilePath

/-! ## Results -/

/-- Two results run parallel: they are related values, or errors of the same code. -/
inductive Parallel {α β : Type} (r : α → β → Prop) : Except Error α → Except Error β → Prop
  | ok {a : α} {b : β} (h : r a b) : Parallel r (.ok a) (.ok b)
  | error {e e' : Error} (h : e.code = e'.code) : Parallel r (.error e) (.error e')

theorem Error.isNotFound_eq (e : Error) : e.isNotFound = ["ERR_MODULE_NOT_FOUND",
    "ERR_UNSUPPORTED_DIR_IMPORT", "ERR_PACKAGE_PATH_NOT_EXPORTED"].contains e.code := by
  cases e <;> simp [isNotFound, code]

namespace Parallel

variable {α β γ δ : Type} {r : α → β → Prop} {s : γ → δ → Prop}

theorem bind {x : Except Error α} {y : Except Error β} (h : Parallel r x y)
    {f : α → Except Error γ} {g : β → Except Error δ}
    (hnext : ∀ a b, r a b → Parallel s (f a) (g b)) : Parallel s (x >>= f) (y >>= g) := by
  cases h with
  | ok hab => exact hnext _ _ hab
  | error he => exact .error he

theorem map {x : Except Error α} {y : Except Error β} (h : Parallel r x y)
    {f : α → γ} {g : β → δ} (hnext : ∀ a b, r a b → s (f a) (g b)) :
    Parallel s (x.map f) (y.map g) := by
  cases h with
  | ok hab => exact .ok (hnext _ _ hab)
  | error he => exact .error he

end Parallel

/-! ## URLs -/

namespace Site

variable {project : Project} {reach : Nat}

/-- URLs of the same place, seen from two sites. -/
inductive Corresponds (σ τ : Site project reach) : Url → Url → Prop
  | below {ts : List (List Char)} (fragment : Option (List Char)) (pieces : ArePieces ts)
      (room : length ts ≤ reach) : Corresponds σ τ (σ.url ts fragment) (τ.url ts fragment)
  | above (fragment : Option (List Char)) :
      Corresponds σ τ (σ.aboveUrl fragment) (τ.aboveUrl fragment)
  | remote {url : Url} (h : url.isFile = false) : Corresponds σ τ url url

/-- URLs of the same file, seen from two sites, or the same URL of a remote scheme. -/
inductive Meets (σ τ : Site project reach) : Url → Url → Prop
  | file {ts : List (List Char)} (fragment : Option (List Char))
      (left : σ.tree.IsPlainReal (σ.names ++ ts.map ofText))
      (right : τ.tree.IsPlainReal (τ.names ++ ts.map ofText)) :
      Meets σ τ (σ.url ts fragment) (τ.url ts fragment)
  | remote {url : Url} (h : NodeResolution.remoteSchemes.contains url.scheme = true) :
      Meets σ τ url url

variable {σ τ : Site project reach} {u v : Url}

theorem Corresponds.isFile_eq (h : Corresponds σ τ u v) : u.isFile = v.isFile := by
  cases h <;> rfl

theorem Corresponds.of_not_isFile (h : Corresponds σ τ u v) (hfile : u.isFile = false) : u = v := by
  cases h with
  | below | above => cases hfile
  | remote => rfl

/-- A plain text read behind the same directory at two sites. -/
theorem corresponds_behind (σ τ : Site project reach) {dir : List (List Char)} {text : List Char}
    (hdir : AreNames dir) (htext : Url.Descends text)
    (hroom : length dir + text.length + 2 ≤ reach) :
    Corresponds σ τ (Url.behind (σ.segs dir) text) (Url.behind (τ.segs dir) text) := by
  rcases behind_cases hdir htext hroom with ⟨ts, hpieces, hlength, hbelow⟩ | habove
  · rw [hbelow σ, hbelow τ]
    exact .below _ hpieces hlength
  · rw [habove σ, habove τ]
    exact .above _

end Site

/-! ## Files -/

namespace NodeResolution

open Site

variable {project : Project} {reach : Nat} {σ τ : Site project reach}

/-- Below the sites: what stands there is the same, and a file has corresponding real paths. -/
theorem parallel_finalize_below {ts : List (List Char)} (h : ArePieces ts)
    (hlength : length ts ≤ reach) (fragment : Option (List Char)) (b c : Url) :
    Parallel (Meets σ τ) (finalize σ.tree (σ.url ts fragment) b)
      (finalize τ.tree (τ.url ts fragment) c) := by
  have hstat := σ.stat_eq τ h hlength
  unfold finalize
  rw [σ.hasEscapedSeparator_url h, τ.hasEscapedSeparator_url h, if_neg Bool.false_ne_true,
    if_neg Bool.false_ne_true, σ.filePath_url h, τ.filePath_url h]
  dsimp only [bind, Except.bind]
  rw [← hstat]
  cases hentry : σ.tree.stat (σ.path ts) with
  | error e => exact .error rfl
  | ok entry =>
    cases entry with
    | directory => exact .error rfl
    | link target => exact .error rfl
    | file content =>
      have hentry' : τ.tree.stat (τ.path ts) = .ok (.file content) := hstat ▸ hentry
      rw [σ.realPath_of_stat h hlength hentry, τ.realPath_of_stat h hlength hentry']
      dsimp only [Except.mapError]
      rw [σ.fileUrl_path h.named, τ.fileUrl_path h.named, namedPieces_namedPieces]
      exact .ok (.file fragment (σ.isPlainReal_of_stat h hlength hentry)
        (τ.isPlainReal_of_stat h hlength hentry'))

/-- Above the sites there are directories. -/
theorem parallel_finalize_above (fragment : Option (List Char)) (b c : Url) :
    Parallel (Meets σ τ) (finalize σ.tree (σ.aboveUrl fragment) b)
      (finalize τ.tree (τ.aboveUrl fragment) c) := by
  unfold finalize
  rw [σ.hasEscapedSeparator_aboveUrl, τ.hasEscapedSeparator_aboveUrl, if_neg Bool.false_ne_true,
    if_neg Bool.false_ne_true, σ.filePath_aboveUrl, τ.filePath_aboveUrl]
  dsimp only [bind, Except.bind]
  rw [σ.stat_abovePath, τ.stat_abovePath]
  exact .error rfl

/-- **Files for URLs that correspond** are found at both sites, or at neither. -/
theorem parallel_finalize {u v : Url} (h : Corresponds σ τ u v) (hfile : u.isFile = true)
    (b c : Url) : Parallel (Meets σ τ) (finalize σ.tree u b) (finalize τ.tree v c) := by
  cases h with
  | below fragment pieces room => exact parallel_finalize_below pieces room fragment b c
  | above fragment => exact parallel_finalize_above fragment b c
  | remote hremote =>
    rw [hfile] at hremote
    cases hremote

theorem leadsToFile_eq_of_filePath {tree : FileTree} {url : Url} {path : FilePath}
    (h : filePath url = .ok path) : leadsToFile tree url = tree.isFile path := by
  unfold filePath at h
  cases hpath : url.toFilePath? with
  | none => rw [hpath] at h; cases h
  | some p =>
    rw [hpath] at h
    obtain rfl := Except.ok.inj h
    unfold leadsToFile
    rw [hpath]
    rfl

/-- URLs that correspond lead to a file at both sites, or at neither. -/
theorem leadsToFile_eq {u v : Url} (h : Corresponds σ τ u v) (hfile : u.isFile = true) :
    leadsToFile σ.tree u = leadsToFile τ.tree v := by
  cases h with
  | below fragment pieces room =>
    rw [leadsToFile_eq_of_filePath (σ.filePath_url pieces fragment),
      leadsToFile_eq_of_filePath (τ.filePath_url pieces fragment), σ.isFile_eq τ pieces room]
  | above fragment =>
    rw [leadsToFile_eq_of_filePath (σ.filePath_aboveUrl fragment),
      leadsToFile_eq_of_filePath (τ.filePath_aboveUrl fragment)]
    unfold FileTree.isFile
    rw [σ.stat_abovePath, τ.stat_abovePath]
  | remote hremote =>
    rw [hfile] at hremote
    cases hremote

end NodeResolution

end EsModules
