import EsModules.Module.Id
import EsModules.Proofs.Url.FilePath

/-!
# Paths and file URLs of modules

A path and its file URL name the same module.  The path of the URL is the path again, whatever
characters stand in it, as long as its segments are not the dots and hold no backslash, colon or
bar: these are the ones that a URL reads otherwise.

* `Id.toPath_href`: the path of the URL of a path.
* `Id.IsPlainPath`: the paths that come back.
* `Id.toFileUrl_plain`: the way there and back.
-/

namespace EsModules.Id

open FilePath

/-! ## The path of a URL -/

/-- A path without backslashes is left as it is. -/
theorem normalize_eq_self {cs : List Char} (h : '\\' ∉ cs) : Location.normalize cs = cs := by
  have hself : ∀ c ∈ cs, (if c == '\\' then '/' else c) = c := fun c hc => by
    rw [if_neg (by simpa using ne_of_mem_of_not_mem hc h)]
  exact (List.map_congr_left hself).trans (List.map_id _)

/-- The path of the text of a plain file URL, as text. -/
theorem toPath_href {u : Url} {p : FilePath} (hplain : u.IsPlainFile) (hquery : u.query = none)
    (hfragment : u.fragment = none) (hpath : u.toFilePath? = some p) (hback : 0x5C ∉ p) :
    toPath u.href = .ok p.display := by
  have hprotocol : fileProtocol.isPrefixOf u.href = true := by
    rw [Url.href_eq_append hplain.scheme hplain.authority]
    rfl
  have hdisplay : '\\' ∉ p.display := fun hmem =>
    hback (Utf8.mem_of_mem_decodeLossy (by decide) (by decide) hmem)
  unfold toPath
  rw [if_pos hprotocol, Url.parse_href hplain hquery hfragment]
  dsimp only
  rw [hpath]
  dsimp only
  rw [normalize_eq_self hdisplay]

/-! ## Plain paths -/

/-- A segment that is neither empty nor one of the dots, without the marks that a URL reads
otherwise. -/
structure IsPlainSegment (s : List Char) : Prop where
  ne_nil : s ≠ []
  ne_here : s ≠ ['.']
  ne_above : s ≠ ['.', '.']
  noMark : ∀ c ∈ ['/', '\\', ':', '|'], c ∉ s

/-- An absolute path of plain segments. -/
inductive IsPlainPath : List Char → Prop
  | root : IsPlainPath ['/']
  | segments {segments : List (List Char)} : segments ≠ [] → (∀ s ∈ segments, IsPlainSegment s) →
      IsPlainPath (segments.flatMap ('/' :: ·))

variable {p q s : List Char} {segments : List (List Char)}

theorem ofText_injective : Function.Injective ofText :=
  Function.LeftInverse.injective Utf8.decodeLossy_encode

theorem IsPlainSegment.isPiece (h : IsPlainSegment s) : IsPiece (ofText s) where
  notIdle := by
    have hempty : ofText s ≠ [] := fun heq => h.ne_nil (@ofText_injective s [] heq)
    have hhere : ofText s ≠ here := fun heq => h.ne_here (@ofText_injective s ['.'] heq)
    simp [isIdle, hempty, hhere]
  noSlash := fun hmem =>
    h.noMark '/' (by simp) ((Utf8.mem_encode_iff (c := '/') (by decide)).1 hmem)

theorem IsPlainSegment.ofText_ne_above (h : IsPlainSegment s) : ofText s ≠ above := fun heq =>
  h.ne_above (@ofText_injective s ['.', '.'] heq)

/-- A mark that no segment holds is not in a plain path. -/
theorem IsPlainPath.notMem (h : IsPlainPath p) {c : Char} (hc : c ∈ ['\\', ':', '|']) : c ∉ p := by
  have hslash : c ≠ '/' := fun heq => absurd (heq ▸ hc) (by decide)
  cases h with
  | root => simpa using hslash
  | segments _ hsegments =>
    intro hmem
    obtain ⟨s, hs, hcs⟩ := List.mem_flatMap.1 hmem
    exact (hsegments s hs).noMark c (List.mem_cons_of_mem _ hc)
      ((List.mem_cons.1 hcs).resolve_left hslash)

theorem IsPlainPath.head? (h : IsPlainPath p) : p.head? = some '/' := by
  cases h with
  | root => rfl
  | segments hne _ =>
    obtain ⟨s, segments, rfl⟩ := List.exists_cons_of_ne_nil hne
    rfl

/-- The path of a file system that a plain path spells: it is absolute already, climbs nowhere, and
is the path of its file URL. -/
structure HasUrl (p : FilePath) (u : Url) : Prop where
  url : Url.ofFilePath? p = some u
  path : u.toFilePath? = some p
  noAbove : above ∉ p.names
  absolute : ∀ cwd, FilePath.absolute cwd p = p

theorem hasUrl_root : HasUrl (ofText ['/']) (Url.ofNames [[]]) :=
  ⟨by decide, by decide, by decide, fun _ => rfl⟩

theorem hasUrl_segments (hne : segments ≠ []) (h : ∀ s ∈ segments, IsPlainSegment s) :
    HasUrl (ofText (segments.flatMap ('/' :: ·))) (Url.ofNames (segments.map ofText)) := by
  have hplain : IsPlainPath (segments.flatMap ('/' :: ·)) := .segments hne h
  have hne' : segments.map ofText ≠ [] := by simpa using hne
  have hpieces : ∀ n ∈ segments.map ofText, IsPiece n := by
    intro n hn
    obtain ⟨s, hs, rfl⟩ := List.mem_map.1 hn
    exact (h s hs).isPiece
  have hpath : ofText (segments.flatMap ('/' :: ·)) = ofNames (segments.map ofText) := by
    rw [ofNames_of_ne_nil hne', List.flatMap_map]
    exact ofText_joinSegments segments
  have hmark {c : Char} (hc : c ∈ ['\\', ':', '|']) (hlt : c.toNat < 0x80) :
      UInt8.ofNat c.toNat ∉ ofNames (segments.map ofText) := by
    rw [← hpath]
    exact fun hmem => hplain.notMem hc ((Utf8.mem_encode_iff hlt).1 hmem)
  rw [hpath]
  refine ⟨Url.ofFilePath?_ofPieces hne' hpieces,
    Url.toFilePath?_ofNames hne' (hmark (c := ':') (by simp) (by decide))
      (hmark (c := '|') (by simp) (by decide)), ?_, absolute_ofPieces hne' hpieces⟩
  rw [names_ofPieces hpieces]
  intro hmem
  obtain ⟨s, hs, habove⟩ := List.mem_map.1 hmem
  exact (h s hs).ofText_ne_above habove

theorem IsPlainPath.exists_hasUrl (h : IsPlainPath p) :
    ∃ ns, HasUrl (ofText p) (Url.ofNames ns) := by
  cases h with
  | root => exact ⟨_, hasUrl_root⟩
  | segments hne hsegments => exact ⟨_, hasUrl_segments hne hsegments⟩

/-! ## There and back -/

/-- An id that starts with a slash is a path. -/
theorem IsPlainPath.toPath_eq (h : IsPlainPath p) : toPath p = .ok p := by
  obtain ⟨rest, rfl⟩ := List.head?_eq_some_iff.1 h.head?
  have hprotocol : fileProtocol.isPrefixOf ('/' :: rest) = false := rfl
  unfold toPath
  rw [hprotocol, if_neg Bool.false_ne_true, normalize_eq_self (h.notMem (by simp))]

/-- Everything with the same plain path has the same file URL, the URL itself included. -/
theorem IsPlainPath.exists_urlOfPath (h : IsPlainPath p) : ∃ u, toPath u = .ok p ∧
    ∀ id, toPath id = .ok p → ∀ cwd, toFileUrl cwd id = .ok u := by
  obtain ⟨ns, hhas⟩ := h.exists_hasUrl
  have hback : 0x5C ∉ ofText p := fun hmem =>
    h.notMem (c := '\\') (by simp) ((Utf8.mem_encode_iff (by decide)).1 hmem)
  have hne : p.isEmpty = false := by
    obtain ⟨rest, rfl⟩ := List.head?_eq_some_iff.1 h.head?
    rfl
  refine ⟨(Url.ofNames ns).href, ?_, fun id hid cwd => ?_⟩
  · rw [toPath_href (Url.isPlainFile_ofFilePath? hhas.url hhas.noAbove) rfl rfl hhas.path hback]
    exact congrArg Except.ok (Utf8.decodeLossy_encode p)
  · unfold toFileUrl
    rw [hid]
    show (if p.isEmpty = true then _ else _) = _
    rw [hne, if_neg Bool.false_ne_true, hhas.absolute, hhas.url]
    rfl

/-- **A path and its file URL** are told from each other, and nothing is lost between them. -/
theorem IsPlainPath.exists_url (h : IsPlainPath p) :
    ∃ u, (∀ cwd, toFileUrl cwd p = .ok u) ∧ toPath u = .ok p ∧ ∀ cwd, toFileUrl cwd u = .ok u := by
  obtain ⟨u, hpath, hurl⟩ := h.exists_urlOfPath
  exact ⟨u, hurl p h.toPath_eq, hpath, hurl u hpath⟩

/-- **Path to URL and back is the identity** on plain paths: each has a file URL, the same in every
working directory, that leads back to it, is its own file URL, and belongs to no other plain
path. -/
theorem toFileUrl_plain (h : IsPlainPath p) :
    ∃ u, (∀ cwd, toFileUrl cwd p = .ok u) ∧ toPath u = .ok p ∧ (∀ cwd, toFileUrl cwd u = .ok u) ∧
      ∀ q, IsPlainPath q → ∀ cwd, toFileUrl cwd q = .ok u → q = p := by
  obtain ⟨u, hurl, hback, hself⟩ := h.exists_url
  refine ⟨u, hurl, hback, hself, fun q hq cwd hqu => ?_⟩
  obtain ⟨u', hurl', hback', -⟩ := hq.exists_url
  obtain rfl : u' = u := Except.ok.inj ((hurl' cwd).symm.trans hqu)
  exact Except.ok.inj (hback'.symm.trans hback)

/-- Blanks, the marks of queries, fragments and escapes, control characters and characters outside
ASCII come back. -/
theorem toFileUrl_marks :
    let path := "/a b/#x?/100%/\x01é".toList
    let url := "file:///a%20b/%23x%3F/100%25/%01%C3%A9".toList
    IsPlainPath path ∧ (∀ cwd, toFileUrl cwd path = .ok url) ∧ toPath url = .ok path := by
  intro path url
  have hpath : IsPlainPath path := by
    refine @IsPlainPath.segments [['a', ' ', 'b'], ['#', 'x', '?'], ['1', '0', '0', '%'],
      ['\x01', 'é']] (by simp) fun s hs => ?_
    simp only [List.mem_cons, List.not_mem_nil, or_false] at hs
    rcases hs with rfl | rfl | rfl | rfl <;> exact ⟨by simp, by simp, by simp, by simp⟩
  obtain ⟨u, hurl, hback, -, -⟩ := toFileUrl_plain hpath
  have hhere : toFileUrl [] path = .ok url := by decide +kernel
  obtain rfl : u = url := Except.ok.inj ((hurl []).symm.trans hhere)
  exact ⟨hpath, hurl, hback⟩

end EsModules.Id
