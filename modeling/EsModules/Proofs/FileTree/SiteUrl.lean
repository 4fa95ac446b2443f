import EsModules.Proofs.FileTree.Site
import EsModules.Proofs.Url.Starred

/-!
# URLs below a site

What a plain text gives behind a directory below a site is the URL of pieces below that site, and
these pieces come from the directory and the text alone.  Only at the site itself can a text lead to
the directory above.

* `Site.segs`, `Site.url`: the URLs of pieces below a site.
* `Site.behind_cases`: what is read behind a directory below the sites.
* `Site.toFilePath?_url`, `Site.ofFilePath?_path`: URLs and paths.
-/

namespace EsModules

open FilePath PercentEncoding

/-- Names of a path within a project: pieces that name something. -/
def AreNames (ts : List (List Char)) : Prop := ArePieces ts ∧ ∀ t ∈ ts, t ≠ [] ∧ t ≠ ['.']

section

variable {ts us : List (List Char)}

theorem ofText_ne_nil {t : List Char} (h : t ≠ []) : ofText t ≠ [] := by
  intro heq
  have hback : Utf8.decodeLossy (ofText t) = t := Utf8.decodeLossy_encode t
  rw [heq] at hback
  exact h (hback ▸ by decide)

theorem ofText_ne_here {t : List Char} (h : t ≠ ['.']) : ofText t ≠ here := by
  intro heq
  have hback : Utf8.decodeLossy (ofText t) = t := Utf8.decodeLossy_encode t
  rw [heq] at hback
  exact h (hback ▸ by decide)

theorem isIdle_ofText (t : List Char) : isIdle (ofText t) = true ↔ t = [] ∨ t = ['.'] := by
  constructor
  · intro h
    rw [isIdle, Bool.or_eq_true, List.isEmpty_iff, beq_iff_eq] at h
    refine h.imp (fun h => ?_) fun h => ?_
    · exact Decidable.not_not.1 fun hne => ofText_ne_nil hne h
    · exact Decidable.not_not.1 fun hne => ofText_ne_here hne h
  · rintro (rfl | rfl) <;> decide

theorem namedPieces_append (ts us : List (List Char)) :
    namedPieces (ts ++ us) = namedPieces ts ++ namedPieces us := List.filter_append ..

theorem ArePieces.areNames (h : ArePieces ts) : AreNames (namedPieces ts) := by
  refine ⟨h.named, fun t ht => ?_⟩
  have hidle := (List.mem_filter.1 ht).2
  rw [Bool.not_eq_true', ← Bool.not_eq_true, isIdle_ofText, not_or] at hidle
  exact hidle

theorem areNames_nil : AreNames [] :=
  ⟨fun _ ht => absurd ht List.not_mem_nil, fun _ ht => absurd ht List.not_mem_nil⟩

/-- Plain text without slashes and number signs is written in a URL as it is. -/
theorem encodeBytes_ofText {t : List Char} (h : ∀ c ∈ t, c ∈ Url.plainChars ∧ c ≠ '/' ∧ c ≠ '#') :
    encodeBytes inSegment (ofText t) = t :=
  encode_of_plain fun c hc => by
    obtain ⟨hplain, hslash, hsharp⟩ := h c hc
    have hall := Url.of_mem_plainChars hplain
    exact ⟨hall.1, (hall.2.2.2.2.2 hslash hsharp).2⟩

end

namespace Site

variable {project : Project} {reach : Nat} {dir ts : List (List Char)} {text : List Char}

/-- The segments of pieces below a site. -/
def segs (σ : Site project reach) (dir : List (List Char)) : List (List Char) :=
  (σ.names ++ dir.map ofText).map (encodeBytes inSegment)

/-- The URL of pieces below a site, with a fragment. -/
def url (σ : Site project reach) (ts : List (List Char)) (fragment : Option (List Char)) : Url :=
  { Url.bareFile with location := .segments (σ.segs ts), fragment := fragment }

/-- The URL of the directory above a site, with a fragment. -/
def aboveUrl (σ : Site project reach) (fragment : Option (List Char)) : Url :=
  { Url.ofNames (σ.names.dropLast ++ [[]]) with fragment := fragment }

theorem segs_append (σ : Site project reach) (dir ts : List (List Char)) :
    σ.segs (dir ++ ts) = σ.segs dir ++ (ts.map ofText).map (encodeBytes inSegment) := by
  simp [segs]

theorem segs_append_of_plain (σ : Site project reach) (dir : List (List Char))
    (h : ∀ t ∈ ts, ∀ c ∈ t, c ∈ Url.plainChars ∧ c ≠ '/' ∧ c ≠ '#') :
    σ.segs (dir ++ ts) = σ.segs dir ++ ts := by
  have hsame : (ts.map ofText).map (encodeBytes inSegment) = ts := by
    rw [List.map_map]
    exact (List.map_congr_left fun t ht => encodeBytes_ofText (h t ht)).trans (List.map_id _)
  rw [segs_append, hsame]

theorem segs_dropLast (σ : Site project reach) (h : ts ≠ []) :
    σ.segs ts.dropLast = (σ.segs ts).dropLast := by
  obtain ⟨init, last, rfl⟩ := List.eq_nil_or_concat' ts |>.resolve_left h
  rw [List.dropLast_concat, segs_append]
  exact (List.dropLast_concat ..).symm

/-! ## Directories -/

theorem isDirectory_segs (σ : Site project reach) (h : AreNames dir) :
    Url.IsDirectory (σ.segs dir) := by
  have hname : ∀ n ∈ σ.names ++ dir.map ofText, n ≠ [] ∧ n ≠ here ∧ n ≠ above := by
    intro n hn
    rcases List.mem_append.1 hn with hn | hn
    · have hn := σ.named n hn
      exact ⟨ne_nil_of_isName hn, ne_here_of_isName hn, ne_above_of_isName hn⟩
    · obtain ⟨t, ht, rfl⟩ := List.mem_map.1 hn
      obtain ⟨hnil, hhere⟩ := h.2 t ht
      exact ⟨ofText_ne_nil hnil, ofText_ne_here hhere, ofText_ne_above (h.1 t ht).2⟩
  refine ⟨by simpa [segs] using fun h => absurd h σ.ne_nil, ?_, ?_⟩
  · unfold segs
    obtain ⟨n, ns, hns⟩ := List.exists_cons_of_ne_nil (σ.append_ne_nil (dir.map ofText))
    rw [hns]
    have hne := Url.encodeBytes_ne_nil (hname n (hns ▸ List.mem_cons_self)).1
    simpa using hne
  · intro s hs
    obtain ⟨n, hn, rfl⟩ := List.mem_map.1 hs
    obtain ⟨-, hhere, habove⟩ := hname n hn
    exact Url.isSegment_encodeBytes hhere habove

/-- A mark that stands in no name of a site and no piece stands in no segment. -/
theorem notMem_segs (σ : Site project reach) {c : Char} (hescape : inEscape c = false)
    (hmark : UInt8.ofNat c.toNat ∈ markBytes) (hdir : ∀ t ∈ dir, UInt8.ofNat c.toNat ∉ ofText t) :
    ∀ s ∈ σ.segs dir, c ∉ s := by
  intro s hs hc
  obtain ⟨n, hn, rfl⟩ := List.mem_map.1 hs
  have hb := mem_of_mem_encodeBytes hescape hc
  rcases List.mem_append.1 hn with hn | hn
  · exact σ.plain n hn _ hmark hb
  · obtain ⟨t, ht, rfl⟩ := List.mem_map.1 hn
    exact hdir t ht hb

theorem driveless_segs (σ : Site project reach) (h : ArePieces dir) :
    Url.Driveless (σ.segs dir) := by
  have hdir : ∀ c ∈ [':', '|'], ∀ t ∈ dir, UInt8.ofNat c.toNat ∉ ofText t := by
    intro c hc t ht
    have hall : ∀ c ∈ [':', '|'], c.toNat < 0x80 ∧ c ∉ Url.plainChars :=
      Text.forall_mem_of_all (by decide)
    exact h.notMem (hall c hc).1 (.inl (hall c hc).2) _ (List.mem_map_of_mem ht)
  intro s hs
  exact ⟨σ.notMem_segs (by decide) (by decide) (hdir ':' (by simp)) s hs,
    σ.notMem_segs (by decide) (by decide) (hdir '|' (by simp)) s hs⟩

/-- No star stands in front of what is put behind a directory without stars. -/
theorem star_notMem_segs (σ : Site project reach) (h : ∀ t ∈ dir, '*' ∉ t) :
    '*' ∉ Url.joinSegments (σ.segs dir) := by
  intro hmem
  obtain ⟨s, hs, hc⟩ := List.mem_flatMap.1 hmem
  rcases List.mem_cons.1 hc with hc | hc
  · cases hc
  · refine σ.notMem_segs (by decide) (by decide) (fun t ht hb => ?_) s hs hc
    exact h t ht ((Utf8.mem_encode_iff (c := '*') (by decide)).1 hb)

/-- A file in a directory below a site. -/
theorem liesIn_url (σ : Site project reach) (h : AreNames dir) {last : List Char}
    (hlast : ∀ c ∈ last, c ∈ Url.plainChars ∧ c ≠ '/' ∧ c ≠ '#') (hhere : last ≠ ['.'])
    (habove : last ≠ "..".toList) : (σ.url (dir ++ [last]) none).LiesIn (σ.segs dir) := by
  refine ⟨σ.isDirectory_segs h, last, Url.isSegment_of_plain hlast hhere habove, ?_, ?_⟩
  · exact Url.isNormalDriveLetter_of_driveless
      ⟨fun hc => Url.ne_of_plain (hlast _ hc).1 (by decide) rfl,
        fun hc => Url.ne_of_plain (hlast _ hc).1 (by decide) rfl⟩
  · unfold url
    rw [σ.segs_append_of_plain dir (by simpa using hlast)]
    rfl

/-! ## Texts behind directories -/

theorem ArePieces.dropLast_append_nil {ts : List (List Char)} (h : ArePieces ts) :
    ArePieces (ts.dropLast ++ [[]]) := by
  refine (h.of_subset (List.dropLast_subset ts)).append fun t ht => ?_
  rw [List.mem_singleton.1 ht]
  exact ⟨fun c hc => absurd hc List.not_mem_nil, by decide⟩

/-- **A plain text behind a directory** below the sites is read as the same pieces at all of them;
only at the sites themselves can it be the directory above. -/
theorem behind_cases (hdir : AreNames dir) (htext : Url.Descends text)
    (hroom : length dir + text.length + 2 ≤ reach) :
    (∃ ts, ArePieces ts ∧ length ts ≤ reach ∧ ∀ σ : Site project reach,
        Url.behind (σ.segs dir) text = σ.url ts (Url.fragmentPart? text)) ∨
      ∀ σ : Site project reach,
        Url.behind (σ.segs dir) text = σ.aboveUrl (Url.fragmentPart? text) := by
  by_cases hclimbs : Url.Climbs text
  swap
  · have htrail := fun t ht => (htext.mem_trailOf hclimbs (s := t) ht)
    refine .inl ⟨dir ++ Url.trailOf text, hdir.1.append fun t ht => ?_, ?_, fun σ => ?_⟩
    · exact ⟨fun c hc => ⟨((htrail t ht).1 c hc).1, ((htrail t ht).1 c hc).2.1⟩, (htrail t ht).2.2⟩
    · have hlength := Url.length_trailOf htext.chars
      rw [length_append]
      unfold length at hroom ⊢
      omega
    · unfold Url.behind Url.segmentsBehind url
      rw [if_neg hclimbs, σ.segs_append_of_plain dir fun t ht => (htrail t ht).1]
  have hdirs := fun t ht => htext.mem_dirs (s := t) ht
  have hsegs : ∀ σ : Site project reach, σ.segs (dir ++ Url.dirs text) =
      σ.segs dir ++ Url.dirs text := fun σ =>
    σ.segs_append_of_plain dir fun t ht => (hdirs t ht).1
  have hpieces : ArePieces (dir ++ Url.dirs text) := hdir.1.append fun t ht =>
    ⟨fun c hc => ⟨((hdirs t ht).1 c hc).1, ((hdirs t ht).1 c hc).2.1⟩, (hdirs t ht).2.2⟩
  by_cases hnone : dir ++ Url.dirs text = []
  · refine .inr fun σ => ?_
    obtain ⟨rfl, hempty⟩ := List.append_eq_nil_iff.1 hnone
    unfold Url.behind Url.segmentsBehind aboveUrl Url.ofNames segs
    rw [if_pos hclimbs, hempty]
    simp [encodeBytes]
  · refine .inl ⟨_, ArePieces.dropLast_append_nil hpieces, ?_, fun σ => ?_⟩
    · have hlength := Url.length_dirs htext.chars
      have hdrop := Url.length_joinSegments_sublist (List.dropLast_sublist (dir ++ Url.dirs text))
      have hboth := length_append dir (Url.dirs text)
      rw [length_append]
      unfold length at hroom hboth ⊢
      have hone : (Url.joinSegments [[]]).length = 1 := rfl
      omega
    · unfold Url.behind Url.segmentsBehind url
      rw [if_pos hclimbs, σ.segs_append_of_plain _ (by simp), σ.segs_dropLast hnone, hsegs]

/-! ## Paths -/

theorem slash_notMem (σ : Site project reach) (h : ArePieces ts) :
    ∀ n ∈ σ.names ++ ts.map ofText, slash ∉ n := by
  intro n hn
  rcases List.mem_append.1 hn with hn | hn
  · exact slash_notMem_of_isName (σ.named n hn)
  · exact h.slash_notMem n hn

theorem toFilePath?_url (σ : Site project reach) (h : ArePieces ts)
    (fragment : Option (List Char)) : (σ.url ts fragment).toFilePath? = some (σ.path ts) :=
  Url.toFilePath?_ofNames (σ.append_ne_nil _) (σ.mark_notMem_path h (by simp : ':' ∈ _))
    (σ.mark_notMem_path h (by simp : '|' ∈ _))

theorem filePath_url (σ : Site project reach) (h : ArePieces ts) (fragment : Option (List Char)) :
    NodeResolution.filePath (σ.url ts fragment) = .ok (σ.path ts) := by
  unfold NodeResolution.filePath
  rw [σ.toFilePath?_url h]

/-- The file URL of a path below a site is that of the pieces that name something. -/
theorem fileUrl_path (σ : Site project reach) (h : ArePieces ts) :
    NodeResolution.fileUrl (σ.path ts) = .ok (σ.url (namedPieces ts) none) := by
  have hkeep : σ.names.filter (fun n => !isIdle n) = σ.names :=
    List.filter_eq_self.2 fun n hn => by rw [isIdle_of_isName (σ.named n hn)]; rfl
  have hnames : (σ.path ts).names = σ.names ++ (namedPieces ts).map ofText := by
    unfold path FilePath.names
    rw [pieces_ofNames (σ.append_ne_nil _) (σ.slash_notMem h), List.filter_cons_of_neg (by decide),
      List.filter_append, hkeep, List.filter_map]
    rfl
  have hsegs : ((σ.path ts).names.map (encodeBytes inSegment)).isEmpty = false := by
    rw [hnames]
    simpa using fun hnil => absurd hnil σ.ne_nil
  unfold NodeResolution.fileUrl Url.ofFilePath?
  rw [if_pos (show (σ.path ts).isAbsolute = true from isAbsolute_ofNames _)]
  dsimp only
  rw [hsegs, hnames]
  rfl

theorem hasEscapedSeparator_url (σ : Site project reach) (h : ArePieces ts)
    (fragment : Option (List Char)) :
    NodeResolution.hasEscapedSeparator (σ.url ts fragment).path = false := by
  have hpath : (σ.url ts fragment).path = encodeBytes inNames (σ.path ts) := by
    unfold path
    rw [ofNames_of_ne_nil (σ.append_ne_nil _)]
    exact joinSegments_map_encodeBytes (σ.slash_notMem h)
  rw [hpath]
  exact NodeResolution.hasEscapedSeparator_encodeBytes
    (σ.mark_notMem_path h (by simp : '\\' ∈ _))

/-! ## The directory above -/

theorem dropLast_prefix (σ : Site project reach) : σ.names.dropLast <+: σ.names :=
  List.dropLast_prefix σ.names

/-- The path of the directory above a site. -/
def abovePath (σ : Site project reach) : FilePath := ofNames (σ.names.dropLast ++ [[]])

theorem mem_abovePath (σ : Site project reach) {b : UInt8} (h : b ∈ σ.abovePath) :
    b = slash ∨ ∃ n ∈ σ.names, b ∈ n := by
  refine (mem_ofNames h).imp id fun ⟨n, hn, hb⟩ => ?_
  rcases List.mem_append.1 hn with hn | hn
  · exact ⟨n, σ.dropLast_prefix.subset hn, hb⟩
  · rw [List.mem_singleton.1 hn] at hb
    cases hb

theorem mark_notMem_abovePath (σ : Site project reach) {b : UInt8} (hb : b ∈ markBytes) :
    b ∉ σ.abovePath := by
  intro hmem
  rcases σ.mem_abovePath hmem with rfl | ⟨n, hn, hbn⟩
  · exact absurd hb (by decide)
  · exact σ.plain n hn b hb hbn

theorem filePath_aboveUrl (σ : Site project reach) (fragment : Option (List Char)) :
    NodeResolution.filePath (σ.aboveUrl fragment) = .ok σ.abovePath := by
  have hpath : (σ.aboveUrl fragment).toFilePath? = some σ.abovePath :=
    Url.toFilePath?_ofNames (by simp) (σ.mark_notMem_abovePath (by decide))
      (σ.mark_notMem_abovePath (by decide))
  unfold NodeResolution.filePath
  rw [hpath]

theorem hasEscapedSeparator_aboveUrl (σ : Site project reach) (fragment : Option (List Char)) :
    NodeResolution.hasEscapedSeparator (σ.aboveUrl fragment).path = false := by
  have hslash : ∀ n ∈ σ.names.dropLast ++ [[]], slash ∉ n := by
    intro n hn
    rcases List.mem_append.1 hn with hn | hn
    · exact slash_notMem_of_isName (σ.named n (σ.dropLast_prefix.subset hn))
    · rw [List.mem_singleton.1 hn]
      exact List.not_mem_nil
  have hpath : (σ.aboveUrl fragment).path = encodeBytes inNames σ.abovePath := by
    unfold abovePath
    rw [ofNames_of_ne_nil (by simp)]
    exact joinSegments_map_encodeBytes hslash
  rw [hpath]
  exact NodeResolution.hasEscapedSeparator_encodeBytes (σ.mark_notMem_abovePath (by decide))

/-- Above a site there is a directory. -/
theorem stat_abovePath (σ : Site project reach) : σ.tree.stat σ.abovePath = .ok .directory := by
  have hroom : σ.abovePath.length < FileTree.maxPath := by
    have hsite := σ.room
    obtain ⟨init, last, hnames⟩ := List.eq_nil_or_concat' σ.names |>.resolve_left σ.ne_nil
    unfold abovePath
    rw [ofNames_of_ne_nil σ.ne_nil] at hsite
    rw [ofNames_of_ne_nil (by simp)]
    rw [hnames] at hsite ⊢
    simp at hsite ⊢
    omega
  obtain ⟨follow, hlocate⟩ := @FileTree.exists_locate_eq σ.tree σ.names.dropLast [[]] (by simp)
    (fun n hn => σ.named n (σ.dropLast_prefix.subset hn))
    (fun front hfront => σ.directories (hfront.trans σ.dropLast_prefix)) (by simp) (by simp) hroom
  have hdir := σ.directories σ.dropLast_prefix
  have hplace : σ.tree.locate σ.abovePath = .ok σ.names.dropLast := by
    refine hlocate.trans ?_
    show σ.tree.walkWith true follow σ.names.dropLast [here] = _
    rw [FileTree.walkWith, hdir]
    rfl
  unfold FileTree.stat
  rw [hplace]
  dsimp only
  rw [hdir]

end Site

end EsModules
