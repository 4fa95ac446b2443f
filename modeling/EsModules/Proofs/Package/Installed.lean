import EsModules.Package.Subpath
import EsModules.Proofs.Url.Below
import EsModules.Proofs.Url.FilePath

/-!
# Places in installed packages

A location behind a package directory is taken apart into that directory and a subpath.  As a path
it has the names of both, so its file URL is that of the subpath below the directory, and the
manifest lies beside it.

* `FilePath.names_join`, `FilePath.pieces_ofText`: names of paths put together, and of texts.
* `InstalledPath.exists_rest_of_ofLocation?`: a location is its package directory and its subpath.
* `InstalledPath.liesIn_of_manifest`, `InstalledPath.ofFilePath?_eq_below`: the URLs of the manifest
  and of the location.
-/

namespace EsModules

namespace FilePath

theorem pieces_append_slash (p q : FilePath) : pieces (p ++ slash :: q) = p.pieces ++ q.pieces :=
  Text.splitWhere_append_cut rfl p q

theorem names_append_slash (p q : FilePath) : names (p ++ slash :: q) = p.names ++ q.names := by
  unfold names
  rw [pieces_append_slash, List.filter_append]

/-- A relative path put behind another one has the names of both. -/
theorem names_join {p q : FilePath} (hq : q.isAbsolute = false) :
    (p.join q).names = p.names ++ q.names := by
  unfold join
  rw [hq, if_neg Bool.false_ne_true]
  split
  · rename_i hend
    rw [Bool.or_eq_true, List.isEmpty_iff, beq_iff_eq, List.getLast?_eq_some_iff] at hend
    rcases hend with rfl | ⟨front, rfl⟩
    · rfl
    · rw [List.append_assoc, List.singleton_append, names_append_slash, names_append_slash front []]
      simp [names, pieces, Text.splitWhere, isIdle]
  · exact names_append_slash p q

/-- The pieces of a path are those of the text that spells it. -/
theorem pieces_ofText (cs : List Char) :
    (ofText cs).pieces = (Text.splitWhere (· == '/') cs).map ofText := by
  have hcut : ∀ c : Char, (c == '/') = true →
      ∃ b, String.utf8EncodeChar c = [b] ∧ (b == slash) = true := by
    intro c hc
    obtain rfl : c = '/' := by simpa using hc
    exact ⟨slash, by decide, rfl⟩
  have hkeep : ∀ c : Char, (c == '/') = false → ∀ b ∈ String.utf8EncodeChar c,
      (b == slash) = false := by
    intro c hc b hb
    by_contra hslash
    obtain rfl : b = slash := by simpa using hslash
    have hencode : slash ∈ Utf8.encode [c] := by
      rwa [Utf8.encode_cons, Utf8.encode_nil, List.append_nil]
    have hmem : '/' ∈ [c] := (Utf8.mem_encode_iff (by decide)).1 hencode
    rw [← List.mem_singleton.1 hmem] at hc
    simp at hc
  exact Text.splitWhere_written hcut hkeep cs

theorem pieces_ofText_of_notMem {cs : List Char} (h : '\\' ∉ cs) :
    (ofText cs).pieces = (Text.splitWhere Url.isSlash cs).map ofText := by
  rw [pieces_ofText]
  refine congrArg _ (Text.splitWhere_congr fun c hc => ?_)
  have hback : c ≠ '\\' := ne_of_mem_of_not_mem hc h
  simp [Url.isSlash, hback]

end FilePath

namespace InstalledPath

open FilePath PercentEncoding

/-- A name in front of a slash, and what follows it. -/
theorem append_of_splitName? {text name remainder : List Char}
    (h : splitName? text = some (name, some remainder)) : name ++ '/' :: remainder = text := by
  unfold splitName? at h
  split at h
  · rename_i behind
    split at h
    · cases h
    · rename_i scope rest hscope
      obtain ⟨-, heq⟩ := Option.ite_none_left_eq_some.1 h
      split at heq
      · cases (Prod.mk.inj (Option.some.inj heq)).2
      · rename_i package more hpackage
        cases heq
        have hbehind := Text.append_of_splitOnce hscope
        have hrest := Text.append_of_splitOnce hpackage
        rw [← hbehind, ← hrest]
        simp
  · split at h
    · cases h
    · rename_i hsplit
      cases h
      exact Text.append_of_splitOnce hsplit

/-- The subpath of a location is what stands behind the directory of its package. -/
theorem exists_rest_of_ofLocation? {location : List Char} {p : InstalledPath}
    (h : ofLocation? location = some p) (hne : p.subpath ≠ []) :
    ∃ rest above, p.subpath = '.' :: '/' :: rest ∧ location = p.packageDir ++ '/' :: rest ∧
      p.packageDir = above ++ '/' :: p.name := by
  unfold ofLocation? at h
  obtain ⟨⟨before, behind⟩, hsplit, h⟩ := Option.bind_eq_some_iff.1 h
  obtain ⟨⟨name, remainder⟩, hname, h⟩ := Option.bind_eq_some_iff.1 h
  obtain ⟨-, heq⟩ := Option.ite_none_left_eq_some.1 h
  obtain rfl := Option.some.inj heq
  have hlocation := Text.append_of_splitLast hsplit
  cases remainder with
  | none => exact absurd rfl hne
  | some rest =>
    cases rest with
    | nil => exact absurd rfl hne
    | cons c cs =>
      have hbehind := append_of_splitName? hname
      refine ⟨c :: cs, before ++ "/node_modules".toList, by simp, ?_, ?_⟩
      · rw [← hlocation, ← hbehind]
        simp [packageDir]
      · have hmarker : marker = "/node_modules".toList ++ ['/'] := by decide
        simp only [packageDir, hmarker, List.append_assoc, List.singleton_append]

variable {p : InstalledPath} {above rest : List Char} {ns : List FilePath}

/-- The names of the place of a file are those of the directory of its package and the pieces of
its subpath. -/
theorem exists_dirs (habove : p.packageDir = above ++ '/' :: p.name)
    (hplace : ofText (p.packageDir ++ '/' :: rest) = ofNames ns)
    (hnames : ∀ n ∈ ns, isName n = true) :
    ∃ dirs, dirs ≠ [] ∧ (ofText p.packageDir).names = dirs ∧ ns = dirs ++ (ofText rest).pieces := by
  have hne : ns ≠ [] := by
    rintro rfl
    have hlength := congrArg List.length hplace
    rw [habove, ofText_append_slash, ofText_append_slash] at hlength
    simp [ofNames] at hlength
    omega
  have hpieces : [] :: ns = (ofText p.packageDir).pieces ++ (ofText rest).pieces := by
    rw [← pieces_ofNames hne fun n hn => slash_notMem_of_isName (hnames n hn), ← hplace,
      ofText_append_slash, pieces_append_slash]
  have hdir : (ofText p.packageDir).pieces = (ofText above).pieces ++ (ofText p.name).pieces := by
    rw [habove, ofText_append_slash, pieces_append_slash]
  obtain ⟨first, dirs, hdirs⟩ :=
    List.exists_cons_of_ne_nil (Text.splitWhere_ne_nil (· == slash) (ofText p.packageDir))
  have hcons : (ofText p.packageDir).pieces = first :: dirs := hdirs
  rw [hcons, List.cons_append] at hpieces
  obtain ⟨rfl, rfl⟩ := List.cons.inj hpieces
  refine ⟨dirs, ?_, ?_, rfl⟩
  · rintro rfl
    have hlength := congrArg List.length (hdir.symm.trans hcons)
    have habovePos := List.length_pos_iff.2 (Text.splitWhere_ne_nil (· == slash) (ofText above))
    have hnamePos := List.length_pos_iff.2 (Text.splitWhere_ne_nil (· == slash) (ofText p.name))
    rw [List.length_append] at hlength
    unfold pieces at hlength
    simp at hlength
    omega
  · have hkeep : dirs.filter (fun n => !isIdle n) = dirs := by
      refine List.filter_eq_self.2 fun n hn => ?_
      rw [isIdle_of_isName (hnames n (List.mem_append_left _ hn))]
      rfl
    unfold names
    rw [hcons, List.filter_cons_of_neg (by decide), hkeep]

/-- The manifest of a package lies in the directory of the package. -/
theorem liesIn_of_manifest {dirs : List FilePath} (hne : dirs ≠ [])
    (hdirs : (ofText p.packageDir).names = dirs) (hnames : ∀ n ∈ dirs, isName n = true) {m : Url}
    (hm : Url.ofFilePath? ((ofText p.packageDir).join Manifest.fileName) = some m) :
    m.LiesIn (dirs.map (encodeBytes inSegment)) := by
  obtain ⟨-, heq⟩ := Option.ite_none_right_eq_some.1 hm
  obtain rfl := Option.some.inj heq
  have hsegment : ∀ n ∈ dirs, Url.IsSegment (encodeBytes inSegment n) := by
    intro n hn
    have hname := hnames n hn
    exact Url.isSegment_encodeBytes (ne_here_of_isName hname) (ne_above_of_isName hname)
  refine ⟨⟨by simpa using hne, ?_, ?_⟩, "package.json".toList, ?_, by decide, ?_⟩
  · obtain ⟨n, dirs, rfl⟩ := List.exists_cons_of_ne_nil hne
    have hn := Url.encodeBytes_ne_nil (ne_nil_of_isName (hnames n List.mem_cons_self))
    simpa using hn
  · intro s hs
    obtain ⟨n, hn, rfl⟩ := List.mem_map.1 hs
    exact hsegment n hn
  · have hfile : encodeBytes inSegment Manifest.fileName = "package.json".toList := by
      decide
    exact hfile ▸ Url.isSegment_encodeBytes (by decide) (by decide +kernel)
  · have hfile : Manifest.fileName.names.map (encodeBytes inSegment) = ["package.json".toList] := by
      decide
    have hrelative : Manifest.fileName.isAbsolute = false := by decide
    rw [names_join hrelative, hdirs, List.map_append, hfile]
    simp

/-- The file URL of a place in a package is that of its subpath below the directory. -/
theorem ofFilePath?_eq_below {dirs : List FilePath}
    (hplace : ofText (p.packageDir ++ '/' :: rest) = ofNames (dirs ++ (ofText rest).pieces))
    (hnames : ∀ n ∈ dirs ++ (ofText rest).pieces, isName n = true) (hne : dirs ≠ [])
    (hpercent : '%' ∉ rest) (hslash : '\\' ∉ rest) :
    Url.ofFilePath? (ofText (p.packageDir ++ '/' :: rest)) =
      some (Url.below (dirs.map (encodeBytes inSegment)) rest) := by
  have hwritten : (ofText rest).pieces.map (encodeBytes inSegment) =
      Text.splitWhere Url.isSlash (encode inPath rest) := by
    rw [pieces_ofText_of_notMem hslash, splitWhere_encode, List.map_map]
    refine List.map_congr_left fun q hq => (encode_inPath_eq ?_ ?_).symm
    · exact fun hmem => hpercent (Text.of_mem_splitWhere hq hmem).1
    · exact fun c hc => (Text.of_mem_splitWhere hq hc).2
  rw [hplace, Url.ofFilePath?_ofNames (by simp [hne]) hnames]
  unfold Url.ofNames Url.below
  rw [List.map_append, hwritten]

end InstalledPath

end EsModules
