import EsModules.Proofs.Module.Ids
import EsModules.Proofs.Url.Origins

/-!
# Normalised ids

An id that gets a protocol still names its module.  A builtin module gets its canonical id.  A path
gets a URL that is written as a whole, with the characters that URIs reserve left as they are: the
path comes back unless it holds one of the two marks at which a URL ends its path.

* `Id.canonical?_eq_normalize`: builtin modules.
* `Id.IsPlainPath.toPath_normalize`: a path without the two marks comes back.
* `Id.IsPlainPath.notMem_of_toPath_normalize`: a path that comes back holds none of them.
* `Id.normalize_names`: what normalised ids name.
-/

namespace EsModules.Id

open PercentEncoding FilePath

variable {p s cs : List Char} {c : Char}

/-! ## Texts written as URIs -/

/-- The characters that a whole URI does not hold as they are. -/
def inUri (c : Char) : Bool := !isUriChar c

/-- What is written as a URI is written in the characters of a path, but for the slash and the marks
of queries and fragments. -/
theorem char_of_mem_encode (h : c ∈ encode inUri cs) :
    isPathChar c = true ∨ c ∈ ['/', '?', '#'] := by
  have hmarks : ∀ d ∈ "-_.!~*'();/?:@&=+$,#".toList, isPathChar d = true ∨ d ∈ ['/', '?', '#'] := by
    decide +kernel
  refine forall_mem_encodeBytes (P := fun d => isPathChar d = true ∨ d ∈ ['/', '?', '#'])
    (fun d _ hkept => ?_) (by decide) (by decide) _ c h
  rw [inUri, Bool.not_eq_false'] at hkept
  rcases Bool.or_eq_true_iff.1 hkept with hletter | hmark
  · exact .inl (isPathChar_of_isAlphanumeric hletter)
  · exact hmarks d (List.contains_iff_mem.1 hmark)

theorem decode_encode (cs : List Char) : decode (encode inUri cs) = ofText cs :=
  decode_encodeBytes_of_percent (by decide) _

/-- Text without the characters of paths that are not those of names is written in those of
names. -/
theorem isPathChar_of_mem_encode (hmarks : ∀ d ∈ ['/', '?', '#'], d ∉ cs)
    (h : c ∈ encode inUri cs) : isPathChar c = true := by
  refine (char_of_mem_encode h).resolve_right fun hmark => hmarks c hmark ?_
  have hall : ∀ d ∈ ['/', '?', '#'], d.toNat < 0x80 ∧ inEscape d = false := by decide
  exact mem_of_mem_encode (hall c hmark).1 (hall c hmark).2 h

/-- A path is written segment by segment. -/
theorem encode_joinSegments (segments : List (List Char)) :
    encode inUri (Url.joinSegments segments) =
      Url.joinSegments (segments.map (encode inUri)) := by
  induction segments with
  | nil => rfl
  | cons s segments ih =>
    have hslash : encode inUri ('/' :: (s ++ Url.joinSegments segments)) =
        '/' :: encode inUri (s ++ Url.joinSegments segments) :=
      encode_cons_of_lt inUri (by decide) (by decide) _
    have hcons : Url.joinSegments (s :: segments) = '/' :: (s ++ Url.joinSegments segments) := rfl
    rw [hcons, hslash, encode_append, ih]
    rfl

/-- The marks of queries and fragments stay where they are. -/
theorem splitPath_encode (cs : List Char) : (Url.splitPath (encode inUri cs)).1 =
    encode inUri (Url.splitPath cs).1 := by
  unfold Url.splitPath
  rw [List.span_eq_takeWhile_dropWhile, List.span_eq_takeWhile_dropWhile]
  refine takeWhile_encode_of (fun c hc => ?_) cs
  rw [Bool.and_eq_false_iff, bne_eq_false_iff_eq, bne_eq_false_iff_eq] at hc
  rcases hc with rfl | rfl <;> decide

/-! ## Paths -/

/-- A path gets the protocol of files, in front of it as it is written in a URI. -/
theorem IsPlainPath.normalize_eq (h : IsPlainPath p) (b : Builtins) :
    normalize b p = fileProtocol ++ encode inUri p := by
  obtain ⟨rest, hrest⟩ := List.head?_eq_some_iff.1 h.head?
  have hknown : knownProtocols.any (·.isPrefixOf p) = false := by
    rw [hrest]
    rfl
  have hslash : (b.contains p && !p.contains '/') = false := by
    simp [hrest]
  unfold normalize
  rw [hknown, if_neg Bool.false_ne_true, hslash, if_neg Bool.false_ne_true,
    normalize_eq_self (h.notMem (by simp))]
  rfl

/-- A segment without the marks of queries and fragments is written as a segment. -/
theorem IsPlainSegment.isSegment_encode (h : IsPlainSegment s) (hquestion : '?' ∉ s)
    (hsharp : '#' ∉ s) : Url.IsSegment (encode inUri s) where
  chars c hc := by
    refine isPathChar_of_mem_encode (fun d hd => ?_) hc
    simp only [List.mem_cons, List.not_mem_nil, or_false] at hd
    rcases hd with rfl | rfl | rfl
    · exact h.noMark '/' (by simp)
    · exact hquestion
    · exact hsharp
  notSingle := by
    refine Bool.eq_false_iff.2 fun hdot => h.ne_here (@ofText_injective s ['.'] ?_)
    rw [← decode_encode, Url.decode_of_isSingleDot hdot]
    rfl
  notDouble := by
    refine Bool.eq_false_iff.2 fun hdot => h.ne_above (@ofText_injective s ['.', '.'] ?_)
    rw [← decode_encode, Url.decode_of_isDoubleDot hdot]
    rfl

/-- The file URL with the segments of a path written as a URI. -/
def uriOf (segments : List (List Char)) : Url :=
  { Url.bareFile with location := .segments (segments.map (encode inUri)) }

theorem href_uriOf (segments : List (List Char)) :
    (uriOf segments).href = fileProtocol ++ encode inUri (segments.flatMap ('/' :: ·)) := by
  have happend := Url.href_eq_append (u := uriOf segments) rfl rfl
  have hpath : (uriOf segments).path = encode inUri (segments.flatMap ('/' :: ·)) :=
    (encode_joinSegments segments).symm
  rw [hpath] at happend
  exact happend.trans (congrArg _ (List.append_nil _))

variable {segments : List (List Char)}

theorem isPlainFile_uriOf (hne : segments ≠ []) (h : ∀ s ∈ segments, IsPlainSegment s)
    (hmarks : ∀ s ∈ segments, '?' ∉ s ∧ '#' ∉ s) : (uriOf segments).IsPlainFile := by
  refine ⟨rfl, rfl, ?_⟩
  obtain ⟨front, last, rfl⟩ := (List.eq_nil_or_concat' segments).resolve_left hne
  refine ⟨front.map (encode inUri), encode inUri last, by simp [uriOf], fun t ht => ?_, ?_⟩
  · have hmem : t ∈ (front ++ [last]).map (encode inUri) := by simpa using ht
    obtain ⟨s, hs, rfl⟩ := List.mem_map.1 hmem
    exact (h s hs).isSegment_encode (hmarks s hs).1 (hmarks s hs).2
  · cases front with
    | nil => simp
    | cons s front =>
      have hs : s ≠ [] := (h s List.mem_cons_self).ne_nil
      simpa using encode_ne_nil hs

theorem toFilePath?_uriOf (hne : segments ≠ []) (h : ∀ s ∈ segments, IsPlainSegment s) :
    (uriOf segments).toFilePath? = some (ofText (segments.flatMap ('/' :: ·))) := by
  have hplain : IsPlainPath (segments.flatMap ('/' :: ·)) := .segments hne h
  have hread : ((segments.map (encode inUri)).flatMap fun s => slash :: decode s) =
      ofText (segments.flatMap ('/' :: ·)) := by
    rw [List.flatMap_map]
    refine Eq.trans ?_ (ofText_joinSegments segments).symm
    exact List.flatMap_congr fun s _ => by rw [decode_encode]
  have hmark {c : Char} (hc : c ∈ ['\\', ':', '|']) (hlt : c.toNat < 0x80) :
      UInt8.ofNat c.toNat ∉ ofText (segments.flatMap ('/' :: ·)) :=
    fun hmem => hplain.notMem hc ((Utf8.mem_encode_iff hlt).1 hmem)
  have hkept : (!(segments.map (encode inUri)).isEmpty) = true := by simpa using hne
  have hsegs : (uriOf segments).segments = segments.map (encode inUri) := rfl
  unfold Url.toFilePath?
  rw [hsegs, hkept, hread, Url.closeDrive_eq_self (hmark (c := ':') (by simp) (by decide))
    (hmark (c := '|') (by simp) (by decide))]
  rfl

/-- **A path without the marks of queries and fragments** comes back. -/
theorem IsPlainPath.toPath_normalize (h : IsPlainPath p) (hquestion : '?' ∉ p) (hsharp : '#' ∉ p)
    (b : Builtins) : toPath (normalize b p) = .ok p := by
  have hback : 0x5C ∉ ofText p := fun hmem =>
    h.notMem (c := '\\') (by simp) ((Utf8.mem_encode_iff (by decide)).1 hmem)
  rw [h.normalize_eq]
  cases h with
  | root => decide +kernel
  | segments hne hsegments =>
    rename_i segments
    have hmarks : ∀ s ∈ segments, '?' ∉ s ∧ '#' ∉ s := by
      intro s hs
      have hsub : ∀ c ∈ s, c ∈ segments.flatMap ('/' :: ·) := fun c hc =>
        List.mem_flatMap.2 ⟨s, hs, List.mem_cons_of_mem _ hc⟩
      exact ⟨fun hmem => hquestion (hsub _ hmem), fun hmem => hsharp (hsub _ hmem)⟩
    rw [← href_uriOf, toPath_href (isPlainFile_uriOf hne hsegments hmarks) rfl rfl
      (toFilePath?_uriOf hne hsegments) hback]
    exact congrArg Except.ok (Utf8.decodeLossy_encode _)

/-! ## Paths with marks -/

/-- The pieces of what is written in front of the marks are written pieces of the path. -/
theorem exists_of_mem_pieces {t : List Char}
    (ht : t ∈ Text.splitWhere Url.isSlash (Url.splitPath (encode inUri p)).1) :
    ∃ q, t = encode inUri q ∧ ∀ c ∈ q, c ∈ p ∧ c ∉ ['/', '?', '#'] := by
  have hslash : ∀ c ∈ encode inUri (Url.splitPath p).1, Url.isSlash c = (c == '/') := by
    intro c hc
    have hback : c ≠ '\\' := by
      rintro rfl
      rcases char_of_mem_encode hc with hpath | hmark
      · exact absurd hpath (by decide)
      · exact absurd hmark (by decide)
    simp [Url.isSlash, hback]
  have hwritten : Text.splitWhere (· == '/') (encode inUri (Url.splitPath p).1) =
      (Text.splitWhere (· == '/') (Url.splitPath p).1).map (encode inUri) := by
    refine splitWhere_encode_of (fun c hc => ?_) _
    obtain rfl := beq_iff_eq.1 hc
    decide
  rw [splitPath_encode, Text.splitWhere_congr hslash, hwritten] at ht
  obtain ⟨q, hq, rfl⟩ := List.mem_map.1 ht
  refine ⟨q, rfl, fun c hc => ?_⟩
  obtain ⟨hmem, hcut⟩ := Text.of_mem_splitWhere hq hc
  unfold Url.splitPath at hmem
  rw [List.span_eq_takeWhile_dropWhile] at hmem
  have htest := List.mem_takeWhile_imp hmem
  rw [Bool.and_eq_true, bne_iff_ne, bne_iff_ne] at htest
  refine ⟨List.takeWhile_subset _ hmem, ?_⟩
  simp [htest.1, htest.2, beq_eq_false_iff_ne.1 hcut]

/-- The segments of the URL of a path are written pieces of it, too. -/
theorem IsPlainPath.exists_of_mem_segments (h : IsPlainPath p)
    (hs : s ∈ (Url.bareFile.withPath [[]] (encode inUri p)).segments) :
    ∃ q, s = encode inUri q ∧ ∀ c ∈ q, c ∈ p ∧ c ∉ ['/', '?', '#'] := by
  have hwritten : ∀ t ∈ Text.splitWhere Url.isSlash (Url.splitPath (encode inUri p)).1,
      encode inPath (Url.withoutBreaks t) = t := by
    intro t ht
    obtain ⟨q, rfl, hq⟩ := exists_of_mem_pieces ht
    have hchars : ∀ c ∈ encode inUri q, isPathChar c = true := fun c hc =>
      isPathChar_of_mem_encode (fun d hd hdq => (hq d hdq).2 hd) hc
    rw [Url.withoutBreaks_of_forall fun c hc => Url.isBreak_of_isPathChar (hchars c hc),
      encode_of_isPathChar hchars]
  have hdrive : ∀ t ∈ Text.splitWhere Url.isSlash (Url.splitPath (encode inUri p)).1,
      ':' ∉ t ∧ '|' ∉ t := by
    intro t ht
    obtain ⟨q, rfl, hq⟩ := exists_of_mem_pieces ht
    constructor <;> intro hmem
    · exact h.notMem (by simp) (hq _ (mem_of_mem_encode (by decide) (by decide) hmem)).1
    · exact h.notMem (by simp) (hq _ (mem_of_mem_encode (by decide) (by decide) hmem)).1
  rcases Url.mem_segments_withPath hwritten hdrive hs with rfl | hs
  · exact ⟨[], rfl, fun c hc => absurd hc List.not_mem_nil⟩
  · exact exists_of_mem_pieces hs

/-- The path of the URL of a path holds no mark. -/
theorem IsPlainPath.notMem_toFilePath? (h : IsPlainPath p) {path : FilePath}
    (hpath : (Url.bareFile.withPath [[]] (encode inUri p)).toFilePath? = some path)
    (hc : c ∈ ['?', '#']) : c ∉ path.display := by
  have hascii : ∀ d ∈ ['?', '#'], d.toNat < 0x80 ∧ d ≠ '\x00' ∧ UInt8.ofNat d.toNat ≠ slash ∧
      d ∈ ['/', '?', '#'] := by
    decide
  obtain ⟨hlt, hzero, hslash, hmark⟩ := hascii c hc
  unfold Url.toFilePath? at hpath
  obtain ⟨-, hpath⟩ := Option.ite_none_right_eq_some.1 hpath
  obtain rfl := Option.some.inj hpath
  intro hmem
  have hbyte := (Url.mem_closeDrive (Utf8.mem_of_mem_decodeLossy hlt hzero hmem)).resolve_right hslash
  obtain ⟨s, hs, hbyte⟩ := List.mem_flatMap.1 hbyte
  obtain ⟨q, rfl, hq⟩ := h.exists_of_mem_segments hs
  rw [decode_encode] at hbyte
  exact (hq c ((Utf8.mem_encode_iff hlt).1 ((List.mem_cons.1 hbyte).resolve_left hslash))).2 hmark

/-- The URL of a path, with query and fragment. -/
theorem IsPlainPath.parse_normalize (h : IsPlainPath p) (b : Builtins) :
    Url.parse (normalize b p) = .ok (Url.bareFile.withPath [[]] (encode inUri p)) := by
  rw [h.normalize_eq]
  obtain ⟨rest, rfl⟩ := List.head?_eq_some_iff.1 h.head?
  have hslash : encode inUri ('/' :: rest) = '/' :: encode inUri rest :=
    encode_cons_of_lt inUri (by decide) (by decide) rest
  have htrim : Url.trimEnd (encode inUri rest) = encode inUri rest := by
    refine Url.trimEnd_eq_self_iff.2 fun c hc hle => ?_
    rcases char_of_mem_encode (List.mem_of_getLast? hc) with hpath | hmark
    · simp only [isPathChar, Bool.and_eq_true, decide_eq_true_eq] at hpath
      exact absurd hpath.1.1.1.1 (Nat.not_lt.2 hle)
    · have hall : ∀ d ∈ ['/', '?', '#'], ¬ d ≤ ' ' := by decide
      exact hall c hmark hle
  have hparse := Url.parse_joinSegments [] (encode inUri rest)
  rw [htrim] at hparse
  rw [hslash]
  exact hparse

/-- **A path that comes back** has no mark of a query or a fragment. -/
theorem IsPlainPath.notMem_of_toPath_normalize (h : IsPlainPath p) {b : Builtins}
    (hpath : toPath (normalize b p) = .ok p) (hc : c ∈ ['?', '#']) : c ∉ p := by
  have hprotocol : fileProtocol.isPrefixOf (normalize b p) = true := by
    rw [h.normalize_eq]
    rfl
  unfold toPath at hpath
  rw [if_pos hprotocol, h.parse_normalize] at hpath
  dsimp only at hpath
  split at hpath
  · cases hpath
  · rename_i path hfile
    intro hmem
    rw [← Except.ok.inj hpath] at hmem
    obtain ⟨d, hd, hdc⟩ := List.mem_map.1 hmem
    have hsame : d = c := by
      split at hdc
      · subst hdc
        exact absurd hc (by decide)
      · exact hdc
    exact h.notMem_toFilePath? hfile hc (hsame ▸ hd)

/-! ## Ids -/

/-- A builtin module without a subpath becomes its canonical id. -/
theorem canonical?_eq_normalize {b : Builtins} {id : List Char}
    (hprotocol : ∀ protocol ∈ knownProtocols, ¬ protocol <+: id) (hbuiltin : b.contains id = true)
    (hslash : '/' ∉ id) : b.canonical? id = some (normalize b id) := by
  have hknown : knownProtocols.any (·.isPrefixOf id) = false := by
    rw [List.any_eq_false]
    exact fun protocol hmem h => hprotocol protocol hmem (List.isPrefixOf_iff_prefix.1 h)
  have hbare : Builtins.bareId id = id :=
    Builtins.bareId_eq_self (hprotocol _ List.mem_cons_self)
  have hnames : (b.contains id && !id.contains '/') = true := by
    simp [hbuiltin, hslash]
  unfold normalize Builtins.canonical?
  rw [hknown, if_neg Bool.false_ne_true, if_pos hnames, if_pos hbuiltin, hbare]

/-- **Normalised ids** name the same module.  The name of a builtin module becomes its canonical id.
A path comes back from the URL that it becomes exactly when it holds neither the mark of a query nor
that of a fragment, and its file URL is then that of the URL, whatever the working directory. -/
theorem normalize_names (b : Builtins) (id : List Char)
    (hprotocol : ∀ protocol ∈ knownProtocols, ¬ protocol <+: id) :
    (b.contains id = true → '/' ∉ id → b.canonical? id = some (normalize b id)) ∧
    (IsPlainPath id →
      (toPath (normalize b id) = .ok id ↔ '?' ∉ id ∧ '#' ∉ id) ∧
      (toPath (normalize b id) = .ok id →
        ∀ cwd, toFileUrl cwd (normalize b id) = toFileUrl cwd id)) := by
  refine ⟨canonical?_eq_normalize hprotocol, fun h =>
    ⟨⟨fun hpath => ?_, fun ⟨hquestion, hsharp⟩ => ?_⟩, fun hpath cwd => ?_⟩⟩
  · exact ⟨h.notMem_of_toPath_normalize hpath (by simp),
      h.notMem_of_toPath_normalize hpath (by simp)⟩
  · exact h.toPath_normalize hquestion hsharp b
  · obtain ⟨u, -, hurl⟩ := h.exists_urlOfPath
    rw [hurl _ hpath, hurl _ h.toPath_eq]

/-- A builtin module, and a path with characters that are escaped. -/
theorem normalize_names_escaped :
    let path := "/a b/100%".toList
    Builtins.node.canonical? "fs".toList = some (normalize Builtins.node "fs".toList) ∧
    toPath (normalize Builtins.node path) = .ok path ∧
    ∀ cwd, toFileUrl cwd (normalize Builtins.node path) = toFileUrl cwd path := by
  intro path
  have hplain : IsPlainPath path := by
    refine @IsPlainPath.segments [['a', ' ', 'b'], ['1', '0', '0', '%']] (by simp) fun s hs => ?_
    simp only [List.mem_cons, List.not_mem_nil, or_false] at hs
    rcases hs with rfl | rfl <;> exact ⟨by simp, by simp, by simp, by simp⟩
  obtain ⟨hbuiltin, -⟩ := normalize_names Builtins.node "fs".toList (by decide +kernel)
  obtain ⟨-, hpath⟩ := normalize_names Builtins.node path (by decide +kernel)
  obtain ⟨hback, hurl⟩ := hpath hplain
  have hcomes : toPath (normalize Builtins.node path) = .ok path :=
    hback.2 ⟨by decide +kernel, by decide +kernel⟩
  exact ⟨hbuiltin (by decide +kernel) (by decide), hcomes, hurl hcomes⟩

/-- A builtin module with a subpath becomes a file, and a path with the mark of a fragment loses
what stands behind it. -/
theorem normalize_subpath_fragment :
    let subpath := "fs/promises".toList
    let path := "/a#b".toList
    (∀ id ∈ [subpath, path], ∀ protocol ∈ knownProtocols, ¬ protocol <+: id) ∧
    Builtins.node.contains subpath = true ∧
    Builtins.node.canonical? subpath ≠ some (normalize Builtins.node subpath) ∧
    Builtins.node.contains path = false ∧ IsPlainPath path ∧
    toPath (normalize Builtins.node path) = .ok "/a".toList := by
  intro subpath path
  have hplain : IsPlainPath path := by
    refine @IsPlainPath.segments [['a', '#', 'b']] (by simp) fun s hs => ?_
    obtain rfl := List.mem_singleton.1 hs
    exact ⟨by simp, by simp, by simp, by simp⟩
  exact ⟨by decide +kernel, by decide +kernel, by decide +kernel, by decide +kernel, hplain,
    by decide +kernel⟩

end EsModules.Id
