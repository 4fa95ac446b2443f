import EsModules.Proofs.FileTree.AbsolutePath
import EsModules.Proofs.Url.PlainFile

/-!
# File URLs of paths without dots

The file URL of a path put together from names is plain, its text is read back, and its path is
the path again.  An escape in it stands for a byte of the path.

* `Url.toFilePath?_ofNames`: the path of the URL is the path that it was made from.
* `PercentEncoding.exists_mem_of_escape`: the byte of an escape.
-/

namespace EsModules

namespace PercentEncoding

/-- What a path escapes that is written as a whole: all that its names escape; slashes stay. -/
def inNames (c : Char) : Bool := inSegment c && c != '/'

theorem encodeByte_inNames {b : UInt8} (hb : b ≠ FilePath.slash) :
    encodeByte inNames b = encodeByte inSegment b := by
  refine encodeByte_congr fun c _ hbyte => ?_
  have hslash : c ≠ '/' := by
    rintro rfl
    exact hb hbyte.symm
  simp [inNames, hslash]

/-- Names written one by one are the path put together from them, written as a whole. -/
theorem joinSegments_map_encodeBytes {ns : List FilePath}
    (h : ∀ n ∈ ns, FilePath.slash ∉ n) :
    Url.joinSegments (ns.map (encodeBytes inSegment)) =
      encodeBytes inNames (ns.flatMap (FilePath.slash :: ·)) := by
  induction ns with
  | nil => rfl
  | cons n ns ih =>
    have hname : encodeBytes inNames n = encodeBytes inSegment n := by
      unfold encodeBytes
      refine List.flatMap_congr fun b hb => encodeByte_inNames ?_
      exact ne_of_mem_of_not_mem hb (h n List.mem_cons_self)
    have hslash : encodeByte inNames FilePath.slash = ['/'] := by decide
    have hrest := ih fun m hm => h m (List.mem_cons_of_mem n hm)
    unfold Url.joinSegments at hrest ⊢
    unfold encodeBytes at hrest hname ⊢
    rw [List.map_cons, List.flatMap_cons, hrest, List.flatMap_cons, List.flatMap_append,
      List.flatMap_cons, hslash, hname]
    rfl

/-- An escape in a written path stands for one of its bytes, which is written as that escape. -/
theorem exists_mem_of_escape {bs : List UInt8} {x y : Char} {rest : List Char}
    (h : '%' :: x :: y :: rest <:+ encodeBytes inNames bs) :
    ∃ b ∈ bs, encodeByte inNames b = escape b ∧ escape b = ['%', x, y] := by
  induction bs with
  | nil => cases List.suffix_nil.1 h
  | cons b bs ih =>
    have hlater : '%' :: x :: y :: rest <:+ encodeBytes inNames bs →
        ∃ d ∈ b :: bs, encodeByte inNames d = escape d ∧ escape d = ['%', x, y] := fun hsuffix => by
      obtain ⟨d, hmem, hd⟩ := ih hsuffix
      exact ⟨d, List.mem_cons_of_mem b hmem, hd⟩
    have hcons : encodeBytes inNames (b :: bs) = encodeByte inNames b ++ encodeBytes inNames bs :=
      List.flatMap_cons
    rw [hcons] at h
    rcases encodeByte_cases inNames b with hescape | ⟨c, hc, -, hkept, -⟩
    · have hdigits : ∀ n < 16, Ascii.hexDigit n ≠ '%' := by decide
      have hbyte := b.toNat_lt
      have hhigh : Ascii.hexDigit (b.toNat / 16) ≠ '%' := hdigits _ (by omega)
      have hlow : Ascii.hexDigit (b.toNat % 16) ≠ '%' := hdigits _ (by omega)
      rw [hescape, escape, List.cons_append, List.cons_append, List.cons_append,
        List.nil_append] at h
      rcases List.suffix_cons_iff.1 h with heq | h
      · obtain ⟨-, heq⟩ := List.cons.inj heq
        obtain ⟨hx, heq⟩ := List.cons.inj heq
        obtain ⟨hy, -⟩ := List.cons.inj heq
        exact ⟨b, List.mem_cons_self, hescape, by rw [escape, hx, hy]⟩
      · rcases List.suffix_cons_iff.1 h with heq | h
        · exact absurd (List.cons.inj heq).1.symm hhigh
        · rcases List.suffix_cons_iff.1 h with heq | h
          · exact absurd (List.cons.inj heq).1.symm hlow
          · exact hlater h
    · have hpercent : c ≠ '%' := by
        rintro rfl
        exact absurd hkept (by decide)
      rw [hc, List.singleton_append] at h
      rcases List.suffix_cons_iff.1 h with heq | h
      · exact absurd (List.cons.inj heq).1.symm hpercent
      · exact hlater h

end PercentEncoding

namespace Url

open PercentEncoding FilePath

variable {ns : List FilePath}

/-- The file URL of a path put together from names. -/
def ofNames (ns : List FilePath) : Url :=
  { bareFile with location := .segments (ns.map (encodeBytes inSegment)) }

theorem ofFilePath?_ofPieces (hne : ns ≠ []) (h : ∀ n ∈ ns, IsPiece n) :
    ofFilePath? (FilePath.ofNames ns) = some (ofNames ns) := by
  have hsegs : (ns.map (encodeBytes inSegment)).isEmpty = false := by simpa using hne
  unfold ofFilePath?
  rw [if_pos (isAbsolute_ofNames ns), names_ofPieces h]
  dsimp only
  rw [hsegs]
  rfl

theorem ofFilePath?_ofNames (hne : ns ≠ []) (h : ∀ n ∈ ns, isName n = true) :
    ofFilePath? (FilePath.ofNames ns) = some (ofNames ns) :=
  ofFilePath?_ofPieces hne fun n hn => isPiece_of_isName (h n hn)

/-- A path without colons and bars ends in no drive letter. -/
theorem closeDrive_eq_self {p : FilePath} (hcolon : 0x3A ∉ p) (hbar : 0x7C ∉ p) :
    closeDrive p = p := by
  unfold closeDrive
  split
  · rename_i mark letter c rest hend
    have hmark : mark ∈ p := by
      rw [← List.mem_reverse, hend]
      exact List.mem_cons_self
    have hmarks : (mark == 0x3A || mark == 0x7C) = false := by
      have hc : mark ≠ 0x3A := ne_of_mem_of_not_mem hmark hcolon
      have hb : mark ≠ 0x7C := ne_of_mem_of_not_mem hmark hbar
      simp [hc, hb]
    rw [hmarks]
    rfl
  · rfl

theorem mem_closeDrive {p : FilePath} {b : UInt8} (h : b ∈ closeDrive p) : b ∈ p ∨ b = slash := by
  unfold closeDrive at h
  split at h
  · split at h
    · exact (List.mem_append.1 h).imp_right List.mem_singleton.1
    · exact .inl h
  · exact .inl h

/-- **The path of a file URL** is the path that it was made from. -/
theorem toFilePath?_ofNames (hne : ns ≠ []) (hcolon : 0x3A ∉ FilePath.ofNames ns)
    (hbar : 0x7C ∉ FilePath.ofNames ns) :
    (ofNames ns).toFilePath? = some (FilePath.ofNames ns) := by
  have hsegs : (ofNames ns).segments = ns.map (encodeBytes inSegment) := rfl
  have hkept : (!(ns.map (encodeBytes inSegment)).isEmpty) = true := by simpa using hne
  have hread : ((ns.map (encodeBytes inSegment)).flatMap fun s => slash :: decode s) =
      FilePath.ofNames ns := by
    rw [ofNames_of_ne_nil hne, List.flatMap_map]
    exact List.flatMap_congr fun n _ => by rw [decode_encodeBytes]
  unfold toFilePath?
  rw [hsegs, hkept, hread, closeDrive_eq_self hcolon hbar]
  rfl

theorem isPlainFile_ofNames (hne : ns ≠ []) (h : ∀ n ∈ ns, isName n = true) :
    (ofNames ns).IsPlainFile := by
  refine isPlainFile_ofFilePath? (ofFilePath?_ofNames hne h) ?_
  rw [names_ofNames h]
  exact fun hmem => ne_above_of_isName (h _ hmem) rfl

end Url

end EsModules
