import EsModules.FilePath
import EsModules.Proofs.Text.Utf8
import EsModules.Url.Segments

/-!
# Escapes in paths of URLs

A file name is written as a segment of a path byte by byte.  The segment has no character that
means something in a path, it is read back as the same bytes, and so it is none of the texts that
stand for the directory itself or for the one above.

* `PercentEncoding.isPathChar`: the characters that a path is written with.
* `PercentEncoding.encodeByte_cases`, `PercentEncoding.forall_mem_encodeBytes`: what is written for
  bytes.
* `PercentEncoding.decode_encodeBytes_of_percent`: written bytes are read back.
* `Url.IsSegment`: the segments that a URL has once it is read.
-/

namespace EsModules

namespace PercentEncoding

/-! ## Characters of a path -/

/-- The characters that a path is written with as they are: visible ones of ASCII that need no
escape and separate no segments. -/
def isPathChar (c : Char) : Bool :=
  ' ' < c && c.toNat < 0x7F && !inPath c && c != '/' && c != '\\'

theorem lt_of_isPathChar {c : Char} (h : isPathChar c = true) : c.toNat < 0x80 := by
  simp only [isPathChar, Bool.and_eq_true, decide_eq_true_eq] at h
  omega

theorem inPath_of_isPathChar {c : Char} (h : isPathChar c = true) : inPath c = false := by
  simp only [isPathChar, Bool.and_eq_true, Bool.not_eq_true'] at h
  exact h.1.1.2

theorem ne_of_isPathChar {c d : Char} (h : isPathChar c = true) (hd : isPathChar d = false) :
    c ≠ d := by
  rintro rfl
  rw [hd] at h
  cases h

theorem encode_cons_of_lt (escaped : Char → Bool) {c : Char} (h : c.toNat < 0x80)
    (hc : escaped c = false) (cs : List Char) :
    encode escaped (c :: cs) = c :: encode escaped cs := by
  have hbyte : (UInt8.ofNat c.toNat).toNat < 0x80 := by
    rw [UInt8.toNat_ofNat']
    omega
  have hone : encodeByte escaped (UInt8.ofNat c.toNat) = [c] := by
    unfold encodeByte
    rw [Utf8.ofNat_toNat_of_lt h, hc, decide_eq_true hbyte]
    rfl
  unfold encode encodeBytes
  rw [Utf8.encode_cons, Utf8.utf8EncodeChar_of_lt h, List.singleton_append, List.flatMap_cons, hone,
    List.singleton_append]

/-- Text in the characters of a path is written as it is. -/
theorem encode_of_isPathChar {cs : List Char} (h : ∀ c ∈ cs, isPathChar c = true) :
    encode inPath cs = cs := by
  induction cs with
  | nil => rfl
  | cons c cs ih =>
    have hc : isPathChar c = true := h c List.mem_cons_self
    rw [encode_cons_of_lt _ (lt_of_isPathChar hc) (inPath_of_isPathChar hc),
      ih fun d hd => h d (List.mem_cons_of_mem c hd)]

/-- What a path does not escape, told by the numbers of its characters and by its marks. -/
theorem inPath_eq_false_iff {c : Char} : inPath c = false ↔ 0x20 < c.toNat ∧ c.toNat ≠ 0x7F ∧
    c ∉ ['"', '<', '>', '\x60', '#', '?', '\x7b', '\x7d'] := by
  have hspace : c = ' ' ↔ c.toNat = 0x20 := Char.toNat_inj.symm
  have hquotes : " \"<>\x60".toList = [' ', '"', '<', '>', '\x60'] := rfl
  have hmarks : "#?\x7b\x7d".toList = ['#', '?', '\x7b', '\x7d'] := rfl
  unfold inPath inFragment inControls
  simp only [hquotes, hmarks, Bool.or_eq_false_iff, decide_eq_false_iff_not, beq_eq_false_iff_ne,
    List.contains_eq_mem, List.mem_cons, hspace]
  grind

theorem inPath_of_inSegment {c : Char} (h : inSegment c = false) : inPath c = false :=
  (Bool.or_eq_false_iff.1 h).1

/-- A path holds the characters of a name that need no escape as they are. -/
theorem isPathChar_of_inSegment {c : Char} (hlt : c.toNat < 0x80) (h : inSegment c = false) :
    isPathChar c = true := by
  obtain ⟨hvisible, hdelete, -⟩ := inPath_eq_false_iff.1 (inPath_of_inSegment h)
  have hspace : ' ' < c := hvisible
  have hforward : c ≠ '/' := by
    rintro rfl
    exact absurd h (by decide)
  have hback : c ≠ '\\' := by
    rintro rfl
    exact absurd h (by decide)
  have hlast : c.toNat < 0x7F := by omega
  simp [isPathChar, hspace, hlast, inPath_of_inSegment h, hforward, hback]

/-- Letters and digits stand in a path as they are. -/
theorem isPathChar_of_isAlphanumeric {c : Char} (h : Ascii.isAlphanumeric c = true) :
    isPathChar c = true := by
  have hcode : 0x30 ≤ c.toNat ∧ c.toNat ≤ 0x7A := by
    have hle : ∀ a b : Char, a ≤ b ↔ a.toNat ≤ b.toNat := fun _ _ => Iff.rfl
    simp only [Ascii.isAlphanumeric, Ascii.isLetter, Ascii.isDigit, Bool.or_eq_true,
      Bool.and_eq_true, decide_eq_true_eq, hle, Char.reduceToNat] at h
    omega
  have hmark : ∀ d ∈ ['"', '<', '>', '\x60', '#', '?', '\x7b', '\x7d', '/', '%', '\\'],
      c ≠ d := by
    have hmarks : ['"', '<', '>', '\x60', '#', '?', '\x7b', '\x7d', '/', '%', '\\'].all
        (fun d => !Ascii.isAlphanumeric d) = true := by
      decide
    rintro d hd rfl
    simpa [h] using List.all_eq_true.1 hmarks c hd
  have hpath : inPath c = false := by
    refine inPath_eq_false_iff.2 ⟨by omega, by omega, fun hc => ?_⟩
    exact hmark c (List.mem_append_left ['/', '%', '\\'] hc) rfl
  have hname : "/%\\".toList.contains c = false := by
    have hlist : "/%\\".toList = ['/', '%', '\\'] := rfl
    simp [hlist, hmark]
  refine isPathChar_of_inSegment (by omega) ?_
  unfold inSegment
  rw [hpath, hname]
  rfl

/-! ## Digits -/

/-- A hexadecimal digit of a value, in either case. -/
def IsDigitOf (n : Nat) (c : Char) : Prop :=
  c = Ascii.hexDigit n ∨ c = (Ascii.hexDigit n).toLower

/-- What holds of the digits of both cases holds of every digit. -/
theorem IsDigitOf.of_forall {n : Nat} {c : Char} {P : Nat → Char → Prop} (h : IsDigitOf n c)
    (hn : n < 16) (hall : ∀ m < 16, P m (Ascii.hexDigit m) ∧ P m (Ascii.hexDigit m).toLower) :
    P n c := by
  rcases h with rfl | rfl
  · exact (hall n hn).1
  · exact (hall n hn).2

theorem hexValue?_of_isDigitOf {n : Nat} {c : Char} (h : IsDigitOf n c) (hn : n < 16) :
    Ascii.hexValue? c = some n :=
  h.of_forall (P := fun m d => Ascii.hexValue? d = some m) hn (by decide)

/-- The digits of a byte are read as that byte. -/
theorem hexPair?_of_isDigitOf {b : UInt8} {x y : Char} (hx : IsDigitOf (b.toNat / 16) x)
    (hy : IsDigitOf (b.toNat % 16) y) : hexPair? x y = some b := by
  have hbyte : b.toNat < 256 := b.toNat_lt
  have hvalue : 16 * (b.toNat / 16) + b.toNat % 16 = b.toNat := by omega
  unfold hexPair?
  rw [hexValue?_of_isDigitOf hx (by omega), hexValue?_of_isDigitOf hy (by omega)]
  change some (UInt8.ofNat (16 * (b.toNat / 16) + b.toNat % 16)) = some b
  rw [hvalue, UInt8.ofNat_toNat]

/-- What holds of the percent sign and of the digits holds of all that an escape consists of. -/
theorem forall_mem_escape {P : Char → Prop} (hpercent : P '%')
    (hdigits : ∀ n < 16, P (Ascii.hexDigit n)) (b : UInt8) : ∀ c ∈ escape b, P c := by
  have hbyte : b.toNat < 256 := b.toNat_lt
  simp only [escape, List.forall_mem_cons]
  exact ⟨hpercent, hdigits _ (by omega), hdigits _ (by omega), by simp⟩

/-! ## Bytes -/

theorem toNat_ofNat_of_byte {b : UInt8} (h : b.toNat < 0x80) :
    (Char.ofNat b.toNat).toNat = b.toNat := by
  have hvalid : b.toNat.isValidChar := .inl (by omega)
  have hof : Char.ofNat b.toNat = Char.ofNatAux b.toNat hvalid := dif_pos hvalid
  rw [hof]
  rfl

/-- **A byte** is written as its escape, or as its character if that needs none. -/
theorem encodeByte_cases (escaped : Char → Bool) (b : UInt8) : encodeByte escaped b = escape b ∨
    ∃ c : Char, encodeByte escaped b = [c] ∧ c.toNat < 0x80 ∧ escaped c = false ∧
      UInt8.ofNat c.toNat = b := by
  unfold encodeByte
  split
  · rename_i h
    rw [Bool.and_eq_true, decide_eq_true_eq, Bool.not_eq_true'] at h
    have hcode := toNat_ofNat_of_byte h.1
    refine .inr ⟨Char.ofNat b.toNat, rfl, by omega, h.2, ?_⟩
    rw [hcode, UInt8.ofNat_toNat]
  · exact .inl rfl

/-- Two ways to write a byte agree if they agree about its character. -/
theorem encodeByte_congr {escaped escaped' : Char → Bool} {b : UInt8}
    (h : ∀ c : Char, c.toNat < 0x80 → UInt8.ofNat c.toNat = b → escaped c = escaped' c) :
    encodeByte escaped b = encodeByte escaped' b := by
  unfold encodeByte
  by_cases hb : b.toNat < 0x80
  · have hcode := toNat_ofNat_of_byte hb
    rw [h (Char.ofNat b.toNat) (by omega) (by rw [hcode, UInt8.ofNat_toNat])]
  · simp [hb]

/-- What holds of the characters that need no escape, and of those of escapes, holds of all that is
written. -/
theorem forall_mem_encodeBytes {escaped : Char → Bool} {P : Char → Prop}
    (hplain : ∀ c : Char, c.toNat < 0x80 → escaped c = false → P c) (hpercent : P '%')
    (hdigits : ∀ n < 16, P (Ascii.hexDigit n)) (bs : List UInt8) :
    ∀ c ∈ encodeBytes escaped bs, P c := by
  intro c hc
  obtain ⟨b, -, hmem⟩ := List.mem_flatMap.1 hc
  rcases encodeByte_cases escaped b with hescape | ⟨d, hd, hlt, hkept, -⟩
  · rw [hescape] at hmem
    exact forall_mem_escape hpercent hdigits b c hmem
  · rw [hd] at hmem
    exact List.mem_singleton.1 hmem ▸ hplain d hlt hkept

/-- A file name is written in the characters of a path. -/
theorem isPathChar_of_mem_encodeBytes {bs : List UInt8} :
    ∀ c ∈ encodeBytes inSegment bs, isPathChar c = true :=
  forall_mem_encodeBytes (fun _ => isPathChar_of_inSegment) (by decide) (by decide) bs

/-! ## Reading -/

theorem decodeWith_cons_of_ne (pair? : Char → Char → Option UInt8) {c : Char} (hc : c ≠ '%')
    (cs : List Char) :
    decodeWith pair? (c :: cs) = String.utf8EncodeChar c ++ decodeWith pair? cs := by
  rw [decodeWith.eq_def]
  split
  · rename_i heq
    cases heq
  · rename_i heq
    exact absurd (List.cons.inj heq).1 hc
  · rename_i heq
    obtain ⟨rfl, rfl⟩ := List.cons.inj heq
    rfl

theorem decodeWith_escape {pair? : Char → Char → Option UInt8} {x y : Char} {b : UInt8}
    (h : pair? x y = some b) (cs : List Char) :
    decodeWith pair? ('%' :: x :: y :: cs) = b :: decodeWith pair? cs := by
  rw [decodeWith, h]

theorem decode_encodeByte {escaped : Char → Bool} (hpercent : escaped '%' = true) (b : UInt8)
    (cs : List Char) : decode (encodeByte escaped b ++ cs) = b :: decode cs := by
  rcases encodeByte_cases escaped b with hescape | ⟨c, hc, hlt, hkept, hbyte⟩
  · rw [hescape]
    exact decodeWith_escape (hexPair?_of_isDigitOf (.inl rfl) (.inl rfl)) cs
  · have hne : c ≠ '%' := by
      rintro rfl
      rw [hpercent] at hkept
      cases hkept
    unfold decode
    rw [hc, List.singleton_append, decodeWith_cons_of_ne _ hne, Utf8.utf8EncodeChar_of_lt hlt,
      hbyte, List.singleton_append]

/-- **Written bytes** are read back wherever the percent sign is escaped. -/
theorem decode_encodeBytes_of_percent {escaped : Char → Bool} (hpercent : escaped '%' = true)
    (bs : List UInt8) : decode (encodeBytes escaped bs) = bs := by
  induction bs with
  | nil => rfl
  | cons b bs ih =>
    unfold encodeBytes at ih ⊢
    rw [List.flatMap_cons, decode_encodeByte hpercent, ih]

/-- **A written file name** is read back. -/
theorem decode_encodeBytes (bs : List UInt8) : decode (encodeBytes inSegment bs) = bs :=
  decode_encodeBytes_of_percent (by decide) bs

end PercentEncoding

/-! ## Segments -/

namespace Url

open PercentEncoding

/-- A segment as reading a path leaves it: in the characters of a path, and none of the texts that
stand for the directory itself or the one above. -/
structure IsSegment (s : List Char) : Prop where
  chars : ∀ c ∈ s, isPathChar c = true
  notSingle : isSingleDot s = false
  notDouble : isDoubleDot s = false

theorem isSegment_nil : IsSegment [] :=
  ⟨fun _ h => absurd h List.not_mem_nil, by decide, by decide⟩

/-- Whatever stands for the directory itself is read back as one dot. -/
theorem decode_of_isSingleDot {s : List Char} (h : isSingleDot s = true) :
    decode s = FilePath.here := by
  have hall : ∀ t ∈ ["." , "%2e", "%2E"].map String.toList, decode t = FilePath.here := by
    decide +kernel
  exact hall s (List.contains_iff_mem.1 h)

/-- Whatever stands for the directory above is read back as two dots. -/
theorem decode_of_isDoubleDot {s : List Char} (h : isDoubleDot s = true) :
    decode s = FilePath.above := by
  have hall : ∀ t ∈ ["..", "%2e%2e", "%2e%2E", "%2E%2e", "%2E%2E", "%2e.", "%2E.", ".%2e",
      ".%2E"].map String.toList, decode t = FilePath.above := by
    decide +kernel
  exact hall s (List.contains_iff_mem.1 h)

/-- A file name other than the two that paths reserve is written as a segment. -/
theorem isSegment_encodeBytes {name : FilePath} (hhere : name ≠ FilePath.here)
    (habove : name ≠ FilePath.above) : IsSegment (encodeBytes inSegment name) where
  chars := isPathChar_of_mem_encodeBytes
  notSingle := by
    refine Bool.eq_false_iff.2 fun h => hhere ?_
    rw [← decode_encodeBytes name, decode_of_isSingleDot h]
  notDouble := by
    refine Bool.eq_false_iff.2 fun h => habove ?_
    rw [← decode_encodeBytes name, decode_of_isDoubleDot h]

theorem encodeBytes_ne_nil {name : FilePath} (h : name ≠ []) : encodeBytes inSegment name ≠ [] := by
  intro hnil
  apply h
  rw [← decode_encodeBytes name, hnil]
  rfl

end Url

end EsModules
