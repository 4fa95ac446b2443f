import EsModules.Package.Map
import EsModules.Proofs.Text.Pieces
import EsModules.Proofs.Url.Escapes

/-!
# Spellings of package paths

A path may be written with any of its characters as the escapes of their bytes, in digits of either
case.  It is read back character by character, wherever the escapes stand and whatever stands beside
them.  While the separators are written as they are, so is each segment, and a forbidden one is
found in every spelling of the path.

* `PercentEncoding.Spells`: texts with some of their characters escaped.
* `PercentEncoding.Spells.decodeText_eq`: a spelling is read back.
* `PercentEncoding.Spells.map_decodeText_splitWhere`: a spelling is read back segment by segment.
* `PackageMap.spelling_hidesNothing`: no spelling hides a forbidden segment.
-/

namespace EsModules

namespace PercentEncoding

open Text Url

variable {cs es text escaped : List Char} {bs : List UInt8} {b : UInt8} {c x y : Char}

/-! ## Escapes -/

/-- The digits of a byte are read as that byte: none of them is a plus sign. -/
theorem signedPair?_of_isDigitOf (hx : IsDigitOf (b.toNat / 16) x)
    (hy : IsDigitOf (b.toNat % 16) y) : signedPair? x y = some b := by
  have hbyte : b.toNat < 256 := b.toNat_lt
  have hplus : (x == '+') = false :=
    hx.of_forall (P := fun _ d => (d == '+') = false) (by omega) (by decide)
  unfold signedPair?
  rw [hplus, if_neg Bool.false_ne_true, hexPair?_of_isDigitOf hx hy]

/-- The escapes of bytes, one behind the other. -/
inductive EscapesOf : List UInt8 → List Char → Prop
  /-- No bytes. -/
  | nil : EscapesOf [] []
  /-- A byte in front of others. -/
  | cons {b : UInt8} {bs : List UInt8} {x y : Char} {cs : List Char}
      (high : IsDigitOf (b.toNat / 16) x) (low : IsDigitOf (b.toNat % 16) y)
      (rest : EscapesOf bs cs) : EscapesOf (b :: bs) ('%' :: x :: y :: cs)

/-- Escapes are read as their bytes, whatever stands behind them. -/
theorem EscapesOf.decodeWith_append (h : EscapesOf bs es) (cs : List Char) :
    decodeWith signedPair? (es ++ cs) = bs ++ decodeWith signedPair? cs := by
  induction h with
  | nil => rfl
  | cons hhigh hlow _ ih =>
    simp only [List.cons_append]
    rw [decodeWith_escape (signedPair?_of_isDigitOf hhigh hlow), ih]

/-- Escapes separate no segments. -/
theorem EscapesOf.isSlash_of_mem (h : EscapesOf bs es) : ∀ c ∈ es, isSlash c = false := by
  induction h with
  | nil => simp
  | @cons b _ x y _ hhigh hlow _ ih =>
    have hbyte : b.toNat < 256 := b.toNat_lt
    have hx : isSlash x = false :=
      hhigh.of_forall (P := fun _ d => isSlash d = false) (by omega) (by decide)
    have hy : isSlash y = false :=
      hlow.of_forall (P := fun _ d => isSlash d = false) (by omega) (by decide)
    simp only [List.forall_mem_cons]
    exact ⟨by decide, hx, hy, ih⟩

/-! ## Texts with escapes -/

theorem decodeText_nil : decodeText [] = [] := rfl

/-- What is read as the bytes of a character is read as that character. -/
theorem decodeText_append_of_bytes
    (h : decodeWith signedPair? (es ++ cs) = String.utf8EncodeChar c ++ decodeWith signedPair? cs) :
    decodeText (es ++ cs) = c :: decodeText cs := by
  unfold decodeText Utf8.decodeLossy
  rw [h, Utf8.units_encodeChar]
  rfl

/-- A character other than the percent sign stands for itself. -/
theorem decodeText_cons (hc : c ≠ '%') (cs : List Char) :
    decodeText (c :: cs) = c :: decodeText cs := by
  have hbytes : decodeWith signedPair? ([c] ++ cs) =
      String.utf8EncodeChar c ++ decodeWith signedPair? cs := decodeWith_cons_of_ne _ hc cs
  exact decodeText_append_of_bytes hbytes

/-- The escapes of the bytes of a character stand for that character. -/
theorem EscapesOf.decodeText_append (h : EscapesOf (String.utf8EncodeChar c) es) (cs : List Char) :
    decodeText (es ++ cs) = c :: decodeText cs :=
  decodeText_append_of_bytes (h.decodeWith_append cs)

/-- Spellings of a text: some of its characters, listed as `escaped`, are written as the escapes of
their bytes, and the others as they are. -/
inductive Spells : (cs escaped text : List Char) → Prop
  /-- Nothing is written. -/
  | nil : Spells [] [] []
  /-- A character as it is. -/
  | plain {cs escaped text : List Char} (c : Char) (rest : Spells cs escaped text) :
      Spells (c :: cs) escaped (c :: text)
  /-- A character as escapes. -/
  | escape {es cs escaped text : List Char} {c : Char}
      (front : EscapesOf (String.utf8EncodeChar c) es) (rest : Spells cs escaped text) :
      Spells (es ++ cs) (c :: escaped) (c :: text)

namespace Spells

/-- A text spells itself. -/
theorem refl (text : List Char) : Spells text [] text := by
  induction text with
  | nil => exact .nil
  | cons c text ih => exact .plain c ih

/-- **A spelling** is read back. -/
theorem decodeText_eq (h : Spells cs escaped text) (hpercent : '%' ∉ text) :
    decodeText cs = text := by
  induction h with
  | nil => exact decodeText_nil
  | plain c _ ih =>
    obtain ⟨hne, hrest⟩ := List.ne_and_not_mem_of_not_mem_cons hpercent
    rw [decodeText_cons hne.symm, ih hrest]
  | escape hfront _ ih =>
    rw [hfront.decodeText_append, ih (List.not_mem_of_not_mem_cons hpercent)]

/-- What stands for a character that separates no segments belongs to the first segment of what
stands behind it. -/
theorem map_decodeText_splitWhere_append (hes : ∀ d ∈ es, isSlash d = false)
    (hc : isSlash c = false) (hread : ∀ p, decodeText (es ++ p) = c :: decodeText p)
    (hrest : (splitWhere isSlash cs).map decodeText = splitWhere isSlash text) :
    (splitWhere isSlash (es ++ cs)).map decodeText = splitWhere isSlash (c :: text) := by
  obtain ⟨p, ps, hps⟩ := List.exists_cons_of_ne_nil (splitWhere_ne_nil isSlash cs)
  have hone : ∀ d ∈ [c], isSlash d = false := by simpa using hc
  rw [hps, List.map_cons] at hrest
  have htext : splitWhere isSlash (c :: text) = (c :: decodeText p) :: ps.map decodeText :=
    splitWhere_append hone hrest.symm
  rw [splitWhere_append hes hps, List.map_cons, hread, htext]

/-- **The segments of a spelling** are read back as those of the text, unless a separator is
escaped. -/
theorem map_decodeText_splitWhere (h : Spells cs escaped text) (hpercent : '%' ∉ text)
    (hseparators : ∀ c ∈ escaped, isSlash c = false) :
    (splitWhere isSlash cs).map decodeText = splitWhere isSlash text := by
  induction h with
  | nil => rfl
  | plain c _ ih =>
    obtain ⟨hne, hrest⟩ := List.ne_and_not_mem_of_not_mem_cons hpercent
    -- a separator that is written as it is cuts the spelling where it cuts the text
    cases hc : isSlash c with
    | true =>
      rw [splitWhere_of_cut hc, splitWhere_of_cut hc, List.map_cons, decodeText_nil,
        ih hrest hseparators]
    | false =>
      have hone : ∀ d ∈ [c], isSlash d = false := by simpa using hc
      have hread : ∀ p, decodeText ([c] ++ p) = c :: decodeText p := decodeText_cons hne.symm
      exact map_decodeText_splitWhere_append hone hc hread (ih hrest hseparators)
  | escape hfront _ ih =>
    obtain ⟨hc, hothers⟩ := List.forall_mem_cons.1 hseparators
    exact map_decodeText_splitWhere_append hfront.isSlash_of_mem hc hfront.decodeText_append
      (ih (List.not_mem_of_not_mem_cons hpercent) hothers)

end Spells

end PercentEncoding

/-! ## Forbidden segments -/

namespace PackageMap

open Text Url PercentEncoding

variable {written escaped text : List Char}

/-- Whether a spelling has a forbidden segment depends on the segments of the text only. -/
theorem hasForbiddenSegment_of_spells (h : Spells written escaped text) (hpercent : '%' ∉ text)
    (hseparators : ∀ c ∈ escaped, isSlash c = false) :
    hasForbiddenSegment written = (splitWhere isSlash text).any fun segment =>
      forbiddenSegments.contains (segment.map Char.toLower) := by
  rw [← h.map_decodeText_splitWhere hpercent hseparators, List.any_map]
  rfl

/-- **Escapes hide nothing.**  A text without percent signs is read back from each of its spellings,
and a path has a forbidden segment in each of those that escape no separator, or in none. -/
theorem spelling_hidesNothing (h : Spells written escaped text) (hpercent : '%' ∉ text) :
    decodeText written = text ∧ ((∀ c ∈ escaped, c ≠ '/' ∧ c ≠ '\\') →
      hasForbiddenSegment written = hasForbiddenSegment text) := by
  refine ⟨h.decodeText_eq hpercent, fun hseparators => ?_⟩
  have hslash : ∀ c ∈ escaped, isSlash c = false := by
    intro c hc
    obtain ⟨hforward, hback⟩ := hseparators c hc
    simp [isSlash, hforward, hback]
  have hplain : ∀ c ∈ ([] : List Char), isSlash c = false := by simp
  calc hasForbiddenSegment written
      = (splitWhere isSlash text).any fun segment =>
          forbiddenSegments.contains (segment.map Char.toLower) :=
        hasForbiddenSegment_of_spells h hpercent hslash
    _ = hasForbiddenSegment text :=
        (hasForbiddenSegment_of_spells (.refl text) hpercent hplain).symm

/-- A character of two bytes, and two dots of which the last one is escaped. -/
theorem spelling_hidesNothing_dots :
    decodeText "%c3%A9/.%2e".toList = "é/..".toList ∧
      hasForbiddenSegment "%c3%A9/.%2e".toList = hasForbiddenSegment "é/..".toList ∧
      hasForbiddenSegment "é/..".toList = true := by
  have hletter : EscapesOf (String.utf8EncodeChar 'é') "%c3%A9".toList := by
    have hbytes : String.utf8EncodeChar 'é' = [0xC3, 0xA9] := by decide
    rw [hbytes]
    exact .cons (.inr rfl) (.inl rfl) (.cons (.inl rfl) (.inl rfl) .nil)
  have hdot : EscapesOf (String.utf8EncodeChar '.') "%2e".toList := by
    have hbytes : String.utf8EncodeChar '.' = [0x2E] := by decide
    rw [hbytes]
    exact .cons (.inl rfl) (.inr rfl) .nil
  have hspells : Spells "%c3%A9/.%2e".toList "é.".toList "é/..".toList :=
    .escape hletter (.plain '/' (.plain '.' (.escape hdot .nil)))
  have hescaped : ∀ c ∈ "é.".toList, c ≠ '/' ∧ c ≠ '\\' := by simp
  obtain ⟨hread, hforbidden⟩ := spelling_hidesNothing hspells (by decide)
  exact ⟨hread, hforbidden hescaped, by decide⟩

/-- An escaped separator joins the segments beside it. -/
example : hasForbiddenSegment "..%2Fa".toList = false ∧ hasForbiddenSegment "../a".toList = true := by
  decide

end PackageMap

end EsModules
