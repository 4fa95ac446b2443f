import EsModules.Proofs.Text.Pieces
import EsModules.Proofs.Url.Escapes
import EsModules.Url.Parser

/-!
# Reading paths of file URLs

Segments that were read once are read again as they are.  Behind segments that stand already, a
path is read without touching them as long as no piece of it stands for the directory above.

* `Url.splitWhere_joinSegments`: the pieces of written segments are these segments.
* `Url.addPieces_append`: segments are added one behind the other.
* `Url.exists_append_of_addPieces`: segments that stand stay when nothing leads above.
-/

namespace EsModules.Url

open PercentEncoding

theorem joinSegments_append (a b : List (List Char)) :
    joinSegments (a ++ b) = joinSegments a ++ joinSegments b := List.flatMap_append

theorem joinSegments_singleton (s : List Char) : joinSegments [s] = '/' :: s := by
  simp [joinSegments]

/-- The pieces of a path in the scheme of files stand between slashes of both kinds. -/
theorem pathPieces_file (text : List Char) :
    pathPieces bareFile.scheme text = Text.splitWhere isSlash text := rfl

theorem isSlash_of_isPathChar {c : Char} (h : isPathChar c = true) : isSlash c = false := by
  simp only [isPathChar, Bool.and_eq_true, bne_iff_ne, ne_eq] at h
  simp [isSlash, h.1.2, h.2]

/-- The pieces of segments with a text behind them are these segments and the pieces of the
text. -/
theorem splitWhere_joinSegments {front : List (List Char)} (h : ∀ s ∈ front, IsSegment s)
    (text : List Char) :
    Text.splitWhere isSlash (joinSegments front ++ '/' :: text) =
      [] :: (front ++ Text.splitWhere isSlash text) := by
  have hchars : ∀ s ∈ front, ∀ c ∈ s, isSlash c = false := fun s hs c hc =>
    isSlash_of_isPathChar ((h s hs).chars c hc)
  exact Text.splitWhere_flatMap rfl hchars text

/-! ## Breaks -/

theorem isBreak_of_isPathChar {c : Char} (h : isPathChar c = true) : isBreak c = false := by
  have htab : c ≠ '\t' := ne_of_isPathChar h (by decide)
  have hline : c ≠ '\n' := ne_of_isPathChar h (by decide)
  have hreturn : c ≠ '\r' := ne_of_isPathChar h (by decide)
  simp [isBreak, Ascii.isLineEnd, htab, hline, hreturn]

theorem withoutBreaks_of_forall {text : List Char} (h : ∀ c ∈ text, isBreak c = false) :
    withoutBreaks text = text := by
  refine List.filter_eq_self.2 fun c hc => ?_
  rw [h c hc]
  rfl

/-- The text of a segment is written as it is, without breaks. -/
theorem IsSegment.encode {s : List Char} (h : IsSegment s) :
    PercentEncoding.encode inPath (withoutBreaks s) = s := by
  rw [withoutBreaks_of_forall fun c hc => isBreak_of_isPathChar (h.chars c hc),
    encode_of_isPathChar h.chars]

/-! ## One segment more -/

/-- Two or more segments are not a single one. -/
theorem addSegment_of_append {front back : List (List Char)} (hfront : front ≠ [])
    (hback : back ≠ []) (t : List Char) (slash : Bool) :
    addSegment true (front ++ back) t slash =
      if isDoubleDot t then
        let shorter := clearLast true (dropEmptyLast (front ++ back))
        if slash then openLast shorter else shorter
      else if isSingleDot t then openLast (front ++ back)
      else
        let longer := extendLast (front ++ back) t
        if slash then longer ++ [[]] else longer := by
  obtain ⟨a, front, rfl⟩ := List.exists_cons_of_ne_nil hfront
  obtain ⟨b, back, rfl⟩ := List.exists_cons_of_ne_nil hback
  have hlist : ∃ y ys, a :: front ++ b :: back = a :: y :: ys := by
    cases front with
    | nil => exact ⟨b, back, rfl⟩
    | cons y front => exact ⟨y, front ++ b :: back, rfl⟩
  obtain ⟨y, ys, hlist⟩ := hlist
  rw [hlist]
  unfold addSegment
  have hdrive : (true && (a :: y :: ys == [[]]) && isDriveLetter t) = false := by simp
  dsimp only
  rw [hdrive]
  rfl

/-- Behind two or more segments a drive letter is no special piece. -/
theorem addPiece_of_append {front back : List (List Char)} (hfront : front ≠ [])
    (hback : back ≠ []) (piece : List Char) (slash : Bool) :
    addPiece true (front ++ back) piece slash =
      addSegment true (front ++ back) (encode inPath (withoutBreaks piece)) slash := by
  have hlong : (front ++ back == [[]]) = false := by
    obtain ⟨a, front, rfl⟩ := List.exists_cons_of_ne_nil hfront
    obtain ⟨b, back, rfl⟩ := List.exists_cons_of_ne_nil hback
    cases front <;> simp
  unfold addPiece
  rw [hlong]
  rfl

theorem extendLast_append {front : List (List Char)} (s t : List Char) :
    extendLast (front ++ [s]) t = front ++ [s ++ t] := by
  unfold extendLast
  rw [List.getLast?_concat, List.dropLast_concat]

/-- A segment takes the place of the empty one at the end. -/
theorem addPiece_segment {front : List (List Char)} (hfront : front ≠ []) {s : List Char}
    (h : IsSegment s) (slash : Bool) :
    addPiece true (front ++ [[]]) s slash = front ++ s :: (if slash then [[]] else []) := by
  rw [addPiece_of_append hfront (List.cons_ne_nil _ _), h.encode,
    addSegment_of_append hfront (List.cons_ne_nil _ _), h.notDouble, h.notSingle,
    extendLast_append]
  cases slash <;> simp

/-- Segments in front of further pieces are added one behind the other. -/
theorem addPieces_append {front segs pieces : List (List Char)} (hfront : front ≠ [])
    (hsegs : ∀ s ∈ segs, IsSegment s) (hpieces : pieces ≠ []) :
    addPieces true (front ++ [[]]) (segs ++ pieces) =
      addPieces true (front ++ segs ++ [[]]) pieces := by
  induction segs generalizing front with
  | nil => rw [List.nil_append, List.append_nil]
  | cons s segs ih =>
    have hmore : (!(segs ++ pieces).isEmpty) = true := by
      cases segs with
      | nil => simpa using hpieces
      | cons _ _ => rfl
    have hstep : front ++ s :: [[]] = (front ++ [s]) ++ [[]] := by simp
    rw [List.cons_append, addPieces, hmore, addPiece_segment hfront (hsegs s List.mem_cons_self),
      if_pos rfl, hstep, ih (by simp) fun t ht => hsegs t (List.mem_cons_of_mem s ht)]
    simp

/-- Reading segments behind an empty one gives these segments. -/
theorem addPieces_segments {front segs : List (List Char)} {last : List Char} (hfront : front ≠ [])
    (hsegs : ∀ s ∈ segs, IsSegment s) (hlast : IsSegment last) :
    addPieces true (front ++ [[]]) (segs ++ [last]) = front ++ (segs ++ [last]) := by
  rw [addPieces_append hfront hsegs (List.cons_ne_nil _ _), addPieces,
    addPiece_segment (by simp [hfront]) hlast]
  simp [addPieces]

/-! ## Segments that stay -/

theorem openLast_append {front back : List (List Char)} (hback : back ≠ []) :
    ∃ back', openLast (front ++ back) = front ++ back' ∧ back' ≠ [] := by
  unfold openLast
  split
  · exact ⟨back, rfl, hback⟩
  · exact ⟨back ++ [[]], List.append_assoc .., by simp⟩

/-- A piece that does not stand for the directory above leaves the segments in front of the last
as they are. -/
theorem exists_append_of_addPiece {front back : List (List Char)} (hfront : front ≠ [])
    (hback : back ≠ []) {piece : List Char}
    (hpiece : isDoubleDot (encode inPath (withoutBreaks piece)) = false) (slash : Bool) :
    ∃ back', addPiece true (front ++ back) piece slash = front ++ back' ∧ back' ≠ [] := by
  rw [addPiece_of_append hfront hback, addSegment_of_append hfront hback, hpiece]
  simp only [Bool.false_eq_true, if_false]
  split
  · exact openLast_append hback
  · have hsplit : back = back.dropLast ++ [back.getLast hback] :=
      (List.dropLast_concat_getLast hback).symm
    rw [hsplit, ← List.append_assoc, extendLast_append]
    cases slash with
    | true => exact ⟨_, by rw [if_pos rfl, List.append_assoc, List.append_assoc], by simp⟩
    | false => exact ⟨_, by rw [if_neg Bool.false_ne_true, List.append_assoc], by simp⟩

/-- **Segments that stand stay** while pieces are read none of which stands for the directory
above. -/
theorem exists_append_of_addPieces {front back pieces : List (List Char)} (hfront : front ≠ [])
    (hback : back ≠ [])
    (hpieces : ∀ p ∈ pieces, isDoubleDot (encode inPath (withoutBreaks p)) = false) :
    ∃ back', addPieces true (front ++ back) pieces = front ++ back' ∧ back' ≠ [] := by
  induction pieces generalizing back with
  | nil => exact ⟨back, rfl, hback⟩
  | cons p ps ih =>
    obtain ⟨back', hstep, hback'⟩ :=
      exists_append_of_addPiece hfront hback (hpieces p List.mem_cons_self) (!ps.isEmpty)
    rw [addPieces, hstep]
    exact ih hback' fun q hq => hpieces q (List.mem_cons_of_mem p hq)

end EsModules.Url
