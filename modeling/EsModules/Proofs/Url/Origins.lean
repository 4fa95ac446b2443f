import EsModules.Proofs.Url.Behind

/-!
# Where segments come from

Reading the pieces of a path makes no text of its own: each segment that comes out stood already, is
empty, or is one of the pieces.  This holds whatever the dots among them lead to, so it tells what a
path cannot hold without following them.

* `Url.mem_of_mem_addSegment`, `Url.exists_addSegment_eq`: one piece.
* `Url.mem_of_mem_addPieces`: all pieces.
* `Url.mem_segments_withPath`: a whole path.
-/

namespace EsModules.Url

open PercentEncoding

variable {front segs : List (List Char)} {s t : List Char}

/-! ## One piece -/

theorem mem_of_mem_openLast (h : s ∈ openLast segs) : s ∈ segs ∨ s = [] := by
  unfold openLast at h
  split at h
  · exact .inl h
  · simpa using h

theorem mem_of_mem_clearLast {isFile : Bool} (h : s ∈ clearLast isFile segs) :
    s ∈ segs ∨ s = [] := by
  unfold clearLast at h
  split at h
  · cases h
  · split at h
    · exact .inl h
    · exact (List.mem_append.1 h).imp (List.dropLast_subset segs ·) List.mem_singleton.1

theorem dropEmptyLast_subset (segs : List (List Char)) : dropEmptyLast segs ⊆ segs := by
  intro s h
  unfold dropEmptyLast at h
  split at h
  · rename_i before front hsegs
    split at h
    · exact h
    · rw [← List.mem_reverse, hsegs]
      exact List.mem_cons_of_mem _ (List.mem_reverse.1 h)
  · exact h

theorem exists_openLast_eq (segs : List (List Char)) : ∃ front, openLast segs = front ++ [[]] := by
  unfold openLast
  split
  · rename_i hlast
    obtain ⟨front, rfl⟩ := List.getLast?_eq_some_iff.1 (beq_iff_eq.1 hlast)
    exact ⟨front, rfl⟩
  · exact ⟨segs, rfl⟩

/-- A text that is no drive letter is added behind the empty segment at the end whether or not that
is the only one. -/
theorem addSegment_concat (ht : isDriveLetter t = false) (front : List (List Char)) (slash : Bool) :
    addSegment true (front ++ [[]]) t slash =
      if isDoubleDot t then
        let shorter := clearLast true (dropEmptyLast (front ++ [[]]))
        if slash then openLast shorter else shorter
      else if isSingleDot t then openLast (front ++ [[]])
      else front ++ t :: if slash then [[]] else [] := by
  by_cases hfront : front = []
  · subst hfront
    unfold addSegment
    dsimp only
    rw [ht]
    cases slash <;> simp [isNormalDriveLetter, extendLast]
  · rw [addSegment_of_append hfront (List.cons_ne_nil _ _), extendLast_append]
    cases slash <;> simp

/-- Each segment stood already, is empty, or is what is added. -/
theorem mem_of_mem_addSegment (ht : isDriveLetter t = false) {slash : Bool}
    (h : s ∈ addSegment true (front ++ [[]]) t slash) : s ∈ front ∨ s = [] ∨ s = t := by
  have hstood : s ∈ front ++ [[]] ∨ s = [] → s ∈ front ∨ s = [] ∨ s = t := by
    simp only [List.mem_append, List.mem_singleton]
    rintro ((hs | hs) | hs)
    · exact .inl hs
    · exact .inr (.inl hs)
    · exact .inr (.inl hs)
  have hshorter : s ∈ clearLast true (dropEmptyLast (front ++ [[]])) → s ∈ front ++ [[]] ∨ s = [] :=
    fun hs => (mem_of_mem_clearLast hs).imp_left (dropEmptyLast_subset _ ·)
  rw [addSegment_concat ht] at h
  split at h
  · dsimp only at h
    split at h
    · exact hstood ((mem_of_mem_openLast h).elim hshorter .inr)
    · exact hstood (hshorter h)
  · split at h
    · exact hstood (mem_of_mem_openLast h)
    · rcases List.mem_append.1 h with hs | hs
      · exact .inl hs
      · rcases List.mem_cons.1 hs with hs | hs
        · exact .inr (.inr hs)
        · split at hs
          · exact .inr (.inl (List.mem_singleton.1 hs))
          · cases hs

/-- Behind a slash the last segment is empty. -/
theorem exists_addSegment_eq (ht : isDriveLetter t = false) (front : List (List Char)) :
    ∃ front', addSegment true (front ++ [[]]) t true = front' ++ [[]] := by
  rw [addSegment_concat ht]
  split
  · exact exists_openLast_eq _
  · split
    · exact exists_openLast_eq _
    · exact ⟨front ++ [t], by simp⟩

/-- A piece that is written as it is and holds no mark of a drive is added as it is. -/
theorem addPiece_of_written {piece : List Char}
    (hwritten : encode inPath (withoutBreaks piece) = piece) (hdrive : ':' ∉ piece ∧ '|' ∉ piece)
    (segs : List (List Char)) (slash : Bool) :
    addPiece true segs piece slash = addSegment true segs piece slash := by
  unfold addPiece
  rw [brokenDrive?_of_driveless hdrive, ite_self]
  dsimp only
  rw [hwritten]

/-! ## All pieces -/

/-- **Where segments come from**: each of them stood already, is empty, or is one of the pieces, as
long as these are written as they are and hold no mark of a drive. -/
theorem mem_of_mem_addPieces {pieces : List (List Char)}
    (hwritten : ∀ p ∈ pieces, encode inPath (withoutBreaks p) = p)
    (hdrive : ∀ p ∈ pieces, ':' ∉ p ∧ '|' ∉ p) (h : s ∈ addPieces true (front ++ [[]]) pieces) :
    s ∈ front ∨ s = [] ∨ s ∈ pieces := by
  induction pieces generalizing front with
  | nil => simpa [addPieces] using h
  | cons p ps ih =>
    have hp := hdrive p List.mem_cons_self
    have hletter := isDriveLetter_of_driveless hp
    have hadded : ∀ slash, s ∈ addSegment true (front ++ [[]]) p slash →
        s ∈ front ∨ s = [] ∨ s ∈ p :: ps := by
      intro slash hs
      exact (mem_of_mem_addSegment hletter hs).imp_right (.imp_right fun heq =>
        List.mem_cons.2 (.inl heq))
    rw [addPieces, addPiece_of_written (hwritten p List.mem_cons_self) hp] at h
    by_cases hps : ps = []
    · subst hps
      exact hadded _ h
    · have hslash : (!ps.isEmpty) = true := by simpa using hps
      obtain ⟨front', hfront'⟩ := exists_addSegment_eq hletter front
      rw [hslash, hfront'] at h
      rcases ih (fun q hq => hwritten q (List.mem_cons_of_mem p hq))
        (fun q hq => hdrive q (List.mem_cons_of_mem p hq)) h with hs | hs | hs
      · exact hadded true (hfront' ▸ List.mem_append_left _ hs)
      · exact .inr (.inl hs)
      · exact .inr (.inr (List.mem_cons_of_mem p hs))

theorem mem_of_mem_dropEmptyFront (h : s ∈ dropEmptyFront segs) : s = [] ∨ s ∈ segs := by
  unfold dropEmptyFront at h
  split at h
  · exact .inl (List.mem_singleton.1 h)
  · exact .inr (List.dropWhile_subset _ h)

/-- The segments of a file URL whose path is read from the root. -/
theorem mem_segments_withPath {text : List Char}
    (hwritten : ∀ p ∈ Text.splitWhere isSlash (splitPath text).1,
      encode inPath (withoutBreaks p) = p)
    (hdrive : ∀ p ∈ Text.splitWhere isSlash (splitPath text).1, ':' ∉ p ∧ '|' ∉ p)
    (h : s ∈ (bareFile.withPath [[]] text).segments) :
    s = [] ∨ s ∈ Text.splitWhere isSlash (splitPath text).1 := by
  obtain ⟨query, fragment, hsame⟩ := exists_withPath_eq bareFile [[]] text
  rw [hsame] at h
  have hread : s ∈ dropEmptyFront (addPieces true ([] ++ [[]])
      (Text.splitWhere isSlash (splitPath text).1)) := h
  refine (mem_of_mem_dropEmptyFront hread).elim .inl fun hs => ?_
  exact (mem_of_mem_addPieces hwritten hdrive hs).resolve_left List.not_mem_nil

end EsModules.Url
