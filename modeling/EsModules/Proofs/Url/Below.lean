import EsModules.Proofs.Url.PlainFile

/-!
# URLs below a directory

A text without query, fragment, breaks and dots is read behind a directory of files piece by piece:
each piece becomes a segment, written with the escapes of a path.  Written text is left alone when
it is read again, so a text may be written as a whole or part by part.

* `PercentEncoding.encode_encode`: written text is written as it is.
* `PercentEncoding.splitWhere_encode_of`: what is written has the pieces of the text.
* `Url.IsPathText`, `Url.below`: texts of that kind, and their URLs behind a directory.
* `Url.join_below`, `Url.parse_below`: the two ways such a text is read.
-/

namespace EsModules

namespace PercentEncoding

variable {escaped : Char → Bool} {cs : List Char} {d : Char}

/-! ## Written characters -/

theorem encode_append (escaped : Char → Bool) (as bs : List Char) :
    encode escaped (as ++ bs) = encode escaped as ++ encode escaped bs := by
  simp [encode, encodeBytes]

theorem encode_eq_flatMap (escaped : Char → Bool) (cs : List Char) :
    encode escaped cs = cs.flatMap fun c => encode escaped [c] := by
  induction cs with
  | nil => rfl
  | cons c cs ih => rw [List.flatMap_cons, ← ih, ← encode_append, List.singleton_append]

theorem encode_ne_nil (h : cs ≠ []) : encode escaped cs ≠ [] := by
  obtain ⟨c, cs, rfl⟩ := List.exists_cons_of_ne_nil h
  have hbytes : String.utf8EncodeChar c ≠ [] := by
    rw [← List.length_pos_iff, String.length_utf8EncodeChar]
    exact c.utf8Size_pos
  obtain ⟨b, bs, hb⟩ := List.exists_cons_of_ne_nil hbytes
  have hbyte : encodeByte escaped b ≠ [] := by
    unfold encodeByte
    split <;> exact List.cons_ne_nil _ _
  simp [encode, encodeBytes, hb, hbyte]

/-- The characters that an escape consists of. -/
def inEscape (c : Char) : Bool := c == '%' || (Ascii.hexValue? c).isSome

/-- A character that no escape holds is written only for its own byte. -/
theorem eq_of_mem_encodeByte {b : UInt8} (hd : inEscape d = false)
    (h : d ∈ encodeByte escaped b) : b = UInt8.ofNat d.toNat := by
  rcases encodeByte_cases escaped b with hescape | ⟨c, hc, -, -, hbyte⟩
  · rw [hescape] at h
    have hchar : inEscape d = true :=
      forall_mem_escape (P := fun c => inEscape c = true) (by decide) (by decide) b d h
    rw [hd] at hchar
    cases hchar
  · rw [hc] at h
    rw [List.mem_singleton.1 h, hbyte]

theorem mem_of_mem_encodeBytes {bs : List UInt8} (hd : inEscape d = false)
    (h : d ∈ encodeBytes escaped bs) : UInt8.ofNat d.toNat ∈ bs := by
  obtain ⟨b, hb, hmem⟩ := List.mem_flatMap.1 h
  exact eq_of_mem_encodeByte hd hmem ▸ hb

/-- A character that no escape holds is written only where it stands. -/
theorem mem_of_mem_encode (hlt : d.toNat < 0x80) (hd : inEscape d = false)
    (h : d ∈ encode escaped cs) : d ∈ cs :=
  (Utf8.mem_encode_iff hlt).1 (mem_of_mem_encodeBytes hd h)

/-- What is written for a path needs no escape. -/
theorem plain_of_mem_encode (h : d ∈ encode inPath cs) : d.toNat < 0x80 ∧ inPath d = false :=
  forall_mem_encodeBytes (P := fun c => c.toNat < 0x80 ∧ inPath c = false)
    (fun _ hlt hkept => ⟨hlt, hkept⟩) (by decide) (by decide) _ d h

theorem encode_of_plain (h : ∀ c ∈ cs, c.toNat < 0x80 ∧ escaped c = false) :
    encode escaped cs = cs := by
  induction cs with
  | nil => rfl
  | cons c cs ih =>
    obtain ⟨hlt, hc⟩ := h c List.mem_cons_self
    rw [encode_cons_of_lt escaped hlt hc, ih fun d hd => h d (List.mem_cons_of_mem c hd)]

/-- **Written text** is written as it is. -/
theorem encode_encode (cs : List Char) : encode inPath (encode inPath cs) = encode inPath cs :=
  encode_of_plain fun _ h => plain_of_mem_encode h

/-- Written text has the pieces of the text where the characters between them are written as they
are, and for nothing else. -/
theorem splitWhere_encode_of {isCut : Char → Bool} (hcut : ∀ c, isCut c = true →
    c.toNat < 0x80 ∧ inEscape c = false ∧ escaped c = false) (cs : List Char) :
    Text.splitWhere isCut (encode escaped cs) =
      (Text.splitWhere isCut cs).map (encode escaped) := by
  have hone : ∀ c, isCut c = true → ∃ d, encode escaped [c] = [d] ∧ isCut d = true := by
    intro c hc
    obtain ⟨hlt, -, hkept⟩ := hcut c hc
    exact ⟨c, encode_cons_of_lt escaped hlt hkept [], hc⟩
  have hkeep : ∀ c, isCut c = false → ∀ d ∈ encode escaped [c], isCut d = false := by
    intro c hc d hd
    refine Bool.eq_false_iff.2 fun hdcut => ?_
    obtain ⟨hlt, hescape, -⟩ := hcut d hdcut
    rw [List.mem_singleton.1 (mem_of_mem_encode hlt hescape hd), hc] at hdcut
    cases hdcut
  have hmap : encode escaped = List.flatMap fun c => encode escaped [c] :=
    funext (encode_eq_flatMap escaped)
  rw [encode_eq_flatMap, Text.splitWhere_written hone hkeep, ← hmap]

/-- Written text is cut where the text is if the characters that end it are written as they are, and
for nothing else. -/
theorem takeWhile_encode_of {test : Char → Bool} (htest : ∀ c, test c = false →
    c.toNat < 0x80 ∧ inEscape c = false ∧ escaped c = false) (cs : List Char) :
    (encode escaped cs).takeWhile test = encode escaped (cs.takeWhile test) := by
  induction cs with
  | nil => rfl
  | cons c cs ih =>
    have hcons : encode escaped (c :: cs) = encode escaped [c] ++ encode escaped cs :=
      encode_append escaped [c] cs
    cases hc : test c with
    | true =>
      have hone : ∀ d ∈ encode escaped [c], test d = true := by
        intro d hd
        by_contra hend
        rw [Bool.not_eq_true] at hend
        obtain ⟨hlt, hescape, -⟩ := htest d hend
        rw [List.mem_singleton.1 (mem_of_mem_encode hlt hescape hd), hc] at hend
        cases hend
      rw [hcons, List.takeWhile_append_of_pos hone, ih, List.takeWhile_cons_of_pos hc,
        ← encode_append, List.singleton_append]
    | false =>
      have hneg : ¬ test c = true := by simp [hc]
      obtain ⟨hlt, -, hkept⟩ := htest c hc
      rw [encode_cons_of_lt escaped hlt hkept, List.takeWhile_cons_of_neg hneg,
        List.takeWhile_cons_of_neg hneg]
      rfl

/-- The pieces of what is written in a path. -/
theorem splitWhere_encode (cs : List Char) :
    Text.splitWhere Url.isSlash (encode inPath cs) =
      (Text.splitWhere Url.isSlash cs).map (encode inPath) := by
  refine splitWhere_encode_of (fun c hc => ?_) cs
  simp only [Url.isSlash, Bool.or_eq_true, beq_iff_eq] at hc
  rcases hc with rfl | rfl <;> decide

/-- A text without slashes and percent signs is written in a path as it is written as a name. -/
theorem encode_inPath_eq (hpercent : '%' ∉ cs) (hslash : ∀ c ∈ cs, Url.isSlash c = false) :
    encode inPath cs = encodeBytes inSegment (FilePath.ofText cs) := by
  have hsame : ∀ c : Char, c ∈ cs → inPath c = inSegment c := by
    intro c hc
    have hcut := hslash c hc
    simp only [Url.isSlash, Bool.or_eq_false_iff, beq_eq_false_iff_ne] at hcut
    have hpercent : c ≠ '%' := ne_of_mem_of_not_mem hc hpercent
    have hmarks : "/%\\".toList = ['/', '%', '\\'] := rfl
    simp [inSegment, hmarks, hcut, hpercent]
  refine List.flatMap_congr fun b hb => encodeByte_congr fun c hlt hbyte => hsame c ?_
  exact (Utf8.mem_encode_iff hlt).1 (hbyte ▸ hb)

end PercentEncoding

namespace Url

open PercentEncoding

variable {front : List (List Char)} {text : List Char}

/-! ## Texts that are paths -/

/-- A text that is read as a path with all its characters: it has no break, no query and no
fragment, ends in no control or space, and all its pieces are segments once they are written. -/
structure IsPathText (text : List Char) : Prop where
  chars : ∀ c ∈ text, isBreak c = false ∧ c ≠ '?' ∧ c ≠ '#'
  last : trimEnd text = text
  segments : ∀ s ∈ Text.splitWhere isSlash (encode inPath text), IsSegment s

theorem IsPathText.splitPath (h : IsPathText text) : Url.splitPath text = (text, []) := by
  have hplain : ∀ c ∈ text, (c != '?' && c != '#') = true := by
    intro c hc
    obtain ⟨-, hquestion, hsharp⟩ := h.chars c hc
    simp [hquestion, hsharp]
  unfold Url.splitPath
  rw [List.span_eq_takeWhile_dropWhile, List.takeWhile_eq_self_iff.2 hplain,
    List.dropWhile_eq_nil_iff.2 hplain]

/-- The file URL of a text behind the directory with given segments. -/
def below (front : List (List Char)) (text : List Char) : Url :=
  { bareFile with
    location := .segments (front ++ Text.splitWhere isSlash (encode inPath text)) }

theorem addPiece_written (hfront : front ≠ []) {piece : List Char}
    (h : IsSegment (encode inPath (withoutBreaks piece))) (slash : Bool) :
    addPiece true (front ++ [[]]) piece slash =
      front ++ encode inPath (withoutBreaks piece) :: (if slash then [[]] else []) := by
  rw [addPiece_of_append hfront (List.cons_ne_nil _ _),
    addSegment_of_append hfront (List.cons_ne_nil _ _), h.notDouble, h.notSingle,
    extendLast_append]
  cases slash <;> simp

/-- Pieces that are segments once they are written are added one behind the other. -/
theorem addPieces_written (hfront : front ≠ []) {pieces : List (List Char)} (hne : pieces ≠ [])
    (h : ∀ p ∈ pieces, IsSegment (encode inPath (withoutBreaks p))) :
    addPieces true (front ++ [[]]) pieces =
      front ++ pieces.map fun p => encode inPath (withoutBreaks p) := by
  induction pieces generalizing front with
  | nil => exact absurd rfl hne
  | cons p ps ih =>
    rw [addPieces, addPiece_written hfront (h p List.mem_cons_self)]
    cases ps with
    | nil => rfl
    | cons q qs =>
      have hlonger : front ++ [encode inPath (withoutBreaks p)] ≠ [] := by simp
      have hrest := ih hlonger (List.cons_ne_nil q qs) fun s hs => h s (List.mem_cons_of_mem p hs)
      rw [List.append_assoc] at hrest
      rw [List.map_cons]
      simpa using hrest

theorem IsPathText.addPieces (h : IsPathText text) (hfront : front ≠ []) :
    Url.addPieces true (front ++ [[]]) (Text.splitWhere isSlash text) =
      front ++ Text.splitWhere isSlash (encode inPath text) := by
  have hbreaks : ∀ p ∈ Text.splitWhere isSlash text, withoutBreaks p = p := by
    intro p hp
    refine withoutBreaks_of_forall fun c hc => ?_
    exact (h.chars c (Text.of_mem_splitWhere hp hc).1).1
  have hsegs : ∀ p ∈ Text.splitWhere isSlash text, IsSegment (encode inPath (withoutBreaks p)) := by
    intro p hp
    rw [hbreaks p hp]
    apply h.segments
    rw [splitWhere_encode]
    exact List.mem_map_of_mem hp
  rw [addPieces_written hfront (Text.splitWhere_ne_nil _ _) hsegs, splitWhere_encode]
  refine congrArg _ (List.map_congr_left fun p hp => ?_)
  rw [hbreaks p hp]

/-! ## Reading behind a directory -/

/-- The segments of a directory other than the root. -/
structure IsDirectory (front : List (List Char)) : Prop where
  ne_nil : front ≠ []
  first : front.head? ≠ some []
  segments : ∀ s ∈ front, IsSegment s

theorem IsDirectory.dropEmptyFront (h : IsDirectory front) (back : List (List Char)) :
    Url.dropEmptyFront (front ++ back) = front ++ back := by
  obtain ⟨f, rest, rfl⟩ := List.exists_cons_of_ne_nil h.ne_nil
  have hf : ¬ f.isEmpty = true := by simpa using h.first
  unfold Url.dropEmptyFront
  rw [List.cons_append, List.dropWhile_cons_of_neg hf]

/-- A URL is that of a file in a directory, and the name of the file is no drive letter. -/
structure LiesIn (base : Url) (front : List (List Char)) : Prop where
  dir : IsDirectory front
  file : ∃ last, IsSegment last ∧ isNormalDriveLetter last = false ∧
    base = { bareFile with location := .segments (front ++ [last]) }

variable {base : Url}

theorem LiesIn.isPlainFile (h : base.LiesIn front) : base.IsPlainFile := by
  obtain ⟨last, hsegment, -, rfl⟩ := h.file
  refine ⟨rfl, rfl, front, last, rfl, ?_, h.dir.first⟩
  intro s hs
  rcases List.mem_append.1 hs with hs | hs
  · exact h.dir.segments s hs
  · exact List.mem_singleton.1 hs ▸ hsegment

/-- A path behind the directory of a file. -/
theorem LiesIn.withPath_clearLast (h : base.LiesIn front) {input : List Char}
    (hsplit : Url.splitPath input = (input, [])) :
    base.withPath (clearLast true base.segments) input =
      { bareFile with
        location := .segments (readPath bareFile.scheme (front ++ [[]]) input) } := by
  obtain ⟨last, -, hdrive, rfl⟩ := h.file
  have hclear : clearLast true (front ++ [last]) = front ++ [[]] := by simp [clearLast, hdrive]
  show withPath _ (clearLast true (front ++ [last])) input = _
  unfold withPath
  rw [hclear, hsplit]
  rfl

/-- A dot in front of further pieces stands for the directory that they are read behind. -/
theorem addPieces_dotCons (hne : front ≠ []) (pieces : List (List Char)) :
    addPieces true (front ++ [[]]) (['.'] :: pieces) = addPieces true (front ++ [[]]) pieces := by
  have hdrive : ∀ d, front ++ [[]] = [d] → isNormalDriveLetter d = false := by
    intro d hd
    obtain ⟨f, rest, rfl⟩ := List.exists_cons_of_ne_nil hne
    simp at hd
  rw [addPieces, addPiece_dot hdrive]
  simp [openLast]

/-- **A reference to a file** below the directory of a file is read piece by piece. -/
theorem join_below (h : base.LiesIn front) (htext : IsPathText text) :
    base.join ('.' :: '/' :: text) = .ok (below front text) := by
  have htrim : trimEnd ('/' :: text) = '/' :: text := by
    have hback : trimEnd ([] ++ '/' :: text) = [] ++ '/' :: trimEnd text :=
      trimEnd_append (by decide) text
    rwa [htext.last] at hback
  have hsplit : splitPath ('.' :: '/' :: text) = ('.' :: '/' :: text, []) := by
    have hbehind := htext.splitPath
    unfold splitPath at hbehind ⊢
    rw [List.span_eq_takeWhile_dropWhile] at hbehind ⊢
    obtain ⟨htake, hdrop⟩ := Prod.mk.inj hbehind
    simp [htake, hdrop]
  have hpieces : Text.splitWhere isSlash ('.' :: '/' :: text) =
      ['.'] :: Text.splitWhere isSlash text := Text.splitWhere_append_cut rfl ['.'] text
  have hread : readPath bareFile.scheme (front ++ [[]]) ('.' :: '/' :: text) =
      front ++ Text.splitWhere isSlash (encode inPath text) := by
    unfold readPath
    rw [pathPieces_file, hpieces]
    show dropEmptyFront (addPieces true (front ++ [[]]) (['.'] :: _)) = _
    rw [addPieces_dotCons h.dir.ne_nil, htext.addPieces h.dir.ne_nil, h.dir.dropEmptyFront]
  rw [join_dotCons h.isPlainFile, htrim, h.withPath_clearLast hsplit, hread]
  rfl

/-- The directory of a file. -/
theorem join_here (h : base.LiesIn front) : base.join ['.'] = .ok (below front []) := by
  have hread : readPath bareFile.scheme (front ++ [[]]) ['.'] = front ++ [[]] := by
    unfold readPath
    show dropEmptyFront (addPieces true (front ++ [[]]) (['.'] :: [])) = _
    rw [addPieces_dotCons h.dir.ne_nil]
    exact h.dir.dropEmptyFront _
  rw [join_dotCons h.isPlainFile]
  show Except.ok (base.withPath (clearLast true base.segments) ['.']) = _
  rw [h.withPath_clearLast rfl, hread]
  rfl

/-- **The text of a file URL** below a directory is read piece by piece. -/
theorem parse_below (h : IsDirectory front) (htext : IsPathText text) :
    parse ("file://".toList ++ (joinSegments front ++ '/' :: text)) = .ok (below front text) := by
  have hread : readPath bareFile.scheme [[]] (joinSegments front ++ '/' :: text) =
      front ++ Text.splitWhere isSlash (encode inPath text) := by
    rw [readPath_joinSegments h.segments, htext.addPieces (List.cons_ne_nil [] front)]
    exact dropEmptyFront_append h.first h.ne_nil _
  rw [parse_joinSegments, htext.last]
  unfold withPath
  rw [splitPath_joinSegments h.segments, htext.splitPath]
  dsimp only
  rw [hread]
  rfl

/-! ## The text of a URL below a directory -/

theorem joinSegments_splitWhere (h : '\\' ∉ text) :
    joinSegments (Text.splitWhere isSlash text) = '/' :: text := by
  induction text with
  | nil => rfl
  | cons c text ih =>
    rw [List.mem_cons, not_or] at h
    by_cases hc : c = '/'
    · subst hc
      rw [Text.splitWhere_of_cut rfl]
      exact congrArg ('/' :: ·) (ih h.2)
    · have hcut : ∀ d ∈ [c], isSlash d = false := by
        simp [isSlash, hc, Ne.symm h.1]
      obtain ⟨p, ps, hps⟩ := List.exists_cons_of_ne_nil (Text.splitWhere_ne_nil isSlash text)
      have hrest : joinSegments (p :: ps) = '/' :: text := hps ▸ ih h.2
      have hfront : Text.splitWhere isSlash (c :: text) = (c :: p) :: ps :=
        Text.splitWhere_append hcut hps
      have hbehind : p ++ joinSegments ps = text := (List.cons.inj hrest).2
      rw [hfront]
      show '/' :: c :: (p ++ joinSegments ps) = _
      rw [hbehind]

theorem path_below (front : List (List Char)) (text : List Char) : (below front text).path =
    joinSegments front ++ joinSegments (Text.splitWhere isSlash (encode inPath text)) :=
  joinSegments_append ..

theorem href_below (front : List (List Char)) (h : '\\' ∉ text) : (below front text).href =
    "file://".toList ++ (joinSegments front ++ '/' :: encode inPath text) := by
  have hnone : '\\' ∉ encode inPath text := by
    intro hmem
    exact h (mem_of_mem_encode (by decide) (by decide) hmem)
  rw [href_eq_append (u := below front text) rfl rfl, path_below, joinSegments_splitWhere hnone]
  simp [below, bareFile]

/-! ## Texts that a URL takes as they are -/

theorem trimEnd_eq_self_iff : trimEnd text = text ↔ ∀ c, text.getLast? = some c → ¬ c ≤ ' ' := by
  unfold trimEnd
  rw [List.rdropWhile_eq_self_iff]
  constructor
  · intro h c hc
    obtain ⟨front, rfl⟩ := List.getLast?_eq_some_iff.1 hc
    simpa using h (by simp)
  · intro h hne
    simpa using h _ (List.getLast?_eq_some_getLast hne)

/-- A text of which a URL takes every character as it is: it holds no mark that ends a path, no
escape, no break and no backslash, and ends in no control or space. -/
structure IsVerbatim (text : List Char) : Prop where
  chars : ∀ c ∈ text, isBreak c = false ∧ c ∉ "?#%\\".toList
  last : ∀ c, text.getLast? = some c → ¬ c ≤ ' '

theorem IsVerbatim.notMem (h : IsVerbatim text) {c : Char} (hc : c ∈ "?#%\\".toList) :
    c ∉ text := fun hmem => (h.chars c hmem).2 hc

/-- A text that a URL takes as it is, none of whose pieces is one of the dots, is a path. -/
theorem IsVerbatim.isPathText (h : IsVerbatim text)
    (hdots : ∀ p ∈ Text.splitWhere isSlash text, p ≠ ".".toList ∧ p ≠ "..".toList) :
    IsPathText text where
  chars := by
    intro c hc
    refine ⟨(h.chars c hc).1, ?_, ?_⟩
    · rintro rfl
      exact h.notMem (by decide) hc
    · rintro rfl
      exact h.notMem (by decide) hc
  last := trimEnd_eq_self_iff.2 h.last
  segments := by
    intro s hs
    rw [splitWhere_encode] at hs
    obtain ⟨p, hp, rfl⟩ := List.mem_map.1 hs
    have hpercent : '%' ∉ p := fun hmem =>
      h.notMem (by decide) (Text.of_mem_splitWhere hp hmem).1
    have hback : Utf8.decodeLossy (FilePath.ofText p) = p := Utf8.decodeLossy_encode p
    rw [encode_inPath_eq hpercent fun c hc => (Text.of_mem_splitWhere hp hc).2]
    apply isSegment_encodeBytes
    · intro heq
      rw [heq] at hback
      exact (hdots p hp).1 (hback ▸ by decide)
    · intro heq
      rw [heq] at hback
      exact (hdots p hp).2 (hback ▸ by decide)

/-- A star in the place of a part of a text leaves it one that a URL takes as it is. -/
theorem IsVerbatim.star {before new after : List Char}
    (h : IsVerbatim (before ++ (new ++ after))) : IsVerbatim (before ++ '*' :: after) where
  chars := by
    intro c hc
    rcases List.mem_append.1 hc with hc | hc
    · exact h.chars c (by simp [hc])
    · rcases List.mem_cons.1 hc with rfl | hc
      · exact ⟨by decide, by decide⟩
      · exact h.chars c (by simp [hc])
  last := by
    intro c hc
    rw [List.getLast?_append, List.getLast?_cons] at hc
    cases hafter : after.getLast? with
    | some d =>
      obtain rfl : d = c := by simpa [hafter] using hc
      exact h.last d (by simp [List.getLast?_append, hafter])
    | none =>
      obtain rfl : '*' = c := by simpa [hafter] using hc
      decide

theorem chars_of_mem_encode {c : Char} (h : c ∈ encode inPath text) :
    isBreak c = false ∧ c ≠ '?' ∧ c ≠ '#' ∧ ¬ c ≤ ' ' := by
  obtain ⟨hvisible, -, hmarks⟩ := inPath_eq_false_iff.1 (plain_of_mem_encode h).2
  have hbreak : isBreak c = false := by
    rw [Bool.eq_false_iff]
    intro hbreak
    simp only [isBreak, Ascii.isLineEnd, Bool.or_eq_true, beq_iff_eq] at hbreak
    rcases hbreak with rfl | rfl | rfl <;> exact absurd hvisible (by decide)
  have hspace : ¬ c ≤ ' ' := Nat.not_le.2 hvisible
  exact ⟨hbreak, fun hc => hmarks (by simp [hc]), fun hc => hmarks (by simp [hc]), hspace⟩

/-- A path that is written already is a path. -/
theorem IsPathText.written (h : IsPathText text) : IsPathText (encode inPath text) where
  chars := by
    intro c hc
    obtain ⟨hbreak, hquestion, hsharp, -⟩ := chars_of_mem_encode hc
    exact ⟨hbreak, hquestion, hsharp⟩
  last := by
    rw [trimEnd_eq_self_iff]
    intro c hc
    exact (chars_of_mem_encode (List.mem_of_getLast? hc)).2.2.2
  segments := by
    rw [encode_encode]
    exact h.segments

/-- A path with something in the place of its star: what is in front of the star and behind it may
be written already. -/
theorem IsVerbatim.isPathText_written {before new after : List Char}
    (h : IsVerbatim (before ++ (new ++ after)))
    (hdots : ∀ p ∈ Text.splitWhere isSlash (before ++ (new ++ after)),
      p ≠ ".".toList ∧ p ≠ "..".toList) :
    IsPathText (encode inPath before ++ (new ++ encode inPath after)) where
  chars := by
    intro c hc
    have hwritten : ∀ {cs}, c ∈ encode inPath cs → isBreak c = false ∧ c ≠ '?' ∧ c ≠ '#' := by
      intro cs hmem
      obtain ⟨hbreak, hquestion, hsharp, -⟩ := chars_of_mem_encode hmem
      exact ⟨hbreak, hquestion, hsharp⟩
    simp only [List.mem_append] at hc
    rcases hc with hc | hc | hc
    · exact hwritten hc
    · exact (h.isPathText hdots).chars c (by simp [hc])
    · exact hwritten hc
  last := by
    rw [trimEnd_eq_self_iff]
    intro c hc
    rw [List.getLast?_append, List.getLast?_append] at hc
    cases hafter : (encode inPath after).getLast? with
    | some d =>
      obtain rfl : d = c := by simpa [hafter] using hc
      exact (chars_of_mem_encode (List.mem_of_getLast? hafter)).2.2.2
    | none =>
      obtain rfl : after = [] := by
        by_contra hne
        exact encode_ne_nil hne (List.getLast?_eq_none_iff.1 hafter)
      cases hnew : new.getLast? with
      | some d =>
        obtain rfl : d = c := by simpa [hafter, hnew] using hc
        exact h.last d (by simp [List.getLast?_append, hnew])
      | none =>
        have hbefore : (encode inPath before).getLast? = some c := by
          simpa [hafter, hnew] using hc
        exact (chars_of_mem_encode (List.mem_of_getLast? hbefore)).2.2.2
  segments := by
    have hsame : encode inPath (encode inPath before ++ (new ++ encode inPath after)) =
        encode inPath (before ++ (new ++ after)) := by
      simp only [encode_append, encode_encode]
    rw [hsame]
    exact (h.isPathText hdots).segments

end Url

end EsModules
