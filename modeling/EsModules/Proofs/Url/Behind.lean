import EsModules.Proofs.Url.Below
import Mathlib.Data.List.Flatten

/-!
# Plain texts behind a directory

The texts of a project are plain: letters, digits and a few marks.  Read behind a directory such a
text gives the pieces in front of its number sign, those of a single dot left out, and the number
sign starts the fragment.  Nothing of the directory is looked at, so the same is read behind every
directory.  Only the piece right in front of a number sign can lead to the directory above: it is no
whole piece of the text.

* `Url.Descends`: plain texts with no piece that leads to the directory above.
* `Url.behind`: what is read behind a directory.
* `Url.join_descends`, `Url.parse_descends`: the two ways such a text is read.
-/

namespace EsModules.Url

open PercentEncoding

variable {c : Char} {text : List Char}

/-! ## Plain texts -/

/-- The letters, digits and marks that the texts of a project consist of. -/
def plainChars : List Char :=
  "abcdefghijklmnopqrstuvwxyzABCDEFGHIJKLMNOPQRSTUVWXYZ0123456789-_./*@#".toList

/-- Whether a character is plain, told by its number. -/
def isPlain (c : Char) : Bool :=
  let n := c.toNat
  (0x2D ≤ n && n ≤ 0x39) || (0x40 ≤ n && n ≤ 0x5A) || (0x61 ≤ n && n ≤ 0x7A) || n == 0x23 ||
    n == 0x2A || n == 0x5F

theorem mem_plainChars_iff : c ∈ plainChars ↔ isPlain c = true := by
  have hlist : plainChars.all isPlain = true := by
    unfold plainChars
    rw [String.toList_ofList]
    decide +kernel
  have hcodes : (List.range 0x7B).all (fun n => !isPlain (Char.ofNat n) ||
      plainChars.contains (Char.ofNat n)) = true := by
    unfold plainChars
    rw [String.toList_ofList]
    decide +kernel
  refine ⟨fun h => List.all_eq_true.1 hlist c h, fun h => ?_⟩
  have hlt : c.toNat < 0x7B := by
    simp only [isPlain, Bool.or_eq_true, Bool.and_eq_true, decide_eq_true_eq, beq_iff_eq] at h
    omega
  have hcode := List.all_eq_true.1 hcodes c.toNat (List.mem_range.2 hlt)
  rw [Char.ofNat_toNat, h] at hcode
  simpa using hcode

/-- Whether a character is plain is decided by its number, not by a search of the text above. -/
instance decidableMemPlainChars (c : Char) : Decidable (c ∈ plainChars) :=
  decidable_of_iff (isPlain c = true) mem_plainChars_iff.symm

/-- What holds of all characters of a text is decided character by character of that text, not of
all there are. -/
instance decidableForallMem {p : Char → Prop} [DecidablePred p] (text : List Char) :
    Decidable (∀ c ∈ text, p c) :=
  List.decidableBAll p text

/-- Whether a text is plain and no piece of it between cuts leads to the directory above. -/
def keepsLevel (isCut : Char → Bool) (text : List Char) : Bool :=
  text.all isPlain && !(Text.splitWhere isCut text).contains "..".toList

theorem keepsLevel_iff {isCut : Char → Bool} : keepsLevel isCut text = true ↔
    (∀ c ∈ text, c ∈ plainChars) ∧ "..".toList ∉ Text.splitWhere isCut text := by
  simp only [keepsLevel, Bool.and_eq_true, List.all_eq_true, Bool.not_eq_true',
    List.contains_eq_mem, decide_eq_false_iff_not, mem_plainChars_iff]

/-- A plain character is visible and no escape, colon, bar or query; all but two are written in the
path of a URL as they are. -/
theorem of_mem_plainChars (h : c ∈ plainChars) : c.toNat < 0x80 ∧ ¬ c ≤ ' ' ∧ isBreak c = false ∧
    inFragment c = false ∧ c ∉ ":|\\?%".toList ∧
    (c ≠ '/' → c ≠ '#' → isPathChar c = true ∧ inSegment c = false) := by
  have hall : plainChars.all (fun c => decide (c.toNat < 0x80 ∧ ¬ c ≤ ' ' ∧ isBreak c = false ∧
      inFragment c = false ∧ c ∉ ":|\\?%".toList ∧
      (c ≠ '/' → c ≠ '#' → isPathChar c = true ∧ inSegment c = false))) = true := by
    unfold plainChars
    repeat rw [String.toList_ofList]
    decide +kernel
  exact Text.forall_mem_of_all hall c h

theorem not_le_of_plain (h : c ∈ plainChars) : ¬ c ≤ ' ' := (of_mem_plainChars h).2.1

theorem ne_of_plain (h : c ∈ plainChars) {d : Char} (hd : d ∈ ":|\\?%".toList) : c ≠ d := by
  rintro rfl
  exact (of_mem_plainChars h).2.2.2.2.1 hd

theorem withoutBreaks_of_plain (h : ∀ c ∈ text, c ∈ plainChars) : withoutBreaks text = text :=
  withoutBreaks_of_forall fun c hc => (of_mem_plainChars (h c hc)).2.2.1

theorem trimEnd_of_plain (h : ∀ c ∈ text, c ∈ plainChars) : trimEnd text = text :=
  trimEnd_eq_self_iff.2 fun c hc => not_le_of_plain (h c (List.mem_of_getLast? hc))

/-- A plain text no piece of which between slashes leads to the directory above. -/
structure Descends (text : List Char) : Prop where
  chars : ∀ c ∈ text, c ∈ plainChars
  stays : "..".toList ∉ Text.splitWhere isSlash text

instance (text : List Char) : Decidable (Descends text) :=
  decidable_of_iff (keepsLevel isSlash text = true)
    (keepsLevel_iff.trans ⟨fun h => ⟨h.1, h.2⟩, fun h => ⟨h.chars, h.stays⟩⟩)

theorem descends_append_slash {as bs : List Char} :
    Descends (as ++ '/' :: bs) ↔ Descends as ∧ Descends bs := by
  have hslash : '/' ∈ plainChars := by decide
  constructor
  · rintro ⟨hchars, hstays⟩
    rw [Text.splitWhere_append_cut rfl, List.mem_append, not_or] at hstays
    exact ⟨⟨fun c hc => hchars c (by simp [hc]), hstays.1⟩,
      ⟨fun c hc => hchars c (by simp [hc]), hstays.2⟩⟩
  · rintro ⟨has, hbs⟩
    refine ⟨?_, ?_⟩
    · intro c hc
      rcases List.mem_append.1 hc with hc | hc
      · exact has.chars c hc
      · rcases List.mem_cons.1 hc with rfl | hc
        · exact hslash
        · exact hbs.chars c hc
    · rw [Text.splitWhere_append_cut rfl, List.mem_append, not_or]
      exact ⟨has.stays, hbs.stays⟩

/-! ## Path and fragment -/

/-- What a text has in front of its query or fragment. -/
def pathPart (text : List Char) : List Char := (splitPath text).1

/-- What stands behind the mark that ends the path of a text. -/
def fragmentPart? (text : List Char) : Option (List Char) :=
  match (splitPath text).2 with
  | [] => none
  | _ :: fragment => some fragment

/-- A plain text is its path, with a number sign and its fragment behind it if it has one. -/
theorem splitPath_of_plain (h : ∀ c ∈ text, c ∈ plainChars) :
    text = pathPart text ∧ (splitPath text).2 = [] ∨
      ∃ fragment, text = pathPart text ++ '#' :: fragment ∧
        (splitPath text).2 = '#' :: fragment := by
  unfold pathPart splitPath
  rw [List.span_eq_takeWhile_dropWhile]
  have happend : text.takeWhile (fun c => c != '?' && c != '#') ++
      text.dropWhile (fun c => c != '?' && c != '#') = text := List.takeWhile_append_dropWhile
  cases hrest : text.dropWhile (fun c => c != '?' && c != '#') with
  | nil =>
    rw [hrest, List.append_nil] at happend
    exact .inl ⟨happend.symm, rfl⟩
  | cons c fragment =>
    have hhead := List.head?_dropWhile_not (fun c => c != '?' && c != '#') text
    rw [hrest] at hhead happend
    have hmem : c ∈ text := by
      rw [← happend]
      simp
    have hquestion : c ≠ '?' := ne_of_plain (h c hmem) (by decide)
    obtain rfl : c = '#' := by simpa [hquestion] using hhead
    exact .inr ⟨fragment, happend.symm, rfl⟩

theorem encode_fragment (h : ∀ c ∈ text, c ∈ plainChars) : encode inFragment text = text :=
  encode_of_plain fun c hc => ⟨(of_mem_plainChars (h c hc)).1, (of_mem_plainChars (h c hc)).2.2.2.1⟩

/-- What ends the path of a plain text is its fragment. -/
theorem withTail_of_plain (h : ∀ c ∈ text, c ∈ plainChars) (u : Url) :
    u.withTail (withoutBreaks (splitPath text).2) =
      { u with query := none, fragment := fragmentPart? text } := by
  unfold fragmentPart?
  rcases splitPath_of_plain h with ⟨-, hrest⟩ | ⟨fragment, htext, hrest⟩
  · rw [hrest]
    rfl
  · have hend : ∀ c ∈ '#' :: fragment, c ∈ plainChars := fun c hc => by
      apply h
      rw [htext]
      exact List.mem_append_right _ hc
    rw [hrest, withoutBreaks_of_plain hend]
    show Url.withFragment _ fragment = _
    unfold withFragment
    rw [encode_fragment fun c hc => hend c (List.mem_cons_of_mem _ hc)]

/-- A plain text behind segments: its path is read there, and its fragment is kept. -/
theorem withPath_of_plain (h : ∀ c ∈ text, c ∈ plainChars) (u : Url) (segs : List (List Char)) :
    u.withPath segs text =
      { u with
        location := .segments (readPath u.scheme segs (pathPart text))
        query := none
        fragment := fragmentPart? text } :=
  withTail_of_plain h { u with location := .segments (readPath u.scheme segs (pathPart text)) }

/-! ## Pieces -/

/-- The segments that pieces give behind a directory: a single dot gives none, and an empty one at
the end. -/
def trail : List (List Char) → List (List Char)
  | [] => [[]]
  | p :: ps => if p == ['.'] then trail ps else p :: (if ps.isEmpty then [] else trail ps)

theorem trail_ne_nil (ps : List (List Char)) : trail ps ≠ [] := by
  induction ps with
  | nil => exact List.cons_ne_nil _ _
  | cons p ps ih =>
    unfold trail
    split
    · exact ih
    · exact List.cons_ne_nil _ _

theorem mem_trail {ps : List (List Char)} {s : List Char} (h : s ∈ trail ps) :
    s = [] ∨ s ∈ ps ∧ s ≠ ['.'] := by
  induction ps with
  | nil => exact .inl (List.mem_singleton.1 h)
  | cons p ps ih =>
    have hlater : s ∈ trail ps → s = [] ∨ s ∈ p :: ps ∧ s ≠ ['.'] := fun h =>
      (ih h).imp id fun h => ⟨List.mem_cons_of_mem p h.1, h.2⟩
    unfold trail at h
    split at h
    · exact hlater h
    · rename_i hp
      rcases List.mem_cons.1 h with rfl | h
      · exact .inr ⟨List.mem_cons_self, by simpa using hp⟩
      · split at h
        · cases h
        · exact hlater h

/-- Pieces that are segments or single dots are read behind a directory. -/
theorem addPieces_trail {front ps : List (List Char)} (hfront : front ≠ [])
    (h : ∀ p ∈ ps, p = ['.'] ∨ IsSegment p) :
    addPieces true (front ++ [[]]) ps = front ++ trail ps := by
  induction ps generalizing front with
  | nil => rfl
  | cons p ps ih =>
    have hrest := fun q hq => h q (List.mem_cons_of_mem p hq)
    unfold trail
    by_cases hp : p = ['.']
    · subst hp
      rw [addPieces_dotCons hfront, ih hfront hrest]
      rfl
    · have hsegment := (h p List.mem_cons_self).resolve_left hp
      rw [if_neg (by simpa using hp), addPieces, addPiece_segment hfront hsegment]
      cases ps with
      | nil => rfl
      | cons q ps =>
        have hlonger := @ih (front ++ [p]) (by simp) hrest
        simpa using hlonger

theorem joinSegments_cons (s : List Char) (segs : List (List Char)) :
    joinSegments (s :: segs) = '/' :: (s ++ joinSegments segs) := rfl

theorem length_joinSegments_trail {ps : List (List Char)} (h : ps ≠ []) :
    (joinSegments (trail ps)).length ≤ (joinSegments ps).length := by
  induction ps with
  | nil => exact absurd rfl h
  | cons p ps ih =>
    have hcons : ∀ (s : List Char) (ss : List (List Char)),
        (joinSegments (s :: ss)).length = s.length + 1 + (joinSegments ss).length := by
      intro s ss
      rw [joinSegments_cons, List.length_cons, List.length_append]
      omega
    unfold trail
    rw [hcons]
    split
    · by_cases hps : ps = []
      · subst hps
        simp [trail, joinSegments]
      · have hle := ih hps
        omega
    · rw [hcons]
      split
      · simp [joinSegments]
      · rename_i hps
        have hle := ih (by simpa using hps)
        omega

/-! ## Reading -/

theorem mem_of_mem_pathPart (h : c ∈ pathPart text) : c ∈ text ∧ c ≠ '#' := by
  unfold pathPart splitPath at h
  rw [List.span_eq_takeWhile_dropWhile] at h
  have hkeep := List.mem_takeWhile_imp h
  simp only [Bool.and_eq_true, bne_iff_ne] at hkeep
  exact ⟨(List.takeWhile_prefix _).subset h, hkeep.2⟩

theorem isSegment_of_plain {s : List Char} (h : ∀ c ∈ s, c ∈ plainChars ∧ c ≠ '/' ∧ c ≠ '#')
    (hhere : s ≠ ['.']) (habove : s ≠ "..".toList) : IsSegment s := by
  have hpercent : '%' ∉ s := fun hmem => ne_of_plain (h _ hmem).1 (by decide) rfl
  have hsingle : ∀ t ∈ [".", "%2e", "%2E"].map String.toList, t = ['.'] ∨ '%' ∈ t := by
    decide
  have hdouble : ∀ t ∈ ["..", "%2e%2e", "%2e%2E", "%2E%2e", "%2E%2E", "%2e.", "%2E.", ".%2e",
      ".%2E"].map String.toList, t = "..".toList ∨ '%' ∈ t := by
    decide
  refine ⟨fun c hc => ?_, Bool.eq_false_iff.2 fun hdot => ?_, Bool.eq_false_iff.2 fun hdot => ?_⟩
  · obtain ⟨hplain, hslash, hsharp⟩ := h c hc
    exact ((of_mem_plainChars hplain).2.2.2.2.2 hslash hsharp).1
  · exact (hsingle s (List.contains_iff_mem.1 hdot)).elim hhere hpercent
  · exact (hdouble s (List.contains_iff_mem.1 hdot)).elim habove hpercent

/-- The pieces of the path of a text. -/
def parts (text : List Char) : List (List Char) := Text.splitWhere isSlash (pathPart text)

theorem parts_ne_nil (text : List Char) : parts text ≠ [] := Text.splitWhere_ne_nil _ _

theorem mem_parts {p : List Char} (h : ∀ c ∈ text, c ∈ plainChars) (hp : p ∈ parts text) :
    ∀ c ∈ p, c ∈ plainChars ∧ c ≠ '/' ∧ c ≠ '#' := by
  intro c hc
  obtain ⟨hpart, hslash⟩ := Text.of_mem_splitWhere hp hc
  obtain ⟨htext, hsharp⟩ := mem_of_mem_pathPart hpart
  refine ⟨h c htext, ?_, hsharp⟩
  rintro rfl
  cases hslash

/-- The path of a text leads to the directory above with its last piece. -/
def Climbs (text : List Char) : Prop := (parts text).getLast? = some "..".toList

instance (text : List Char) : Decidable (Climbs text) :=
  inferInstanceAs (Decidable ((parts text).getLast? = some "..".toList))

/-- What the pieces in front of the last one name. -/
def dirs (text : List Char) : List (List Char) := (parts text).dropLast.filter (· != ['.'])

/-- The segments that a text gives behind a directory. -/
def trailOf (text : List Char) : List (List Char) := trail (parts text)

/-- Pieces in front of the last one of the path are pieces of the text. -/
theorem Descends.notMem_dropLast (h : Descends text) : "..".toList ∉ (parts text).dropLast := by
  intro hp
  rcases splitPath_of_plain h.chars with ⟨heq, -⟩ | ⟨fragment, heq, -⟩
  · exact h.stays (heq ▸ List.dropLast_subset _ hp)
  · refine h.stays ?_
    rw [heq]
    exact Text.dropLast_splitWhere_subset _ _ hp

theorem Descends.notMem_parts (h : Descends text) (hclimbs : ¬ Climbs text) :
    "..".toList ∉ parts text := by
  intro hp
  have hsplit := List.dropLast_concat_getLast (parts_ne_nil text)
  rw [← hsplit] at hp
  rcases List.mem_append.1 hp with hp | hp
  · exact h.notMem_dropLast hp
  · refine hclimbs ?_
    rw [Climbs, List.getLast?_eq_some_getLast (parts_ne_nil text), List.mem_singleton.1 hp]

theorem Descends.isSegment_of_mem_parts (h : Descends text) {p : List Char} (hp : p ∈ parts text)
    (habove : p ≠ "..".toList) : p = ['.'] ∨ IsSegment p := by
  by_cases hdot : p = ['.']
  · exact .inl hdot
  · exact .inr (isSegment_of_plain (mem_parts h.chars hp) hdot habove)

/-- What is read is plain, and each segment is one that is read again as it is. -/
theorem Descends.mem_trailOf (h : Descends text) (hclimbs : ¬ Climbs text) {s : List Char}
    (hs : s ∈ trailOf text) :
    (∀ c ∈ s, c ∈ plainChars ∧ c ≠ '/' ∧ c ≠ '#') ∧ s ≠ ['.'] ∧ s ≠ "..".toList := by
  rcases mem_trail hs with rfl | ⟨hmem, hhere⟩
  · exact ⟨fun c hc => absurd hc List.not_mem_nil, by decide, by decide⟩
  · refine ⟨mem_parts h.chars hmem, hhere, ?_⟩
    rintro rfl
    exact h.notMem_parts hclimbs hmem

theorem Descends.mem_dirs (h : Descends text) {s : List Char} (hs : s ∈ dirs text) :
    (∀ c ∈ s, c ∈ plainChars ∧ c ≠ '/' ∧ c ≠ '#') ∧ s ≠ ['.'] ∧ s ≠ "..".toList := by
  obtain ⟨hmem, hhere⟩ := List.mem_filter.1 hs
  refine ⟨mem_parts h.chars (List.dropLast_subset _ hmem), by simpa using hhere, ?_⟩
  rintro rfl
  exact h.notMem_dropLast hmem

theorem length_parts (h : ∀ c ∈ text, c ∈ plainChars) :
    (joinSegments (parts text)).length ≤ text.length + 1 := by
  have hback : '\\' ∉ pathPart text := fun hmem =>
    ne_of_plain (h _ (mem_of_mem_pathPart hmem).1) (by decide) rfl
  have hpart : (pathPart text).length ≤ text.length := by
    unfold pathPart splitPath
    rw [List.span_eq_takeWhile_dropWhile]
    exact (List.takeWhile_prefix _).length_le
  rw [parts, joinSegments_splitWhere hback, List.length_cons]
  exact Nat.succ_le_succ hpart

theorem length_trailOf (h : ∀ c ∈ text, c ∈ plainChars) :
    (joinSegments (trailOf text)).length ≤ text.length + 1 :=
  (length_joinSegments_trail (parts_ne_nil text)).trans (length_parts h)

theorem length_joinSegments_sublist {as bs : List (List Char)} (h : as.Sublist bs) :
    (joinSegments as).length ≤ (joinSegments bs).length :=
  (List.Sublist.flatMap h _).length_le

theorem length_dirs (h : ∀ c ∈ text, c ∈ plainChars) :
    (joinSegments (dirs text)).length ≤ text.length + 1 :=
  (length_joinSegments_sublist (List.filter_sublist.trans (List.dropLast_sublist _))).trans
    (length_parts h)

/-! ## Reading -/

variable {front : List (List Char)} {base : Url}

/-- None of the names of a directory can be taken for a drive. -/
def Driveless (front : List (List Char)) : Prop := ∀ s ∈ front, ':' ∉ s ∧ '|' ∉ s

theorem not_isDriveLetter {s : List Char} (h : ':' ∉ s ∧ '|' ∉ s) (a : Char) (rest : List Char)
    (hs : ∀ b ∈ rest, b ∈ s) : isDriveLetter (a :: rest) = false := by
  unfold isDriveLetter
  split
  · rename_i b heq
    obtain ⟨rfl, rfl⟩ := List.cons.inj heq
    have hb := hs b List.mem_cons_self
    have hcolon : b ≠ ':' := ne_of_mem_of_not_mem hb h.1
    have hbar : b ≠ '|' := ne_of_mem_of_not_mem hb h.2
    simp [hcolon, hbar]
  · rfl

theorem startsWithDriveLetter_of_driveless {s : List Char} (h : ':' ∉ s ∧ '|' ∉ s) :
    startsWithDriveLetter s = false := by
  unfold startsWithDriveLetter
  split
  · exact not_isDriveLetter h _ _ (by simp)
  · rw [not_isDriveLetter h _ _ (by simp), Bool.false_and]
  · rfl

theorem isNormalDriveLetter_of_driveless {s : List Char} (h : ':' ∉ s ∧ '|' ∉ s) :
    isNormalDriveLetter s = false := by
  unfold isNormalDriveLetter
  split
  · rename_i a b
    have hcolon : b ≠ ':' := ne_of_mem_of_not_mem (by simp) h.1
    simp [hcolon]
  · rfl

theorem isDriveLetter_of_driveless {s : List Char} (h : ':' ∉ s ∧ '|' ∉ s) :
    isDriveLetter s = false := by
  cases s with
  | nil => rfl
  | cons c s => exact not_isDriveLetter h c s fun b hb => List.mem_cons_of_mem c hb

theorem brokenDrive?_of_driveless {s : List Char} (h : ':' ∉ s ∧ '|' ∉ s) :
    brokenDrive? s = none := by
  have hall : ∀ c ∈ s, (c != ':') = true := fun c hc => by
    simpa using ne_of_mem_of_not_mem hc h.1
  unfold brokenDrive?
  rw [List.span_eq_takeWhile_dropWhile, List.dropWhile_eq_nil_iff.2 hall]

/-- Two dots at the end lead to the directory above. -/
theorem addPieces_above (hfront : front ≠ []) (hdrive : Driveless front) :
    addPieces true (front ++ [[]]) ["..".toList] = front.dropLast ++ [[]] := by
  obtain ⟨init, last, rfl⟩ := List.eq_nil_or_concat' front |>.resolve_left hfront
  have hlast := hdrive last (by simp)
  have hshort : dropEmptyLast (init ++ [last] ++ [[]]) = init ++ [last] := by
    unfold dropEmptyLast
    simp [startsWithDriveLetter_of_driveless hlast]
  have hclear : clearLast true (init ++ [last]) = init ++ [[]] := by
    unfold clearLast
    simp [isNormalDriveLetter_of_driveless hlast]
  have hdouble : isDoubleDot (encode inPath (withoutBreaks "..".toList)) = true := by decide
  rw [addPieces, addPieces, addPiece_of_append hfront (List.cons_ne_nil _ _),
    addSegment_of_append hfront (List.cons_ne_nil _ _), if_pos hdouble]
  dsimp only
  rw [hshort, hclear, List.dropLast_concat]
  rfl

/-- Pieces that are segments or single dots in front of further pieces are read behind a
directory. -/
theorem addPieces_append_named {ps qs : List (List Char)} (hfront : front ≠ [])
    (h : ∀ p ∈ ps, p = ['.'] ∨ IsSegment p) (hqs : qs ≠ []) :
    addPieces true (front ++ [[]]) (ps ++ qs) =
      addPieces true (front ++ ps.filter (· != ['.']) ++ [[]]) qs := by
  induction ps generalizing front with
  | nil => simp
  | cons p ps ih =>
    have hrest := fun q hq => h q (List.mem_cons_of_mem p hq)
    by_cases hp : p = ['.']
    · subst hp
      rw [List.cons_append, addPieces_dotCons hfront, ih hfront hrest,
        List.filter_cons_of_neg (by decide)]
    · have hsegment := (h p List.mem_cons_self).resolve_left hp
      have hmore : (!(ps ++ qs).isEmpty) = true := by simp [hqs]
      have hlonger := @ih (front ++ [p]) (by simp) hrest
      rw [List.cons_append, addPieces, hmore, addPiece_segment hfront hsegment, if_pos rfl,
        List.filter_cons_of_pos (by simpa using hp)]
      simpa using hlonger

/-- The segments of a text that is read behind a directory. -/
def segmentsBehind (front : List (List Char)) (text : List Char) : List (List Char) :=
  if Climbs text then (front ++ dirs text).dropLast ++ [[]] else front ++ trailOf text

/-- The URL of a text that is read behind a directory. -/
def behind (front : List (List Char)) (text : List Char) : Url :=
  { bareFile with
    location := .segments (segmentsBehind front text)
    fragment := fragmentPart? text }

theorem Descends.addPieces (h : Descends text) (hfront : front ≠ []) (hdrive : Driveless front) :
    Url.addPieces true (front ++ [[]]) (parts text) = segmentsBehind front text := by
  unfold segmentsBehind
  split
  · rename_i hclimbs
    have hsplit : parts text = (parts text).dropLast ++ ["..".toList] :=
      (List.dropLast_append_getLast? _ hclimbs).symm
    have hdirs : ∀ p ∈ (parts text).dropLast, p = ['.'] ∨ IsSegment p := by
      intro p hp
      refine h.isSegment_of_mem_parts (List.dropLast_subset _ hp) ?_
      rintro rfl
      exact h.notMem_dropLast hp
    have hlonger : Driveless (front ++ dirs text) := by
      intro s hs
      rcases List.mem_append.1 hs with hs | hs
      · exact hdrive s hs
      · have hplain := (h.mem_dirs hs).1
        exact ⟨fun hc => ne_of_plain (hplain _ hc).1 (by decide) rfl,
          fun hc => ne_of_plain (hplain _ hc).1 (by decide) rfl⟩
    rw [hsplit, addPieces_append_named hfront hdirs (List.cons_ne_nil _ _)]
    exact addPieces_above (by simp [hfront]) hlonger
  · rename_i hclimbs
    refine addPieces_trail hfront fun p hp => h.isSegment_of_mem_parts hp ?_
    rintro rfl
    exact h.notMem_parts hclimbs hp

theorem segmentsBehind_cons (hfront : front ≠ []) (text : List Char) (s : List Char) :
    segmentsBehind (s :: front) text = s :: segmentsBehind front text := by
  unfold segmentsBehind
  split
  · rw [List.cons_append, List.dropLast_cons_of_ne_nil (by simp [hfront]), List.cons_append]
  · rfl

theorem dropEmptyFront_of_first {segs : List (List Char)} (hne : segs ≠ [])
    (hfirst : segs.head? = some [] → segs = [[]]) : Url.dropEmptyFront segs = segs := by
  obtain ⟨s, segs, rfl⟩ := List.exists_cons_of_ne_nil hne
  cases s with
  | nil => rw [hfirst rfl]; rfl
  | cons c s => rfl

/-- No empty segments stand in front of what is read. -/
theorem IsDirectory.dropEmptyFront_segmentsBehind (h : IsDirectory front) (text : List Char) :
    Url.dropEmptyFront (segmentsBehind front text) = segmentsBehind front text := by
  unfold segmentsBehind
  split
  · refine dropEmptyFront_of_first (by simp) fun hhead => ?_
    obtain ⟨s, rest, rfl⟩ := List.exists_cons_of_ne_nil h.ne_nil
    cases hrest : rest ++ dirs text with
    | nil => rw [List.cons_append, hrest]; rfl
    | cons t more =>
      rw [List.cons_append, hrest, List.dropLast_cons_of_ne_nil (List.cons_ne_nil t more)] at hhead
      exact absurd hhead h.first
  · exact h.dropEmptyFront _

/-- **The text of a file URL** below a directory is read piece by piece. -/
theorem parse_descends (h : IsDirectory front) (hdrive : Driveless front)
    (htext : Descends text) :
    parse ("file://".toList ++ (joinSegments front ++ '/' :: text)) = .ok (behind front text) := by
  have hread : readPath bareFile.scheme [[]] (joinSegments front ++ '/' :: pathPart text) =
      segmentsBehind front text := by
    have hdrive' : Driveless ([] :: front) := List.forall_mem_cons.2 ⟨by simp, hdrive⟩
    rw [readPath_joinSegments h.segments]
    show dropEmptyFront (Url.addPieces true ([] :: front ++ [[]]) (parts text)) = _
    rw [htext.addPieces (List.cons_ne_nil [] front) hdrive', segmentsBehind_cons h.ne_nil]
    exact h.dropEmptyFront_segmentsBehind text
  rw [parse_joinSegments, trimEnd_of_plain htext.chars]
  unfold withPath
  rw [splitPath_joinSegments h.segments]
  dsimp only
  rw [withTail_of_plain htext.chars]
  show Except.ok { bareFile with
    location := .segments (readPath bareFile.scheme [[]] (joinSegments front ++ '/' :: pathPart text))
    query := none
    fragment := fragmentPart? text } = _
  rw [hread]
  rfl

/-- A plain text has no scheme. -/
theorem splitScheme?_of_plain (h : ∀ c ∈ text, c ∈ plainChars) : splitScheme? text = none := by
  unfold splitScheme?
  rw [List.span_eq_takeWhile_dropWhile]
  dsimp only
  split
  · rename_i r _ hrest
    have hmem : ':' ∈ text := (List.dropWhile_suffix _).subset (hrest ▸ List.mem_cons_self)
    exact absurd rfl (ne_of_plain (h _ hmem) (by decide))
  · rfl

theorem startsWithDriveLetter_of_plain (h : ∀ c ∈ text, c ∈ plainChars) :
    startsWithDriveLetter text = false := by
  refine startsWithDriveLetter_of_driveless ⟨fun hc => ?_, fun hc => ?_⟩
  · exact ne_of_plain (h _ hc) (by decide) rfl
  · exact ne_of_plain (h _ hc) (by decide) rfl

theorem trimControls_of_plain (h : ∀ c ∈ text, c ∈ plainChars) : trimControls text = text := by
  cases text with
  | nil => rfl
  | cons c rest =>
    rw [trimControls_cons (not_le_of_plain (h c List.mem_cons_self)),
      trimEnd_of_plain fun d hd => h d (List.mem_cons_of_mem c hd)]

/-- A plain reference is read as it is. -/
theorem join_of_plain (htext : ∀ c ∈ text, c ∈ plainChars) (base : Url) :
    base.join text = base.readReference text := by
  unfold join read
  dsimp only
  rw [trimControls_of_plain htext, splitScheme?_of_plain htext]

/-- **A plain reference** to a file is read behind the directory of the file it stands in. -/
theorem join_descends (h : base.LiesIn front) (hdrive : Driveless front) (htext : Descends text)
    (hne : text ≠ []) (hslash : text.head? ≠ some '/') (hsharp : text.head? ≠ some '#') :
    base.join text = .ok (behind front text) := by
  have hread : readPath bareFile.scheme (front ++ [[]]) (pathPart text) =
      segmentsBehind front text := by
    unfold readPath
    show dropEmptyFront (Url.addPieces true (front ++ [[]]) (parts text)) = _
    rw [htext.addPieces h.dir.ne_nil hdrive, h.dir.dropEmptyFront_segmentsBehind]
  rw [join_of_plain htext.chars]
  obtain ⟨last, -, hdrive, rfl⟩ := h.file
  obtain ⟨c, rest, rfl⟩ := List.exists_cons_of_ne_nil hne
  have hc : c ∈ plainChars := htext.chars c List.mem_cons_self
  have hplain := withoutBreaks_of_plain htext.chars
  have hbreak : ¬ isBreak c = true := by simp [(of_mem_plainChars hc).2.2.1]
  have hcut : ¬ isSlash c = true := by
    have hback : c ≠ '\\' := ne_of_plain hc (by decide)
    have hfirst : c ≠ '/' := by simpa using hslash
    simp [isSlash, hback, hfirst]
  have hquestion : ¬ (c == '?') = true := by simpa using ne_of_plain hc (by decide)
  have hmark : ¬ (c == '#') = true := by simpa using hsharp
  have hclear : clearLast true (front ++ [last]) = front ++ [[]] := by simp [clearLast, hdrive]
  unfold readReference
  rw [hplain]
  split
  · rename_i heq
    simp [(List.cons.inj heq).1] at hmark
  · show readFile (some _) (c :: rest) = _
    unfold readFile
    rw [List.dropWhile_cons_of_neg hbreak]
    dsimp only
    rw [if_neg hcut, if_neg hquestion, if_neg hmark, hplain,
      startsWithDriveLetter_of_plain htext.chars, if_neg Bool.false_ne_true]
    show Except.ok (Url.withPath _ (clearLast true (front ++ [last])) (c :: rest)) = _
    rw [hclear, withPath_of_plain htext.chars]
    show Except.ok { bareFile with
      location := .segments (readPath bareFile.scheme (front ++ [[]]) (pathPart (c :: rest)))
      fragment := fragmentPart? (c :: rest) } = _
    rw [hread]
    rfl

/-- A reference that is a fragment leaves the path as it is. -/
theorem join_fragment (htext : ∀ c ∈ text, c ∈ plainChars) (base : Url) :
    base.join ('#' :: text) = .ok { base with fragment := some text } := by
  have hchars : ∀ c ∈ '#' :: text, c ∈ plainChars := by
    simpa using ⟨by decide, htext⟩
  rw [join_of_plain hchars]
  unfold readReference
  rw [withoutBreaks_of_plain hchars]
  show Except.ok (base.withFragment text) = _
  unfold withFragment
  rw [encode_fragment htext]

end EsModules.Url
