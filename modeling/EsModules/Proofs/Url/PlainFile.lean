import EsModules.Proofs.Url.Path
import EsModules.Url.File
import Mathlib.Data.List.DropRight
import Mathlib.Data.List.TakeDrop

/-!
# Plain file URLs

A plain file URL names no host and has segments as reading leaves them.  Its text is read back as
the same URL, and the files beside it stand behind the path of its directory.

* `Url.IsPlainFile`: plain file URLs; those of file paths without two dots are of this kind.
* `Url.parse_href`: the text of a plain file URL is read back.
* `Url.join_dot`: the directory of a plain file URL.
* `Url.path_prefix_of_parse`: what is read behind a path stays behind it if nothing leads above.
-/

namespace EsModules.Url

open PercentEncoding

/-! ## Trimming -/

/-- A text without the controls and spaces at its end. -/
def trimEnd (text : List Char) : List Char := text.rdropWhile (· ≤ ' ')

theorem trimEnd_of_forall {text : List Char} (h : ∀ c ∈ text, isPathChar c = true) :
    trimEnd text = text := by
  refine List.rdropWhile_eq_self_iff.2 fun hne hlast => ?_
  have hc := h _ (List.getLast_mem hne)
  simp only [isPathChar, Bool.and_eq_true, decide_eq_true_eq] at hc
  exact absurd hc.1.1.1.1 (Nat.not_lt.2 (of_decide_eq_true hlast))

/-- A character that counts keeps what stands in front of it. -/
theorem trimEnd_append {front : List Char} {c : Char} (hc : ¬ c ≤ ' ') (text : List Char) :
    trimEnd (front ++ c :: text) = front ++ c :: trimEnd text := by
  unfold trimEnd List.rdropWhile
  rw [List.reverse_append, List.reverse_cons, List.append_assoc, List.dropWhile_append]
  split
  · rename_i hempty
    have hnil : text.reverse.dropWhile (fun d => decide (d ≤ ' ')) = [] :=
      List.isEmpty_iff.1 hempty
    rw [hnil, List.singleton_append, List.dropWhile_cons_of_neg (by simpa using hc)]
    simp
  · simp

theorem trimControls_cons {c : Char} (hc : ¬ c ≤ ' ') (text : List Char) :
    trimControls (c :: text) = c :: trimEnd text := by
  have hfront : (c :: text).dropWhile (fun d => decide (d ≤ ' ')) = c :: text :=
    List.dropWhile_cons_of_neg (by simpa using hc)
  have hback : trimEnd ([] ++ c :: text) = [] ++ c :: trimEnd text := trimEnd_append hc text
  unfold trimControls
  rw [hfront]
  exact hback

/-! ## Plain file URLs -/

/-- A file URL without a host, with segments as reading leaves them; only the last one may be
empty if it is also the first. -/
structure IsPlainFile (u : Url) : Prop where
  scheme : u.scheme = bareFile.scheme
  authority : u.authority = some .empty
  segments : ∃ front last, u.location = .segments (front ++ [last]) ∧
    (∀ s ∈ front ++ [last], IsSegment s) ∧ front.head? ≠ some []

/-- The file URL of a path with names, none of which is two dots, is plain. -/
theorem isPlainFile_ofFilePath? {p : FilePath} {u : Url} (h : ofFilePath? p = some u)
    (habove : FilePath.above ∉ p.names) : u.IsPlainFile := by
  obtain ⟨-, hu⟩ := Option.ite_none_right_eq_some.1 h
  obtain rfl := Option.some.inj hu
  refine ⟨rfl, rfl, ?_⟩
  dsimp only
  have hname : ∀ name ∈ p.names, name ≠ [] ∧ IsSegment (encodeBytes inSegment name) := by
    intro name hname
    have hidle : FilePath.isIdle name = false := by simpa using (List.mem_filter.1 hname).2
    rw [FilePath.isIdle, Bool.or_eq_false_iff] at hidle
    have hne : name ≠ [] := by simpa using hidle.1
    have hhere : name ≠ FilePath.here := by simpa using hidle.2
    exact ⟨hne, isSegment_encodeBytes hhere fun heq => habove (heq ▸ hname)⟩
  rcases List.eq_nil_or_concat p.names with hnil | ⟨front, last, hnames⟩
  · refine ⟨[], [], by rw [hnil]; rfl, ?_, by simp⟩
    intro s hs
    rw [List.nil_append, List.mem_singleton] at hs
    exact hs ▸ isSegment_nil
  · refine ⟨front.map (encodeBytes inSegment), encodeBytes inSegment last, ?_, ?_, ?_⟩
    · rw [hnames]
      simp
    · intro s hs
      have hmem : s ∈ p.names.map (encodeBytes inSegment) := by rw [hnames]; simpa using hs
      obtain ⟨name, hin, rfl⟩ := List.mem_map.1 hmem
      exact (hname name hin).2
    · cases front with
      | nil => simp
      | cons name front =>
        have hne : name ≠ [] := (hname name (by rw [hnames]; simp)).1
        simpa using encodeBytes_ne_nil hne

/-! ## Reading behind a path -/

variable {front : List (List Char)}

theorem splitPath_joinSegments (h : ∀ s ∈ front, IsSegment s) (text : List Char) :
    splitPath (joinSegments front ++ '/' :: text) =
      (joinSegments front ++ '/' :: (splitPath text).1, (splitPath text).2) := by
  have hplain : ∀ c ∈ joinSegments front ++ ['/'], (c != '?' && c != '#') = true := by
    intro c hc
    rcases List.mem_append.1 hc with hc | hc
    · obtain ⟨s, hs, hc⟩ := List.mem_flatMap.1 hc
      rcases List.mem_cons.1 hc with rfl | hc
      · rfl
      · have hchar := (h s hs).chars c hc
        have hquestion : c ≠ '?' := ne_of_isPathChar hchar (by decide)
        have hsharp : c ≠ '#' := ne_of_isPathChar hchar (by decide)
        simp [hquestion, hsharp]
    · obtain rfl := List.mem_singleton.1 hc
      rfl
  have hsplit : joinSegments front ++ '/' :: text = (joinSegments front ++ ['/']) ++ text := by simp
  unfold splitPath
  rw [hsplit, List.span_eq_takeWhile_dropWhile, List.span_eq_takeWhile_dropWhile,
    List.takeWhile_append_of_pos hplain, List.dropWhile_append_of_pos hplain]
  simp

/-- A path read from the root behind an empty segment. -/
theorem readPath_joinSegments (h : ∀ s ∈ front, IsSegment s) (text : List Char) :
    readPath bareFile.scheme [[]] (joinSegments front ++ '/' :: text) =
      dropEmptyFront (addPieces true ([] :: front ++ [[]]) (Text.splitWhere isSlash text)) := by
  have hpieces : Text.splitWhere isSlash text ≠ [] := Text.splitWhere_ne_nil _ _
  have hfirst : addPiece true [[]] [] true = [[]] ++ [[]] := by decide
  have hmore : (!(front ++ Text.splitWhere isSlash text).isEmpty) = true := by
    simp [hpieces]
  unfold readPath
  rw [pathPieces_file, splitWhere_joinSegments h]
  show dropEmptyFront (addPieces true [[]] ([] :: (front ++ Text.splitWhere isSlash text))) = _
  rw [addPieces, hmore, hfirst, addPieces_append (List.cons_ne_nil _ _) h hpieces]
  rfl

/-- The text of a plain file URL with anything behind the path of its directory is read from the
root, without the controls and spaces at its end. -/
theorem parse_joinSegments (front : List (List Char)) (text : List Char) :
    parse ("file://".toList ++ (joinSegments front ++ '/' :: text)) =
      .ok (bareFile.withPath [[]] (joinSegments front ++ '/' :: trimEnd text)) := by
  have hslash : ¬ '/' ≤ ' ' := by decide
  have htrim : trimControls ("file://".toList ++ (joinSegments front ++ '/' :: text)) =
      "file:".toList ++ ("//".toList ++ (joinSegments front ++ '/' :: trimEnd text)) := by
    have hsplit : "file://".toList ++ (joinSegments front ++ '/' :: text) =
        'f' :: (("ile://".toList ++ joinSegments front) ++ '/' :: text) := by
      simp
    rw [hsplit, trimControls_cons (by decide), trimEnd_append hslash]
    simp
  have hroot : ∃ rest, joinSegments front ++ '/' :: trimEnd text = '/' :: rest := by
    cases front with
    | nil => exact ⟨_, rfl⟩
    | cons s front => exact ⟨_, rfl⟩
  obtain ⟨rest, hroot⟩ := hroot
  unfold parse read
  rw [htrim, hroot]
  rfl

/-- Query and fragment are all that a tail changes. -/
theorem exists_withTail_eq (u : Url) (input : List Char) :
    ∃ query fragment, u.withTail input = { u with query := query, fragment := fragment } := by
  unfold withTail
  dsimp only
  split
  · split <;> exact ⟨_, _, rfl⟩
  · exact ⟨_, _, rfl⟩
  · exact ⟨_, _, rfl⟩

/-- A path keeps scheme and authority. -/
theorem exists_withPath_eq (u : Url) (segs : List (List Char)) (input : List Char) :
    ∃ query fragment, u.withPath segs input = { u with
      location := .segments (readPath u.scheme segs (splitPath input).1)
      query := query
      fragment := fragment } := by
  unfold withPath
  exact exists_withTail_eq _ _

theorem isFile_withPath (u : Url) (segs : List (List Char)) (input : List Char) :
    (u.withPath segs input).isFile = u.isFile := by
  obtain ⟨query, fragment, hsame⟩ := exists_withPath_eq u segs input
  rw [hsame]
  rfl

theorem path_withPath (u : Url) (segs : List (List Char)) (input : List Char) :
    (u.withPath segs input).path = joinSegments (readPath u.scheme segs (splitPath input).1) := by
  unfold path withPath
  obtain ⟨query, fragment, htail⟩ := exists_withTail_eq
    { u with location := .segments (readPath u.scheme segs (splitPath input).1) }
    (withoutBreaks (splitPath input).2)
  dsimp only
  rw [htail]

/-- Empty segments are dropped in front of others only if those are empty, too. -/
theorem dropEmptyFront_append (hfirst : front.head? ≠ some []) (hne : front ≠ [])
    (back : List (List Char)) : dropEmptyFront ([] :: front ++ back) = front ++ back := by
  obtain ⟨f, front, rfl⟩ := List.exists_cons_of_ne_nil hne
  have hf : ¬ f.isEmpty = true := by simpa using hfirst
  unfold dropEmptyFront
  rw [List.cons_append, List.cons_append, List.dropWhile_cons_of_pos rfl,
    List.dropWhile_cons_of_neg hf]

theorem dropEmptyFront_ne_nil (segs : List (List Char)) : dropEmptyFront segs ≠ [] := by
  unfold dropEmptyFront
  split
  · exact List.cons_ne_nil _ _
  · rename_i hkept
    exact hkept

theorem slash_prefix_joinSegments {segs : List (List Char)} (h : segs ≠ []) :
    ['/'] <+: joinSegments segs := by
  obtain ⟨s, segs, rfl⟩ := List.exists_cons_of_ne_nil h
  exact ⟨s ++ joinSegments segs, rfl⟩

/-- Whether a text that stands behind the path of a directory leads above that directory on its
way: a piece of its path, without the characters that do not count, stands for the directory
above. -/
def leadsAbove (text : List Char) : Bool :=
  (pathPieces bareFile.scheme (splitPath (trimEnd text)).1).any fun piece =>
    isDoubleDot (encode inPath (withoutBreaks piece))

/-- **What is read behind a path** stays behind it if no piece of it leads above. -/
theorem path_prefix_of_parse (h : ∀ s ∈ front, IsSegment s) (hfirst : front.head? ≠ some [])
    {text : List Char} {u : Url}
    (hparse : parse ("file://".toList ++ (joinSegments front ++ '/' :: text)) = .ok u)
    (hstays : leadsAbove text = false) : joinSegments front ++ ['/'] <+: u.path := by
  rw [parse_joinSegments] at hparse
  obtain rfl := Except.ok.inj hparse
  rw [path_withPath, splitPath_joinSegments h]
  have hpieces : ∀ piece ∈ Text.splitWhere isSlash (splitPath (trimEnd text)).1,
      isDoubleDot (encode inPath (withoutBreaks piece)) = false := by
    intro piece hpiece
    exact Bool.of_not_eq_true (List.any_eq_false.1 hstays piece hpiece)
  show _ <+: joinSegments (readPath bareFile.scheme [[]] _)
  rw [readPath_joinSegments h]
  obtain ⟨back, hread, hback⟩ :=
    exists_append_of_addPieces (List.cons_ne_nil [] front) (List.cons_ne_nil [] []) hpieces
  rw [hread]
  by_cases hne : front = []
  · subst hne
    exact slash_prefix_joinSegments (dropEmptyFront_ne_nil _)
  · rw [dropEmptyFront_append hfirst hne, joinSegments_append]
    exact (List.prefix_append_right_inj _).2 (slash_prefix_joinSegments hback)

/-- The text of a file URL without a host. -/
theorem href_eq_append {u : Url} (hscheme : u.scheme = bareFile.scheme)
    (hauthority : u.authority = some .empty) :
    u.href = "file://".toList ++ (u.path ++ ((u.query.map ('?' :: ·)).getD []
      ++ (u.fragment.map ('#' :: ·)).getD [])) := by
  unfold href beforePath
  rw [hscheme, hauthority]
  simp [bareFile, renderAuthority, renderUserInfo, Authority.empty]

/-- **The text of a plain file URL** is read back. -/
theorem parse_href {u : Url} (h : u.IsPlainFile) (hquery : u.query = none)
    (hfragment : u.fragment = none) : parse u.href = .ok u := by
  obtain ⟨front, last, hlocation, hsegs, hfirst⟩ := h.segments
  obtain ⟨scheme, authority, location, query, fragment⟩ := u
  obtain rfl : scheme = bareFile.scheme := h.scheme
  obtain rfl : authority = some .empty := h.authority
  dsimp only at hlocation hquery hfragment
  subst hlocation hquery hfragment
  have hfront : ∀ s ∈ front, IsSegment s := fun s hs => hsegs s (List.mem_append_left _ hs)
  have hlast : IsSegment last := hsegs last (by simp)
  have hhref : href ⟨bareFile.scheme, some .empty, .segments (front ++ [last]), none, none⟩ =
      "file://".toList ++ (joinSegments front ++ '/' :: last) := by
    rw [href_eq_append h.scheme h.authority]
    simp [path, joinSegments_append, joinSegments_singleton]
  have hsplit : splitPath last = (last, []) := by
    have hplain : ∀ c ∈ last, (c != '?' && c != '#') = true := by
      intro c hc
      have hquestion : c ≠ '?' := ne_of_isPathChar (hlast.chars c hc) (by decide)
      have hsharp : c ≠ '#' := ne_of_isPathChar (hlast.chars c hc) (by decide)
      simp [hquestion, hsharp]
    unfold splitPath
    rw [List.span_eq_takeWhile_dropWhile, List.takeWhile_eq_self_iff.2 hplain,
      List.dropWhile_eq_nil_iff.2 hplain]
  have hread : readPath bareFile.scheme [[]] (joinSegments front ++ '/' :: last) =
      front ++ [last] := by
    rw [readPath_joinSegments hfront, Text.splitWhere_of_forall fun c hc =>
      isSlash_of_isPathChar (hlast.chars c hc)]
    show dropEmptyFront (addPieces true ([] :: front ++ [[]]) ([] ++ [last])) = _
    rw [addPieces_segments (List.cons_ne_nil _ _) (fun s hs => absurd hs List.not_mem_nil) hlast]
    by_cases hne : front = []
    · subst hne
      cases last <;> rfl
    · exact dropEmptyFront_append hfirst hne _
  rw [hhref, parse_joinSegments, trimEnd_of_forall hlast.chars]
  unfold withPath
  rw [splitPath_joinSegments hfront, hsplit]
  show Except.ok (withTail { bareFile with location := .segments (readPath bareFile.scheme [[]] _) }
    (withoutBreaks [])) = _
  rw [hread]
  rfl

/-! ## Beside a plain file URL -/

/-- A dot starts no scheme. -/
theorem splitScheme?_dotCons (text : List Char) : splitScheme? ('.' :: text) = none := by
  unfold splitScheme?
  rw [List.span_eq_takeWhile_dropWhile, List.takeWhile_cons_of_pos (by decide)]
  dsimp only
  split
  · rename_i c s r hscheme _
    rw [withoutBreaks, List.filter_cons_of_pos (by decide)] at hscheme
    obtain ⟨rfl, -⟩ := List.cons.inj hscheme
    rfl
  · rfl

theorem startsWithDriveLetter_dotCons (text : List Char) :
    startsWithDriveLetter ('.' :: text) = false := by
  unfold startsWithDriveLetter
  split
  · rename_i heq
    obtain ⟨rfl, -⟩ := List.cons.inj heq
    rfl
  · rename_i heq
    obtain ⟨rfl, -⟩ := List.cons.inj heq
    rfl
  · rfl

/-- A reference that starts with a dot is read behind the directory of a file URL. -/
theorem join_dotCons {base : Url} (h : base.IsPlainFile) (text : List Char) :
    base.join ('.' :: text) = .ok (base.withPath (clearLast true base.segments)
      ('.' :: trimEnd text)) := by
  obtain ⟨front, last, hlocation, -, -⟩ := h.segments
  have hfile : base.isFile = true := by
    unfold isFile
    rw [h.scheme]
    rfl
  have hopaque : base.isOpaque = false := by
    unfold isOpaque segments?
    rw [hlocation]
    rfl
  have hplain : withoutBreaks ('.' :: trimEnd text) = '.' :: withoutBreaks (trimEnd text) :=
    List.filter_cons_of_pos rfl
  unfold join read
  dsimp only
  rw [trimControls_cons (by decide), splitScheme?_dotCons]
  show readReference base ('.' :: trimEnd text) = _
  unfold readReference
  rw [hplain, hopaque, hfile]
  show readFile (some base) ('.' :: trimEnd text) = _
  unfold readFile
  rw [List.dropWhile_cons_of_neg (by decide)]
  show (if startsWithDriveLetter (withoutBreaks ('.' :: trimEnd text)) = true then _ else _) = _
  rw [hplain, startsWithDriveLetter_dotCons]
  rfl

theorem addPiece_dot {segs : List (List Char)} (hdrive : ∀ d, segs = [d] →
    isNormalDriveLetter d = false) (slash : Bool) :
    addPiece true segs ['.'] slash = openLast segs := by
  have hbroken : (if true && segs == [[]] then brokenDrive? ['.'] else none) = none := by
    split <;> rfl
  unfold addPiece
  rw [hbroken]
  show addSegment true segs ['.'] slash = _
  unfold addSegment
  split
  · rename_i d
    rw [hdrive d rfl]
    rfl
  · rfl

/-- The directory of a plain file URL. -/
theorem join_dot {base : Url} (h : base.IsPlainFile) :
    ∃ front dir, base.join ['.'] = .ok dir ∧ dir.href = "file://".toList ++ dir.path ∧
      dir.path = joinSegments front ++ ['/'] ∧
      (∀ s ∈ front, IsSegment s) ∧ front.head? ≠ some [] := by
  obtain ⟨front, last, hlocation, hsegs, hfirst⟩ := h.segments
  have hhref : (base.withPath (clearLast true base.segments) ('.' :: trimEnd [])).href =
      "file://".toList ++
        (base.withPath (clearLast true base.segments) ('.' :: trimEnd [])).path := by
    have happend := href_eq_append (u := base.withPath (clearLast true base.segments) ['.'])
      h.scheme h.authority
    exact happend.trans (congrArg _ (List.append_nil _))
  have hpath : (base.withPath (clearLast true base.segments) ('.' :: trimEnd [])).path =
      joinSegments
        (dropEmptyFront (addPiece true (clearLast true (front ++ [last])) ['.'] false)) := by
    have hbase : base.segments = front ++ [last] := by
      unfold segments segments?
      rw [hlocation]
      rfl
    rw [path_withPath, h.scheme, hbase]
    rfl
  have hopen : ∀ dir : List (List Char), dir.head? ≠ some [] →
      joinSegments (dropEmptyFront (dir ++ [[]])) = joinSegments dir ++ ['/'] := by
    intro dir hdir
    cases dir with
    | nil => rfl
    | cons d dir =>
      have hd : ¬ d.isEmpty = true := by simpa using hdir
      rw [dropEmptyFront, List.cons_append, List.dropWhile_cons_of_neg hd]
      exact joinSegments_append (d :: dir) [[]]
  cases hdrive : isNormalDriveLetter last with
  | false =>
    refine ⟨front, _, join_dotCons h [], hhref, ?_,
      fun s hs => hsegs s (List.mem_append_left _ hs), hfirst⟩
    have hclear : clearLast true (front ++ [last]) = front ++ [[]] := by
      simp [clearLast, hdrive]
    have hstay : addPiece true (front ++ [[]]) ['.'] false = front ++ [[]] := by
      rw [addPiece_dot]
      · simp [openLast]
      · intro d hd
        cases front with
        | nil => exact (List.cons.inj hd).1 ▸ rfl
        | cons f front => simp at hd
    rw [hpath, hclear, hstay, hopen front hfirst]
  | true =>
    have hlast : last ≠ [] := by
      rintro rfl
      cases hdrive
    have hdir : (front ++ [last]).head? ≠ some [] := by
      cases front with
      | nil => simpa using hlast
      | cons f front => exact hfirst
    refine ⟨front ++ [last], _, join_dotCons h [], hhref, ?_, hsegs, hdir⟩
    have hclear : clearLast true (front ++ [last]) = front ++ [last] := by
      simp [clearLast, hdrive]
    have hstay : addPiece true (front ++ [last]) ['.'] false = front ++ [last] ++ [[]] := by
      cases front with
      | nil =>
        have hbroken : (if true && [last] == [[]] then brokenDrive? ['.'] else none) = none := by
          split <;> rfl
        unfold addPiece
        rw [List.nil_append, hbroken]
        show addSegment true [last] ['.'] false = _
        unfold addSegment
        simp only [hdrive]
        rfl
      | cons f front =>
        rw [addPiece_dot (by simp)]
        have hopened : (f :: front ++ [last]).getLast? ≠ some [] := by
          rw [List.getLast?_concat]
          simpa using hlast
        simp only [openLast, beq_iff_eq, if_neg hopened]
    rw [hpath, hclear, hstay, hopen _ hdir]

end EsModules.Url
