import EsModules.Proofs.Resolution.Answers
import EsModules.Proofs.Text.Pieces

/-!
# Real paths

In a file tree as a file system keeps one, every entry lies in a directory under a name that an
entry can have.  There the path of a regular file without links and dots leads to that file again,
so a real path is its own real path.

* `FileTree.IsWellFormed`: file trees as a file system keeps them.
* `FilePath.names_ofNames`: the names of a path put together from names.
* `FileTree.locate_ofNames`: the path of an entry that is no link leads to that entry.
* `FileTree.IsReal`, `FileTree.isReal_of_realPath`: real paths of regular files are real.
-/

namespace EsModules

/-! ## Names -/

namespace FilePath

/-- Whether an entry of a directory can have a name: it has at most 255 bytes, none of them a
slash or a zero, and is neither empty nor one of the dots. -/
def isName (name : FilePath) : Bool :=
  !isIdle name && name != above && !name.contains slash && !name.contains 0
    && name.length ≤ FileTree.maxName

variable {name : FilePath} {ns : List FilePath}

theorem isIdle_of_isName (h : isName name = true) : isIdle name = false := by
  simp only [isName, Bool.and_eq_true, Bool.not_eq_true'] at h
  exact h.1.1.1.1

theorem ne_above_of_isName (h : isName name = true) : name ≠ above := by
  simp only [isName, Bool.and_eq_true, bne_iff_ne] at h
  exact h.1.1.1.2

theorem ne_here_of_isName (h : isName name = true) : name ≠ here := by
  have hidle := isIdle_of_isName h
  rw [isIdle, Bool.or_eq_false_iff] at hidle
  simpa using hidle.2

theorem ne_nil_of_isName (h : isName name = true) : name ≠ [] := by
  rintro rfl
  cases h

theorem slash_notMem_of_isName (h : isName name = true) : slash ∉ name := by
  simp only [isName, Bool.and_eq_true, Bool.not_eq_true', List.contains_eq_mem,
    decide_eq_false_iff_not] at h
  exact h.1.1.2

theorem zero_notMem_of_isName (h : isName name = true) : 0 ∉ name := by
  simp only [isName, Bool.and_eq_true, Bool.not_eq_true', List.contains_eq_mem,
    decide_eq_false_iff_not] at h
  exact h.1.2

theorem length_le_of_isName (h : isName name = true) : name.length ≤ FileTree.maxName := by
  simp only [isName, Bool.and_eq_true, decide_eq_true_eq] at h
  exact h.2

/-- A piece of a path that names something. -/
structure IsPiece (piece : FilePath) : Prop where
  notIdle : isIdle piece = false
  noSlash : slash ∉ piece

theorem isPiece_of_isName (h : isName name = true) : IsPiece name :=
  ⟨isIdle_of_isName h, slash_notMem_of_isName h⟩

theorem IsPiece.ne_nil (h : IsPiece name) : name ≠ [] := by
  rintro rfl
  cases h.notIdle

/-! ## Paths put together from names -/

theorem ofNames_of_ne_nil (h : ns ≠ []) : ofNames ns = ns.flatMap (slash :: ·) := by
  unfold ofNames
  rw [if_neg (by simpa using h)]

theorem isAbsolute_ofNames (ns : List FilePath) : (ofNames ns).isAbsolute = true := by
  cases ns <;> rfl

theorem pieces_ofNames (hne : ns ≠ []) (h : ∀ n ∈ ns, slash ∉ n) :
    (ofNames ns).pieces = [] :: ns := by
  have hcut : ∀ n ∈ ns, ∀ b ∈ n, (b == slash) = false := by
    intro n hn b hb
    simpa using ne_of_mem_of_not_mem hb (h n hn)
  obtain ⟨front, last, rfl⟩ := List.eq_nil_or_concat' ns |>.resolve_left hne
  have hlast : Text.splitWhere (· == slash) last = [last] :=
    Text.splitWhere_of_forall (hcut last (by simp))
  have hsplit := Text.splitWhere_flatMap (a := slash) rfl
    (fun n hn => hcut n (List.mem_append_left [last] hn)) last
  rw [ofNames_of_ne_nil hne, pieces]
  rw [hlast] at hsplit
  simpa using hsplit

/-- **Pieces** put together to a path are the names of that path. -/
theorem names_ofPieces (h : ∀ n ∈ ns, IsPiece n) : (ofNames ns).names = ns := by
  by_cases hne : ns = []
  · subst hne
    rfl
  · have hkeep : ns.filter (fun n => !isIdle n) = ns := by
      refine List.filter_eq_self.2 fun n hn => ?_
      rw [(h n hn).notIdle]
      rfl
    rw [names, pieces_ofNames hne fun n hn => (h n hn).noSlash,
      List.filter_cons_of_neg (by decide), hkeep]

/-- **Names** put together to a path are the names of that path. -/
theorem names_ofNames (h : ∀ n ∈ ns, isName n = true) : (ofNames ns).names = ns :=
  names_ofPieces fun n hn => isPiece_of_isName (h n hn)

theorem mem_ofNames {b : UInt8} (h : b ∈ ofNames ns) : b = slash ∨ ∃ n ∈ ns, b ∈ n := by
  by_cases hne : ns = []
  · subst hne
    exact .inl (List.mem_singleton.1 h)
  · rw [ofNames_of_ne_nil hne] at h
    obtain ⟨n, hn, hb⟩ := List.mem_flatMap.1 h
    exact (List.mem_cons.1 hb).imp id fun hb => ⟨n, hn, hb⟩

end FilePath

namespace FileTree

open FilePath

variable {t : FileTree} {place : List FilePath} {e : Entry}

/-- A path ends in a slash when its last piece is empty. -/
theorem getLast?_ofNames {ns : List FilePath} (hne : ns ≠ []) (h : ∀ n ∈ ns, slash ∉ n) :
    (ofNames ns).getLast? = some slash ↔ ns.getLast? = some [] := by
  obtain ⟨front, last, rfl⟩ := List.eq_nil_or_concat' ns |>.resolve_left hne
  have hpath : ofNames (front ++ [last]) = front.flatMap (slash :: ·) ++ slash :: last := by
    rw [ofNames_of_ne_nil hne]
    simp
  rw [hpath, List.getLast?_concat, Option.some.injEq]
  rcases List.eq_nil_or_concat' last with rfl | ⟨init, b, hend⟩
  · simp
  · have hb : b ≠ slash := by
      rintro rfl
      exact h last (by simp) (by simp [hend])
    have hlonger : front.flatMap (slash :: ·) ++ slash :: last =
        (front.flatMap (slash :: ·) ++ slash :: init) ++ [b] := by simp [hend]
    rw [hlonger, List.getLast?_concat]
    simp [hb, hend]

/-- The steps that a path put together from pieces asks for are those that are not empty; an empty
one at the end asks for a directory. -/
theorem steps_ofNames {ns : List FilePath} (hne : ns ≠ []) (h : ∀ n ∈ ns, slash ∉ n) :
    steps (ofNames ns) = ns.filter (fun n => !n.isEmpty) ++
      (if ns.getLast? = some [] then [here] else []) := by
  unfold steps
  rw [pieces_ofNames hne h, List.filter_cons_of_neg (by simp)]
  by_cases hlast : ns.getLast? = some []
  · rw [if_pos hlast, if_pos (by simpa using (getLast?_ofNames hne h).2 hlast)]
  · rw [if_neg hlast, if_neg (by simpa using mt (getLast?_ofNames hne h).1 hlast),
      List.append_nil]

/-- The steps that a path put together from names asks for are these names. -/
theorem steps_ofNames_of_isName (hne : place ≠ []) (h : ∀ n ∈ place, isName n = true) :
    steps (ofNames place) = place := by
  have hkeep : place.filter (fun n => !n.isEmpty) = place := by
    refine List.filter_eq_self.2 fun n hn => ?_
    simpa using ne_nil_of_isName (h n hn)
  have hlast : place.getLast? ≠ some [] := fun hlast =>
    ne_nil_of_isName (h _ (List.mem_of_getLast? hlast)) rfl
  rw [steps_ofNames hne fun n hn => slash_notMem_of_isName (h n hn), hkeep, if_neg hlast,
    List.append_nil]

/-! ## Trees -/

/-- A file tree as a file system keeps one: every entry has names that entries can have, and lies
in a directory. -/
structure IsWellFormed (t : FileTree) : Prop where
  named : ∀ e ∈ t.entries, ∀ n ∈ e.1, isName n = true
  inDirectory : ∀ e ∈ t.entries, t.find? e.1.dropLast = some .directory

namespace IsWellFormed

theorem isName_of_find? (h : t.IsWellFormed) (hfind : t.find? place = some e) :
    ∀ n ∈ place, isName n = true := by
  rcases eq_nil_or_mem_of_find? hfind with rfl | hmem
  · exact fun n hn => absurd hn List.not_mem_nil
  · obtain ⟨entry, hentry, rfl⟩ := List.mem_map.1 hmem
    exact h.named entry hentry

theorem find?_dropLast (h : t.IsWellFormed) (hfind : t.find? place = some e) :
    t.find? place.dropLast = some .directory := by
  rcases eq_nil_or_mem_of_find? hfind with rfl | hmem
  · rfl
  · obtain ⟨entry, hentry, rfl⟩ := List.mem_map.1 hmem
    exact h.inDirectory entry hentry

/-- Above an entry there are only directories. -/
theorem find?_of_append (h : t.IsWellFormed) {front : List FilePath} {n : FilePath}
    {back : List FilePath} (hfind : t.find? (front ++ n :: back) = some e) :
    t.find? front = some .directory := by
  induction hback : back.length generalizing n back e with
  | zero =>
    obtain rfl := List.length_eq_zero_iff.1 hback
    have habove := h.find?_dropLast hfind
    rwa [List.dropLast_concat] at habove
  | succ k ih =>
    have hne : back ≠ [] := by
      rintro rfl
      cases hback
    have habove := h.find?_dropLast hfind
    rw [List.dropLast_append_of_ne_nil (List.cons_ne_nil n back),
      List.dropLast_cons_of_ne_nil hne] at habove
    refine ih habove ?_
    rw [List.length_dropLast, hback]
    rfl

end IsWellFormed

/-! ## Walks -/

/-- A walk along the names of an entry that is no link ends at that entry. -/
theorem walkWith_of_find? (h : t.IsWellFormed) (followLast : Bool)
    (follow : FilePath → List FilePath → List FilePath → Except IoError (List FilePath))
    (hlink : ∀ target, e ≠ .link target) {front back : List FilePath}
    (hfind : t.find? (front ++ back) = some e) :
    t.walkWith followLast follow front back = .ok (front ++ back) := by
  induction back generalizing front with
  | nil => rw [walkWith, List.append_nil]
  | cons n back ih =>
    have hdir : t.find? front = some .directory := h.find?_of_append hfind
    have hname : isName n = true := h.isName_of_find? hfind n (by simp)
    have hhere : (n == here) = false := by simpa using ne_here_of_isName hname
    have habove : (n == above) = false := by simpa using ne_above_of_isName hname
    have hlength : ¬ n.length > maxName := Nat.not_lt.2 (length_le_of_isName hname)
    have hsplit : front ++ n :: back = (front ++ [n]) ++ back := by simp
    rw [hsplit] at hfind
    have hnext := ih hfind
    unfold walkWith
    rw [hdir, hhere, habove, if_neg hlength]
    simp only [bne_self_eq_false, Bool.false_eq_true, if_false]
    cases back with
    | nil =>
      rw [List.append_nil] at hfind hnext
      rw [hfind]
      cases e with
      | link target => exact absurd rfl (hlink target)
      | file content => exact hnext
      | directory => exact hnext
    | cons m back =>
      rw [h.find?_of_append hfind]
      dsimp only
      rw [hnext, List.append_assoc]
      rfl

/-- **The path of an entry** that is no link leads to that entry. -/
theorem locate_ofNames (h : t.IsWellFormed) (hlink : ∀ target, e ≠ .link target)
    (hfind : t.find? place = some e) (hlength : (ofNames place).length < maxPath) :
    t.locate (ofNames place) = .ok place := by
  have hnames := h.isName_of_find? hfind
  have hzero : (ofNames place).contains 0 = false := by
    rw [← Bool.not_eq_true, List.contains_iff_mem]
    intro hmem
    rcases mem_ofNames hmem with hslash | ⟨n, hn, hb⟩
    · cases hslash
    · exact zero_notMem_of_isName (hnames n hn) hb
  have hempty : (ofNames place).isEmpty = false := by
    cases place <;> rfl
  unfold locate
  rw [hzero, hempty, if_neg (Nat.not_le.2 hlength), isAbsolute_ofNames]
  by_cases hne : place = []
  · subst hne
    rfl
  · rw [steps_ofNames_of_isName hne hnames]
    exact walkWith_of_find? h true _ hlink hfind

/-! ## Regular files -/

/-- The path of a regular file without links and dots. -/
def IsReal (t : FileTree) (p : FilePath) : Prop := t.isFile p = true ∧ t.realPath p = .ok p

theorem exists_find?_of_isFile {p : FilePath} (h : t.isFile p = true) :
    ∃ place content, t.locate p = .ok place ∧ t.find? place = some (.file content) := by
  unfold isFile stat at h
  cases hplace : t.locate p with
  | error e => rw [hplace] at h; cases h
  | ok place =>
    rw [hplace] at h
    dsimp only at h
    cases hfind : t.find? place with
    | none => rw [hfind] at h; cases h
    | some e =>
      rw [hfind] at h
      cases e with
      | file content => exact ⟨place, content, rfl, hfind⟩
      | directory => cases h
      | link target => cases h

/-- What is real is put together from the names of a regular file. -/
theorem IsReal.exists_find? {p : FilePath} (h : t.IsReal p) :
    ∃ place content, p = ofNames place ∧ t.find? place = some (.file content) := by
  obtain ⟨place, content, hplace, hfind⟩ := exists_find?_of_isFile h.1
  obtain ⟨place', hplace', hp, -⟩ := realPath_eq_ok.1 h.2
  obtain rfl : place = place' := Except.ok.inj (hplace.symm.trans hplace')
  exact ⟨place, content, hp, hfind⟩

/-- **The real path** of a regular file is real. -/
theorem isReal_of_realPath (h : t.IsWellFormed) {p real : FilePath} (hfile : t.isFile p = true)
    (hreal : t.realPath p = .ok real) : t.IsReal real := by
  obtain ⟨place, content, hplace, hfind⟩ := exists_find?_of_isFile hfile
  obtain ⟨place', hplace', rfl, hlength⟩ := realPath_eq_ok.1 hreal
  obtain rfl : place = place' := Except.ok.inj (hplace.symm.trans hplace')
  have hlocate : t.locate (ofNames place) = .ok place := locate_ofNames h (by simp) hfind hlength
  refine ⟨?_, realPath_eq_ok.2 ⟨place, hlocate, rfl, hlength⟩⟩
  unfold isFile stat
  rw [hlocate]
  dsimp only
  rw [hfind]

end FileTree

end EsModules
