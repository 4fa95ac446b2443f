import EsModules.Module.Importable
import EsModules.Proofs.Resolution.Search
import EsModules.Proofs.Text.Pieces
import Mathlib.Data.List.TakeDrop
import Mathlib.Data.List.TakeWhile

/-!
# Importable files

Node loads some files whatever their package says, so that such a file can be imported without a
look at its content or at a manifest.  But a specifier is asked for its protocol before it is
resolved, and a path with a colon in it has one: then the answer is given before the file is found.

* `Id.protocol?_eq_some_iff`: what is read as the protocol of an id.
* `Location.extension_eq_cons_iff`: what the extension of a location is.
* `Location.extension_mem_nativeExtensions_iff`: which files are loaded whatever their package says.
* `ImportPolicy.allows_native`: by which specifiers such a file can be imported.
-/

namespace EsModules

/-! ## Protocols -/

namespace Id

variable {id protocol : List Char}

/-- An id is read as a protocol with something behind it: the protocol ends in front of the first
colon behind two characters, and no line ends in the id. -/
structure ReadsProtocol (id protocol : List Char) : Prop where
  oneLine : ∀ c ∈ id, c ≠ '\n' ∧ c ≠ '\r' ∧ c ≠ '\u2028' ∧ c ≠ '\u2029'
  eq_append : ∃ rest, rest ≠ [] ∧ id = protocol ++ ':' :: rest
  two_le : 2 ≤ protocol.length
  noColon : ':' ∉ protocol.drop 2

/-- The test for a line end, as it is stated. -/
theorem any_lineEnd_eq_false_iff :
    (id.any fun c => c == '\n' || c == '\r' || c == '\u2028' || c == '\u2029') = false ↔
      ∀ c ∈ id, c ≠ '\n' ∧ c ≠ '\r' ∧ c ≠ '\u2028' ∧ c ≠ '\u2029' := by
  simp [List.any_eq_false, and_assoc]

/-- **The protocol of an id** is the one that it is read as. -/
theorem protocol?_eq_some_iff : protocol? id = some protocol ↔ ReadsProtocol id protocol := by
  unfold protocol?
  constructor
  · intro h
    split at h
    · cases h
    rename_i hlines
    rw [List.span_eq_takeWhile_dropWhile] at h
    dsimp only at h
    split at h
    · rename_i c d rest hrest
      obtain rfl := Option.some.inj h
      have hcolon : c = ':' := by
        have hhead := List.head?_dropWhile_not (· != ':') (id.drop 2)
        rw [hrest] at hhead
        simpa using hhead
      subst hcolon
      have hbehind : 2 < id.length := Nat.lt_of_not_le fun hle => by
        rw [List.drop_eq_nil_of_le hle] at hrest
        cases hrest
      have hlong : 2 ≤ (id.take 2).length := by
        rw [List.length_take]
        omega
      refine ⟨any_lineEnd_eq_false_iff.1 (Bool.of_not_eq_true hlines), ⟨d :: rest, by simp, ?_⟩,
        by rw [List.length_append]; omega, ?_⟩
      · rw [List.append_assoc, ← hrest, List.takeWhile_append_dropWhile,
          List.take_append_drop]
      · rw [List.drop_append_of_le_length hlong, List.drop_eq_nil_of_le (List.length_take_le 2 id),
          List.nil_append]
        intro hmem
        simpa using List.mem_takeWhile_imp hmem
    · cases h
  · rintro ⟨hlines, ⟨rest, hrest, rfl⟩, hlong, hcolon⟩
    have htake : (protocol ++ ':' :: rest).take 2 = protocol.take 2 :=
      List.take_append_of_le_length hlong
    have hdrop : (protocol ++ ':' :: rest).drop 2 = protocol.drop 2 ++ ':' :: rest :=
      List.drop_append_of_le_length hlong
    have hplain : ∀ c ∈ protocol.drop 2, (c != ':') = true := by
      intro c hc
      exact bne_iff_ne.2 fun heq => hcolon (heq ▸ hc)
    obtain ⟨d, rest, rfl⟩ := List.exists_cons_of_ne_nil hrest
    rw [if_neg (by rw [any_lineEnd_eq_false_iff.2 hlines]; exact Bool.false_ne_true),
      List.span_eq_takeWhile_dropWhile, htake, hdrop, List.takeWhile_append_of_pos hplain,
      List.dropWhile_append_of_pos hplain]
    simp

end Id

/-! ## Extensions -/

namespace Location

variable {cs name after path : List Char}

/-- A last segment stands behind the last slash, or there is no slash. -/
theorem lastSegment_eq_iff : lastSegment cs = name ↔
    '/' ∉ name ∧ ∃ dir, cs = dir ++ name ∧ ∀ c ∈ dir.getLast?, c = '/' := by
  unfold lastSegment
  constructor
  · rintro rfl
    refine ⟨fun hmem => ?_, (cs.reverse.dropWhile (· != '/')).reverse, ?_, fun c hc => ?_⟩
    · simpa using List.mem_takeWhile_imp (List.mem_reverse.1 hmem)
    · rw [← List.reverse_append, List.takeWhile_append_dropWhile, List.reverse_reverse]
    · rw [List.getLast?_reverse] at hc
      have hhead := List.head?_dropWhile_not (· != '/') cs.reverse
      rw [Option.mem_def.1 hc] at hhead
      simpa using hhead
  · rintro ⟨hname, dir, rfl, hdir⟩
    have hplain : ∀ c ∈ name.reverse, (c != '/') = true := by
      intro c hc
      exact bne_iff_ne.2 fun heq => hname (heq ▸ List.mem_reverse.1 hc)
    have hstop : ∀ c ∈ dir.reverse.head?, (c != '/') = false := by
      intro c hc
      rw [hdir c (List.head?_reverse ▸ hc)]
      rfl
    rw [List.reverse_append, Text.takeWhile_append_stop hplain hstop, List.reverse_reverse]

/-- **An extension** starts at the last dot of the last segment, if something stands in front of
that dot. -/
theorem extension_eq_cons_iff : extension cs = '.' :: after ↔
    '.' ∉ after ∧ ∃ stem, stem ≠ [] ∧ lastSegment cs = stem ++ '.' :: after := by
  unfold extension
  constructor
  · intro h
    dsimp only at h
    split at h
    · cases h
    · cases h
    · rename_i stem after' hstem hsplit
      obtain rfl := List.tail_eq_of_cons_eq h
      obtain ⟨hname, hdot⟩ := Text.splitLast_char_eq_some_iff.1 hsplit
      exact ⟨hdot, stem, hstem, hname⟩
  · rintro ⟨hdot, stem, hstem, hname⟩
    have hsplit := Text.splitLast_char_eq_some_iff.2 ⟨hname, hdot⟩
    obtain ⟨c, stem, rfl⟩ := List.exists_cons_of_ne_nil hstem
    simp only [hsplit]

/-- A path that ends in the name of a native file: something in front of one of the extensions. -/
def IsNative (path : List Char) : Prop :=
  ∃ dir stem extension, path = dir ++ (stem ++ extension) ∧
    (∀ c ∈ dir.getLast?, c = '/') ∧ stem ≠ [] ∧ '/' ∉ stem ∧
    extension ∈ ImportPolicy.nativeExtensions

/-- An extension of a native file has one dot, and that in front. -/
theorem eq_cons_of_mem_nativeExtensions {e : List Char} (h : e ∈ ImportPolicy.nativeExtensions) :
    ∃ after, e = '.' :: after ∧ '.' ∉ after ∧ '/' ∉ after := by
  have hall : ∀ e ∈ ImportPolicy.nativeExtensions,
      e = '.' :: e.tail ∧ '.' ∉ e.tail ∧ '/' ∉ e.tail := by decide
  exact ⟨e.tail, hall e h⟩

/-- **The files that are loaded whatever their package says** are told by their extension. -/
theorem extension_mem_nativeExtensions_iff :
    extension path ∈ ImportPolicy.nativeExtensions ↔ IsNative path := by
  constructor
  · intro h
    obtain ⟨after, hafter, -, -⟩ := eq_cons_of_mem_nativeExtensions h
    obtain ⟨-, stem, hstem, hname⟩ := extension_eq_cons_iff.1 hafter
    obtain ⟨hslash, dir, hpath, hdir⟩ := lastSegment_eq_iff.1 hname
    refine ⟨dir, stem, extension path, ?_, hdir, hstem, ?_, h⟩
    · rw [hafter]
      exact hpath
    · exact fun hmem => hslash (List.mem_append_left _ hmem)
  · rintro ⟨dir, stem, e, hpath, hdir, hstem, hslash, he⟩
    obtain ⟨after, rfl, hdot, hplain⟩ := eq_cons_of_mem_nativeExtensions he
    have hname : lastSegment path = stem ++ '.' :: after :=
      lastSegment_eq_iff.2 ⟨by simp [hslash, hplain], dir, hpath, hdir⟩
    rwa [extension_eq_cons_iff.2 ⟨hdot, stem, hstem, hname⟩]

end Location

/-! ## Importing native files -/

namespace ImportPolicy

variable {policy : ImportPolicy} {r : Resolver} {tree : FileTree} {id path protocol : List Char}

/-- A specifier of a path: it starts with a slash, or with one or two dots and a slash. -/
def IsPathSpecifier (id : List Char) : Prop :=
  "./".toList <+: id ∨ "../".toList <+: id ∨ "/".toList <+: id

/-- What is read as the protocol of a path starts with a dot or a slash, as none of the protocols
does that are usually allowed. -/
theorem notMem_usualProtocols_of_isPathSpecifier (hid : IsPathSpecifier id)
    (h : Id.ReadsProtocol id protocol) : protocol ∉ usualProtocols := by
  have husual : ∀ p ∈ usualProtocols, p.head? ≠ some '.' ∧ p.head? ≠ some '/' := by decide
  intro hmem
  obtain ⟨rest, -, happend⟩ := h.eq_append
  cases protocol with
  | nil => exact absurd h.two_le (by decide)
  | cons c protocol =>
    obtain ⟨hdot, hslash⟩ := husual _ hmem
    rw [happend] at hid
    rcases hid with hid | hid | hid
    · exact hdot (congrArg some (List.cons_prefix_cons.1 hid).1.symm)
    · exact hdot (congrArg some (List.cons_prefix_cons.1 hid).1.symm)
    · exact hslash (congrArg some (List.cons_prefix_cons.1 hid).1.symm)

/-- What a path answers before it is resolved. -/
theorem decideId?_path (hprotocols : policy.protocols = usualProtocols) (hid : IsPathSpecifier id)
    (builtins : Builtins) : policy.decideId? builtins id =
      if builtins.contains id then some true
      else (Id.protocol? id).map fun _ => false := by
  unfold decideId?
  rw [hprotocols]
  cases hprotocol : Id.protocol? id with
  | none => rfl
  | some protocol =>
    have hnot := notMem_usualProtocols_of_isPathSpecifier hid
      (Id.protocol?_eq_some_iff.1 hprotocol)
    simp [hnot]

/-- A path answers for itself or names a native file, which needs no further look. -/
theorem allows_path (hprotocols : policy.protocols = usualProtocols) (hid : IsPathSpecifier id)
    (hpath : r.resolvePath tree policy.options id = .ok path) (hnative : Location.IsNative path) :
    policy.allows r tree id =
      .ok (r.config.builtins.contains id || (Id.protocol? id).isNone) := by
  have hdecided : decidePath? tree path = some true := by
    unfold decidePath?
    exact if_pos (List.contains_iff_mem.2 (Location.extension_mem_nativeExtensions_iff.2 hnative))
  unfold allows
  rw [decideId?_path hprotocols hid]
  cases hbuiltin : r.config.builtins.contains id with
  | true => rfl
  | false =>
    cases hprotocol : Id.protocol? id with
    | some protocol => rfl
    | none =>
      rw [if_neg Bool.false_ne_true, hpath]
      simp only [Option.map_none, bind, Except.bind, hdecided]
      rfl

/-- **Native files by their paths.**  With the usual protocols, a path that resolves to a native
file can be imported exactly if the registry of builtin modules knows it or it is not read as a
protocol.  The answer is the same in every file tree in which the path leads to a native file and
whatever content is given, so neither a content nor a manifest is looked at. -/
theorem allows_native (hprotocols : policy.protocols = usualProtocols) (hid : IsPathSpecifier id)
    (hpath : r.resolvePath tree policy.options id = .ok path) (hnative : Location.IsNative path) :
    ∃ answer, policy.allows r tree id = .ok answer ∧
      (answer = true ↔
        r.config.builtins.contains id = true ∨ ¬ ∃ protocol, Id.ReadsProtocol id protocol) ∧
      ∀ (policy' : ImportPolicy) (tree' : FileTree) (path' : List Char),
        policy'.protocols = usualProtocols →
        r.resolvePath tree' policy'.options id = .ok path' → Location.IsNative path' →
        policy'.allows r tree' id = .ok answer := by
  refine ⟨_, allows_path hprotocols hid hpath hnative, ?_,
    fun policy' tree' path' hprotocols' hpath' hnative' =>
      allows_path hprotocols' hid hpath' hnative'⟩
  have hnone : (Id.protocol? id).isNone = true ↔
      ¬ ∃ protocol, Id.ReadsProtocol id protocol := by
    rw [Option.isNone_iff_eq_none, Option.eq_none_iff_forall_ne_some, not_exists]
    exact forall_congr' fun protocol => not_congr Id.protocol?_eq_some_iff
  rw [Bool.or_eq_true, hnone]

/-! ### A colon in the name of a file -/

/-- A directory with two native files, one with a colon in its name. -/
def nativeTree : FileTree :=
  let dir := FilePath.ofText "w".toList
  ⟨[([dir], .directory), ([dir, .ofText "b.mjs".toList], .file []),
    ([dir, .ofText "a:b.mjs".toList], .file [])], [dir]⟩

/-- The resolver that looks around from the directory. -/
def nativeResolver : Resolver := .new (.new nativeTree.cwdPath) .none

/-- The usual protocols, and nothing else chosen. -/
def usual : ImportPolicy := ⟨usualProtocols, none, false, .none⟩

/-- A file without a colon in its path can be imported. -/
theorem allows_native_plain :
    IsPathSpecifier "./b.mjs".toList ∧
      nativeResolver.resolvePath nativeTree .none "./b.mjs".toList = .ok "/w/b.mjs".toList ∧
      Location.IsNative "/w/b.mjs".toList ∧
      usual.allows nativeResolver nativeTree "./b.mjs".toList = .ok true := by
  have hid : IsPathSpecifier "./b.mjs".toList := .inl (by decide)
  have hpath : nativeResolver.resolvePath nativeTree .none "./b.mjs".toList =
      .ok "/w/b.mjs".toList := by
    unfold Resolver.resolvePath
    rw [Resolver.resolve_relative rfl (by decide)]
    decide +kernel
  have hnative : Location.IsNative "/w/b.mjs".toList :=
    ⟨"/w/".toList, "b".toList, ".mjs".toList, rfl, by simp, by decide, by decide, by decide⟩
  obtain ⟨answer, hanswer, hiff, -⟩ :=
    @allows_native usual nativeResolver nativeTree _ _ rfl hid hpath hnative
  have hnone : Id.protocol? "./b.mjs".toList = none := by decide
  refine ⟨hid, hpath, hnative, ?_⟩
  rw [hanswer, hiff.2 (.inr fun ⟨protocol, hreads⟩ => ?_)]
  rw [← Id.protocol?_eq_some_iff, hnone] at hreads
  cases hreads

/-- A file with a colon in its name cannot be imported, although it is found. -/
theorem allows_native_colon :
    IsPathSpecifier "./a:b.mjs".toList ∧
      nativeResolver.resolvePath nativeTree .none "./a:b.mjs".toList = .ok "/w/a:b.mjs".toList ∧
      Location.IsNative "/w/a:b.mjs".toList ∧
      usual.allows nativeResolver nativeTree "./a:b.mjs".toList = .ok false := by
  have hpath : nativeResolver.resolvePath nativeTree .none "./a:b.mjs".toList =
      .ok "/w/a:b.mjs".toList := by
    unfold Resolver.resolvePath
    rw [Resolver.resolve_relative rfl (by decide)]
    decide +kernel
  have hnative : Location.IsNative "/w/a:b.mjs".toList :=
    ⟨"/w/".toList, "a:b".toList, ".mjs".toList, rfl, by simp, by decide, by decide, by decide⟩
  exact ⟨.inl (by decide), hpath, hnative, by decide +kernel⟩

end ImportPolicy

end EsModules
