import EsModules.Proofs.FileTree.RealPath

/-!
# Paths put together

A path is put together from pieces, from another path and one behind it, or from the segments of a
text.  One that is put together from pieces that all name something is absolute already: making it
absolute changes nothing, wherever that is done.

* `FilePath.ofNames_join`, `FilePath.ofNames_join_open`: a path behind another one.
* `FilePath.ofText_joinSegments`: the path that segments spell.
* `FilePath.absolute_ofPieces`: paths put together from pieces are absolute already.
-/

namespace EsModules.FilePath

variable {ns : List FilePath}

/-! ## Pieces -/

/-- The pieces of a path, each behind a slash, are the path behind a slash. -/
theorem flatMap_pieces (p : FilePath) : p.pieces.flatMap (slash :: ·) = slash :: p := by
  induction p with
  | nil => rfl
  | cons b p ih =>
    obtain ⟨first, rest, hpieces⟩ := List.exists_cons_of_ne_nil (Text.splitWhere_ne_nil _ p)
    unfold pieces at ih ⊢
    rw [hpieces, List.flatMap_cons] at ih
    obtain rfl := (List.cons.inj ih).2
    by_cases hb : b = slash
    · subst hb
      rw [Text.splitWhere_of_cut rfl, hpieces]
      rfl
    · have hkeep : ∀ a ∈ [b], (a == slash) = false := by simpa using hb
      have hsplit := Text.splitWhere_append hkeep hpieces
      rw [List.singleton_append] at hsplit
      rw [hsplit]
      rfl

theorem ofNames_append_pieces (ns : List FilePath) (p : FilePath) :
    ofNames (ns ++ p.pieces) = ns.flatMap (slash :: ·) ++ slash :: p := by
  have hne : p.pieces ≠ [] := Text.splitWhere_ne_nil _ p
  rw [ofNames_of_ne_nil (List.append_ne_nil_of_right_ne_nil ns hne), List.flatMap_append,
    flatMap_pieces]

/-- A relative path put behind one that ends in a name. -/
theorem ofNames_join {q : FilePath} (hns : ∀ n ∈ ns, slash ∉ n)
    (hlast : ns.getLast? ≠ some []) (hq : q.isAbsolute = false) :
    (ofNames ns).join q = ofNames (ns ++ q.pieces) := by
  rw [ofNames_append_pieces]
  unfold join
  rw [hq, if_neg Bool.false_ne_true]
  by_cases hne : ns = []
  · subst hne
    rfl
  · have hpath : (ofNames ns).isEmpty = false := by
      have habsolute := isAbsolute_ofNames ns
      cases hp : ofNames ns with
      | nil => rw [hp] at habsolute; cases habsolute
      | cons b p => rfl
    have hend : ((ofNames ns).getLast? == some slash) = false := by
      simpa using mt (FileTree.getLast?_ofNames hne hns).1 hlast
    rw [hpath, hend, ofNames_of_ne_nil hne]
    rfl

/-- A relative path put behind one that ends in a slash. -/
theorem ofNames_join_open (ns : List FilePath) {q : FilePath} (hq : q.isAbsolute = false) :
    (ofNames (ns ++ [[]])).join q = ofNames (ns ++ q.pieces) := by
  have hopen : ofNames (ns ++ [[]]) = ns.flatMap (slash :: ·) ++ [slash] :=
    ofNames_append_pieces ns []
  rw [ofNames_append_pieces, hopen]
  unfold join
  rw [hq, if_neg Bool.false_ne_true, if_pos (by simp)]
  simp

/-! ## Segments of texts -/

theorem ofText_append_slash (as bs : List Char) :
    ofText (as ++ '/' :: bs) = ofText as ++ slash :: ofText bs := by
  have hslash : String.utf8EncodeChar '/' = [slash] := by decide
  unfold ofText
  rw [Utf8.encode_append, Utf8.encode_cons, hslash, List.singleton_append]

/-- Segments put together are a path of their bytes. -/
theorem ofText_joinSegments (segments : List (List Char)) :
    ofText (Url.joinSegments segments) = segments.flatMap fun s => slash :: ofText s := by
  induction segments with
  | nil => rfl
  | cons s segments ih =>
    have hcons : Url.joinSegments (s :: segments) = [] ++ '/' :: (s ++ Url.joinSegments segments) :=
      rfl
    have happend : ofText (s ++ Url.joinSegments segments) =
        ofText s ++ ofText (Url.joinSegments segments) := Utf8.encode_append _ _
    rw [hcons, ofText_append_slash, happend, ih, List.flatMap_cons]
    rfl

/-! ## Absolute paths -/

theorem ofNames_join_piece {ms : List FilePath} {n : FilePath} (hms : ∀ m ∈ ms, IsPiece m)
    (hn : IsPiece n) : (ofNames ms).join n = ofNames (ms ++ [n]) := by
  have hpieces : n.pieces = [n] :=
    Text.splitWhere_of_forall fun b hb => by simpa using ne_of_mem_of_not_mem hb hn.noSlash
  have hrelative : n.isAbsolute = false := by
    cases n with
    | nil => rfl
    | cons b n =>
      have hb : b ≠ slash := ne_of_mem_of_not_mem List.mem_cons_self hn.noSlash
      simpa [isAbsolute] using hb
  have hlast : ms.getLast? ≠ some [] := fun hnil =>
    (hms _ (List.mem_of_getLast? hnil)).ne_nil rfl
  rw [ofNames_join (fun m hm => (hms m hm).noSlash) hlast hrelative, hpieces]

theorem foldl_join {ms : List FilePath} (hms : ∀ m ∈ ms, IsPiece m) (hns : ∀ n ∈ ns, IsPiece n) :
    ns.foldl join (ofNames ms) = ofNames (ms ++ ns) := by
  induction ns generalizing ms with
  | nil => rw [List.append_nil]; rfl
  | cons n ns ih =>
    have hn := hns n List.mem_cons_self
    have hlonger : ∀ m ∈ ms ++ [n], IsPiece m := by
      intro m hm
      rcases List.mem_append.1 hm with hm | hm
      · exact hms m hm
      · exact List.mem_singleton.1 hm ▸ hn
    rw [List.foldl_cons, ofNames_join_piece hms hn,
      ih hlonger fun m hm => hns m (List.mem_cons_of_mem n hm), List.append_assoc]
    rfl

/-- **A path put together from pieces** is absolute already, whatever the working directory. -/
theorem absolute_ofPieces (hne : ns ≠ []) (h : ∀ n ∈ ns, IsPiece n) (cwd : FilePath) :
    absolute cwd (ofNames ns) = ofNames ns := by
  have hslash : ∀ n ∈ ns, slash ∉ n := fun n hn => (h n hn).noSlash
  have htwo : [slash, slash].isPrefixOf (ofNames ns) = false := by
    obtain ⟨n, rest, rfl⟩ := List.exists_cons_of_ne_nil hne
    obtain ⟨b, bs, rfl⟩ := List.exists_cons_of_ne_nil (h n List.mem_cons_self).ne_nil
    have hb : slash ≠ b :=
      (ne_of_mem_of_not_mem List.mem_cons_self (hslash _ List.mem_cons_self)).symm
    rw [ofNames_of_ne_nil hne]
    simp [List.isPrefixOf, hb]
  have hend : ((ofNames ns).getLast? == some slash) = false := by
    simpa using mt (FileTree.getLast?_ofNames hne hslash).1 fun hnil =>
      (h _ (List.mem_of_getLast? hnil)).ne_nil rfl
  have hwhole : ns.foldl join [slash] = ofNames ns :=
    @foldl_join ns [] (fun m hm => absurd hm List.not_mem_nil) h
  unfold absolute
  dsimp only
  rw [htwo, isAbsolute_ofNames, names_ofPieces h, hend]
  exact hwhole

end EsModules.FilePath
