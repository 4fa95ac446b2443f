import EsModules.Proofs.Declaration.Written
import EsModules.Proofs.Pattern.Forward
import EsModules.Proofs.Text.Order

/-!
# Reading written clauses

A clause that is written in the usual way is read back: the default name, the name of the whole
module and the names asked for, each with its local name.

* `Bindings.tidy_written`: there is nothing to tidy up.
* `Shape.bracedList_of_not_mem`, `Shape.exists_bracedList`: the list of a clause.
* `ClauseEntry.parse?_written`: an entry of a list.
* `Bindings.parse_written`: a whole clause.
-/

namespace EsModules

open Pattern

/-! ## Characters -/

theorem isBlank_of_isCalm {c : Char} (hc : isCalm c = true) (hne : c ≠ ' ') :
    Text.isBlank c = false := by
  rcases Bool.or_eq_true_iff.1 hc with h | h
  · exact isBlank_of_isNameChar h
  · have hmem : c ∈ [' ', ',', '\x7b', '\x7d', '*'] := List.elem_iff.1 h
    simp only [List.mem_cons, List.not_mem_nil, or_false] at hmem
    rcases hmem with rfl | rfl | rfl | rfl | rfl
    · exact absurd rfl hne
    all_goals rfl

namespace Bindings

variable {x : List Char}

/-- Where no slash stands there is no comment. -/
theorem clauseComment_of_not_mem {cs : List Char} (h : '/' ∉ cs) :
    Shape.clauseComment.first? cs = none := by
  refine first?_eq_none rfl fun a ha before pos rest => ?_
  have hne : (a :: rest).head? ≠ some '/' := by
    rintro ⟨⟩
    exact h ha
  have hline : ∀ k : Follow Part (Match Part),
      (word "//").attempt ⟨before, pos, a :: rest⟩ [] k = none := fun k => attempt_literal_ne hne
  have hblock : ∀ k : Follow Part (Match Part),
      (word "/*").attempt ⟨before, pos, a :: rest⟩ [] k = none := fun k => attempt_literal_ne hne
  exact congrArg₂ (Option.orElse · fun _ => ·) (hline _) (hblock _)

/-- A clause that is written in the usual way has no comments and no two spaces in a row. -/
theorem tidy_written (hx : Tidy x) (hcalm : Calm x) : tidy (x ++ [' ']) = x ++ [' '] := by
  have hcalm' : Calm (x ++ [' ']) := hcalm.append (by decide)
  have hslash : '/' ∉ x ++ [' '] := fun h => absurd (hcalm' _ h) (by decide)
  have hchain := hx.isChain_append (List.isChain_singleton ' ')
  unfold tidy
  rw [replaceAll_of_first? (clauseComment_of_not_mem hslash)]
  refine replaceAll_eq_self (List.cons_ne_nil _ _) fun c m hc hm => ?_
  obtain ⟨before, pos, rest⟩ := c
  cases rest with
  | nil => cases hm
  | cons a rest =>
    have hm : (if Ascii.isSpace a then
        (run Ascii.isSpace).attempt ⟨some a, pos + a.utf8Size, rest⟩ [] _ else none) = some m := hm
    split at hm
    · rename_i hspace
      obtain ⟨front, hfront⟩ := hc
      have hmem : a ∈ x ++ [' '] := by
        rw [← hfront]
        simp
      obtain rfl := eq_of_isCalm_of_isSpace (hcalm' a hmem) hspace
      rw [← hfront] at hchain
      have hchain' := (List.isChain_cons.1 (List.isChain_append.1 hchain).2.1).1
      -- behind a space stands another character, or nothing
      have hnext : ∀ b ∈ rest.head?, Ascii.isSpace b = false := by
        intro b hb
        have hbmem : b ∈ x ++ [' '] := by
          rw [← hfront]
          exact List.mem_append_right _ (List.mem_cons_of_mem _ (List.mem_of_mem_head? hb))
        refine Bool.eq_false_iff.2 fun hspace' => hchain' b hb ⟨rfl, ?_⟩
        exact eq_of_isCalm_of_isSpace (hcalm' b hbmem) hspace'
      let found : Follow Part (Match Part) := fun back captures =>
        some ⟨⟨before, pos, ' ' :: rest⟩, back, captures⟩
      have hrun : (run Ascii.isSpace).attempt ⟨some ' ', pos + 1, [] ++ rest⟩ [] found =
          found (.past (some ' ') (pos + 1) [] rest) [] :=
        attempt_run (fun b hb => absurd hb List.not_mem_nil) hnext rfl
      obtain rfl := Option.some.inj (hrun.symm.trans hm)
      exact ⟨rfl, rfl⟩
    · cases hm

end Bindings

namespace Shape

/-! ## Lists -/

theorem bracedList_of_not_mem {cs : List Char} (h : '\x7b' ∉ cs) : bracedList.first? cs = none := by
  refine first?_eq_none rfl fun a ha before pos rest => if_neg ?_
  have hne : a ≠ '\x7b' := fun heq => h (heq ▸ ha)
  simpa using hne

/-- The first list of a clause goes up to its closing bracket. -/
theorem exists_bracedList {u x : List Char} (hu : '\x7b' ∉ u) (hx : '\x7d' ∉ x) (r : List Char) :
    ∃ m, bracedList.first? (u ++ ('\x7b' :: (x ++ ['\x7d']) ++ r)) = some m ∧
      m.span = ⟨Text.byteLength u,
        Text.byteLength u + Text.byteLength ('\x7b' :: (x ++ ['\x7d']))⟩ ∧
      m.part? .entries = some ⟨Text.byteLength u + 1, Text.byteLength u + 1 + Text.byteLength x⟩ := by
  have hskip : ∀ a ∈ u, ∀ before pos rest,
      bracedList.matchAt? ⟨before, pos, a :: rest⟩ = none := by
    intro a ha before pos rest
    have hne : a ≠ '\x7b' := fun heq => hu (heq ▸ ha)
    exact if_neg (by simpa using hne)
  have htest : ∀ a ∈ x, (a != '\x7d') = true := by
    intro a ha
    have hne : a ≠ '\x7d' := fun heq => hx (heq ▸ ha)
    simpa using hne
  have hmatch : ∀ before pos, ∃ m,
      bracedList.matchAt? ⟨before, pos, '\x7b' :: (x ++ '\x7d' :: r)⟩ = some m ∧
        m.span = ⟨pos, pos + 1 + Text.byteLength x + 1⟩ ∧
        m.part? .entries = some ⟨pos + 1, pos + 1 + Text.byteLength x⟩ := by
    intro before pos
    let closing : Follow Part (Match Part) := fun c caps =>
      (char (· == '\x7d')).attempt c ((Part.entries, ⟨pos + 1, c.pos⟩) :: caps) fun back captures =>
        some ⟨⟨before, pos, '\x7b' :: (x ++ '\x7d' :: r)⟩, back, captures⟩
    have hrun : (run (· != '\x7d')).attempt ⟨some '\x7b', pos + 1, x ++ '\x7d' :: r⟩ [] closing =
        closing (.past (some '\x7b') (pos + 1) x ('\x7d' :: r)) [] :=
      attempt_run htest (by rintro a ⟨⟩; rfl) rfl
    exact ⟨_, hrun, rfl, rfl⟩
  obtain ⟨m, hm, hspan, hpart⟩ := hmatch (u.getLast?.or none) (Text.byteLength u)
  refine ⟨m, ?_, ?_, hpart⟩
  · rw [first?, find?_past hskip, Nat.zero_add, List.cons_append, List.append_assoc]
    exact congrArg (Option.orElse · _) hm
  · have hbrackets : Text.byteLength ('\x7b' :: (x ++ ['\x7d'])) = 1 + (Text.byteLength x + 1) := by
      rw [Text.byteLength_cons, Text.byteLength_append]
      rfl
    rw [hspan, hbrackets, Nat.add_assoc, Nat.add_assoc]

/-! ## Names of whole modules -/

theorem namespaceBinding_of_not_mem {cs : List Char} (h : '*' ∉ cs) :
    namespaceBinding.first? cs = none := by
  refine first?_eq_none rfl fun a ha before pos rest => ?_
  have hne : (a :: rest).head? ≠ some '*' := by
    rintro ⟨⟩
    exact h ha
  exact attempt_literal_ne (k := fun c' caps' => _) hne

/-- The name of a whole module stands behind the words in front of it and goes on up to a space or
the end. -/
theorem exists_namespaceBinding {u name r : List Char} (hu : '*' ∉ u) (hne : name ≠ [])
    (hname : ∀ c ∈ name, Ascii.isSpace c = false) (hr : ∀ c ∈ r.head?, Ascii.isSpace c = true) :
    ∃ m, namespaceBinding.first? (u ++ ("* as ".toList ++ name ++ r)) = some m ∧
      m.part? .name = some ⟨Text.byteLength u + 5,
        Text.byteLength u + 5 + Text.byteLength name⟩ := by
  have hskip : ∀ a ∈ u, ∀ before pos rest,
      namespaceBinding.matchAt? ⟨before, pos, a :: rest⟩ = none := by
    intro a ha before pos rest
    have hne : (a :: rest).head? ≠ some '*' := by
      rintro ⟨⟩
      exact hu ha
    exact attempt_literal_ne (k := fun c' caps' => _) hne
  have hmatch : ∀ before pos, ∃ m,
      namespaceBinding.matchAt? ⟨before, pos, "* as ".toList ++ (name ++ r)⟩ = some m ∧
        m.part? .name = some ⟨pos + 5, pos + 5 + Text.byteLength name⟩ := by
    intro before pos
    let final : Follow Part (Match Part) := fun back captures =>
      some ⟨⟨before, pos, "* as ".toList ++ (name ++ r)⟩, back, captures⟩
    let capturing : Follow Part (Match Part) := fun c caps =>
      (capture .name (run fun c => !Ascii.isSpace c)).attempt c caps final
    have hrun : capturing ⟨some ' ', pos + 5, name ++ r⟩ [] = final _ _ :=
      attempt_run (fun c hc => by rw [hname c hc]; rfl) (fun c hc => by rw [hr c hc]; rfl) rfl
    have hspaces : (run Ascii.isSpace).attempt ⟨some ' ', pos + 5, [] ++ (name ++ r)⟩ []
        capturing = capturing ⟨some ' ', pos + 5, name ++ r⟩ [] := by
      refine attempt_run (fun c hc => absurd hc List.not_mem_nil) (fun c hc => ?_) ?_
      · rw [List.head?_append_of_ne_nil _ hne] at hc
        exact hname c (List.mem_of_mem_head? hc)
      · exact congrArg Option.isSome hrun
    have hword : namespaceBinding.matchAt? ⟨before, pos, "* as ".toList ++ (name ++ r)⟩ =
        (run Ascii.isSpace).attempt ⟨some ' ', pos + 5, name ++ r⟩ [] capturing :=
      attempt_literal (k := fun c caps => (run Ascii.isSpace).attempt c caps capturing)
        "* as ".toList (name ++ r)
    exact ⟨_, hword.trans (hspaces.trans hrun), rfl⟩
  obtain ⟨m, hm, hpart⟩ := hmatch (u.getLast?.or none) (Text.byteLength u)
  refine ⟨m, ?_, hpart⟩
  rw [first?, find?_past hskip, Nat.zero_add, List.append_assoc]
  exact congrArg (Option.orElse · _) hm

end Shape

/-! ## Entries -/

/-- An entry starts with the name in the other module, and what follows that starts with a
space. -/
theorem ImportEntry.exists_text (e : ImportEntry) :
    ∃ rest, e.text = e.imported.text ++ rest ∧ ∀ a ∈ rest.head?, a = ' ' := by
  unfold text
  split
  · exact ⟨[], (List.append_nil _).symm, by rintro a ⟨⟩⟩
  · exact ⟨" as ".toList ++ e.localName.text, List.append_assoc _ _ _, by rintro a ⟨⟩; rfl⟩

/-- Dropping the blanks around a tidy text leaves it. -/
theorem trim_written {x lead tail : List Char} (hx : Tidy x) (hcalm : Calm x)
    (hlead : ∀ c ∈ lead, c = ' ') (htail : ∀ c ∈ tail, c = ' ') :
    Text.trim (lead ++ (x ++ tail)) = x := by
  refine Text.trim_append (fun c hc => by rw [hlead c hc]; rfl)
    (fun c hc => by rw [htail c hc]; rfl) hx.ne_nil (fun c hc => ?_) fun c hc => ?_
  · refine isBlank_of_isCalm (hcalm c (List.mem_of_mem_head? hc)) ?_
    rintro rfl
    exact hx.head hc
  · refine isBlank_of_isCalm (hcalm c (List.mem_of_mem_getLast? hc)) ?_
    rintro rfl
    exact hx.last hc

theorem trim_identifier (i : Identifier) : Text.trim i.text = i.text := by
  have h := @trim_written i.text [] [] i.tidy i.calm (fun c hc => absurd hc List.not_mem_nil)
    fun c hc => absurd hc List.not_mem_nil
  rwa [List.append_nil] at h

/-- The words between two names stand behind the first. -/
theorem splitOnce_written {s : List Char} (hs : ' ' ∉ s) (l : List Char) :
    Text.splitOnce " as ".toList (s ++ (" as ".toList ++ l)) = some (s, l) := by
  have hcut : Text.cut? " as ".toList (s ++ (" as ".toList ++ l)) =
      some (s, " as ".toList ++ l) := by
    induction s with
    | nil => rfl
    | cons c s ih =>
      rw [List.mem_cons, not_or] at hs
      have hprefix : ¬ " as ".toList.isPrefixOf (c :: (s ++ (" as ".toList ++ l))) = true := by
        rw [List.isPrefixOf_iff_prefix]
        intro h
        exact hs.1 (List.cons_prefix_cons.1 h).1
      rw [List.cons_append, Text.cut?, if_neg hprefix, ih hs.2]
      rfl
  rw [Text.splitOnce, hcut]
  rfl

namespace ClauseEntry

/-- No entry of a written list is marked as a type. -/
theorem dropType?_written (e : ImportEntry) (htype : e.imported.text ≠ "type".toList) :
    dropType? e.text = none := by
  obtain ⟨rest, htext, hrest⟩ := e.exists_text
  unfold dropType?
  cases hdrop : Text.dropPrefix? "type".toList e.text with
  | none => rfl
  | some behind =>
    have hsplit := htext.symm.trans (Text.dropPrefix?_eq_some_iff.1 hdrop).symm
    refine if_neg fun hblank => ?_
    cases behind with
    | nil => cases hblank
    | cons b behind =>
      rcases List.append_eq_append_iff.1 hsplit with ⟨m, hm, hrest'⟩ | ⟨m, hm, hbehind⟩
      · cases m with
        | nil => exact htype ((List.append_nil _).symm.trans hm.symm)
        | cons d m =>
          obtain rfl := hrest d (by rw [hrest']; rfl)
          have hmem : ' ' ∈ "type".toList := by
            rw [hm]
            simp
          exact absurd hmem (by decide)
      · cases m with
        | nil => exact htype (hm.trans (List.append_nil _))
        | cons d m =>
          obtain rfl : b = d := (List.cons.inj hbehind).1
          have hchar := e.imported.isNameChar_of_mem (c := b) (by rw [hm]; simp)
          have hblank : Text.isBlank b = true := hblank
          rw [isBlank_of_isNameChar hchar] at hblank
          cases hblank

/-- An entry is read as it is written, whatever spaces stand around it. -/
theorem parse?_written (e : ImportEntry) (htype : e.imported.text ≠ "type".toList)
    {lead tail : List Char} (hlead : ∀ c ∈ lead, c = ' ') (htail : ∀ c ∈ tail, c = ' ') :
    parse? (lead ++ (e.text ++ tail)) = some ⟨false, e.imported.text, e.localName.text⟩ := by
  unfold parse?
  rw [trim_written e.tidy e.calm hlead htail]
  dsimp only
  rw [dropType?_written e htype, Option.getD_none]
  have hempty : e.imported.text.isEmpty = false := by
    simpa using e.imported.text_ne_nil
  by_cases hsame : e.imported.text = e.localName.text
  · have htext : e.text = e.imported.text := if_pos hsame
    have hnone : Text.splitOnce " as ".toList e.imported.text = none := by
      refine Option.map_eq_none_iff.2 (Option.eq_none_iff_forall_ne_some.2 ?_)
      rintro ⟨before, rest⟩ hcut
      obtain ⟨after, rfl⟩ := Text.prefix_of_cut? hcut
      refine e.imported.not_mem (d := ' ') rfl ?_
      rw [← Text.append_of_cut?_eq_some hcut]
      exact List.mem_append_right _ List.mem_cons_self
    rw [htext, hnone]
    dsimp only
    rw [hempty, hsame]
    rfl
  · have htext : e.text = e.imported.text ++ (" as ".toList ++ e.localName.text) :=
      (if_neg hsame).trans (List.append_assoc _ _ _)
    rw [htext, splitOnce_written (e.imported.not_mem rfl)]
    simp only [trim_identifier, hempty]
    rfl

end ClauseEntry

namespace Bindings

/-- The entry that a written one is read as. -/
def entryOf (e : ImportEntry) : ClauseEntry := ⟨false, e.imported.text, e.localName.text⟩

/-- The entries between two brackets are read in order. -/
theorem entries_written (es : List ImportEntry) (htype : ∀ e ∈ es, e.imported.text ≠ "type".toList) :
    (Text.splitOn ',' (Text.joinWith [','] (es.map fun e => ' ' :: e.text) ++ [' '])).filterMap
      ClauseEntry.parse? = es.map entryOf := by
  induction es with
  | nil => rfl
  | cons e es ih =>
    obtain ⟨he, hes⟩ := List.forall_mem_cons.1 htype
    have hspaces : ∀ c ∈ [' '], c = ' ' := fun c hc => List.mem_singleton.1 hc
    have hcomma : ∀ c ∈ ' ' :: e.text, (c == ',') = false := by
      intro c hc
      refine beq_false_of_ne ?_
      rintro rfl
      rcases List.mem_cons.1 hc with h | h
      · cases h
      · exact e.not_mem rfl (by decide) h
    cases es with
    | nil =>
      have hlast : Text.splitOn ',' (' ' :: e.text ++ [' ']) = [[' '] ++ (e.text ++ [' '])] := by
        refine Text.splitWhere_of_forall fun c hc => ?_
        rcases List.mem_append.1 hc with hc | hc
        · exact hcomma c hc
        · rw [hspaces c hc]
          rfl
      have hentry := ClauseEntry.parse?_written e he hspaces hspaces
      show (Text.splitOn ',' (' ' :: e.text ++ [' '])).filterMap ClauseEntry.parse? = _
      rw [hlast, List.filterMap_cons_some hentry]
      rfl
    | cons e' es =>
      have hfirst : Text.splitOn ',' (' ' :: e.text) = [[' '] ++ (e.text ++ [])] :=
        (Text.splitWhere_of_forall hcomma).trans (by simp)
      have hentry := ClauseEntry.parse?_written e he hspaces fun c hc => absurd hc List.not_mem_nil
      have hsplit : Text.splitOn ',' (Text.joinWith [','] ((e :: e' :: es).map fun e => ' ' :: e.text)
          ++ [' ']) = Text.splitOn ',' (' ' :: e.text) ++ Text.splitOn ','
            (Text.joinWith [','] ((e' :: es).map fun e => ' ' :: e.text) ++ [' ']) := by
        have hcut := @Text.splitWhere_append_cut _ (· == ',') ',' rfl (' ' :: e.text)
          (Text.joinWith [','] ((e' :: es).map fun e => ' ' :: e.text) ++ [' '])
        rw [Text.splitOn, Text.splitOn, Text.splitOn, ← hcut]
        simp [Text.joinWith]
      rw [hsplit, List.filterMap_append, ih hes, hfirst, List.filterMap_cons_some hentry]
      rfl

/-! ### The order of names -/

/-- A list of names with local names, each once, in the order of the names. -/
def Ordered (named : List (List Char × List Char)) : Prop :=
  named.Pairwise fun a b => Text.le a.1 b.1 = true

/-- A name that is not bound yet is added at its place. -/
theorem setName_spec {s l : List Char} {named : List (List Char × List Char)}
    (h : Ordered named) (hs : s ∉ named.map Prod.fst) :
    (setName s l named).Perm ((s, l) :: named) ∧ Ordered (setName s l named) := by
  induction named with
  | nil => exact ⟨.rfl, List.pairwise_singleton _ _⟩
  | cons entry named ih =>
    obtain ⟨s', l'⟩ := entry
    obtain ⟨hfirst, hrest⟩ := List.pairwise_cons.1 h
    rw [List.map_cons, List.mem_cons, not_or] at hs
    obtain ⟨hne, hs⟩ := hs
    unfold setName
    rw [if_neg (by simpa using Ne.symm hne)]
    split
    · rename_i hle
      refine ⟨.rfl, List.pairwise_cons.2 ⟨fun a ha => ?_, h⟩⟩
      rcases List.mem_cons.1 ha with rfl | ha
      · exact hle
      · exact Text.le_trans _ _ _ hle (hfirst a ha)
    · rename_i hle
      obtain ⟨hperm, hordered⟩ := ih hrest hs
      refine ⟨(hperm.cons _).trans (.swap _ _ _), List.pairwise_cons.2 ⟨fun a ha => ?_, hordered⟩⟩
      rcases List.mem_cons.1 (hperm.mem_iff.1 ha) with rfl | ha
      · have htotal := Text.le_total s' s
        simpa [hle] using htotal
      · exact hfirst a ha

/-- Entries of different names are collected without a loss, in the order of the names. -/
theorem foldl_setName {es : List ImportEntry} {named : List (List Char × List Char)}
    (h : ((es.map fun e => e.imported.text) ++ named.map Prod.fst).Nodup) (hnamed : Ordered named) :
    let collected := (es.map entryOf).foldl
      (fun named e => setName e.imported e.localName named) named
    collected.Perm ((es.map fun e => (e.imported.text, e.localName.text)) ++ named) ∧
      Ordered collected := by
  induction es generalizing named with
  | nil => exact ⟨.rfl, hnamed⟩
  | cons e es ih =>
    have hnotin : e.imported.text ∉ named.map Prod.fst := fun hmem =>
      (List.nodup_cons.1 h).1 (List.mem_append_right _ hmem)
    obtain ⟨hperm, hordered⟩ := setName_spec (l := e.localName.text) hnamed hnotin
    have hkeys := (hperm.map Prod.fst).append_left (es.map fun e => e.imported.text)
    have hnodup := (hkeys.trans List.perm_middle).nodup_iff.2 h
    obtain ⟨hcollected, hsorted⟩ := ih hnodup hordered
    exact ⟨hcollected.trans ((hperm.append_left _).trans List.perm_middle), hsorted⟩

theorem collect_written {es : List ImportEntry} (h : (es.map fun e => e.imported.text).Nodup) :
    (collect (es.map entryOf)).Perm (es.map fun e => (e.imported.text, e.localName.text)) ∧
      Ordered (collect (es.map entryOf)) := by
  have hcollected := @foldl_setName es [] (by simpa using h) .nil
  rwa [List.append_nil] at hcollected

/-! ### Whole clauses -/

/-- What is bound by a clause, as it was written. -/
structure Recovers (c : Option ImportClause) (b : Bindings) : Prop where
  defaultName : b.defaultName = c.bind ImportClause.defaultName
  namespaceName : b.namespaceName = c.bind ImportClause.namespaceName
  named : b.named.Perm ((c.map ImportClause.named).getD [])
  ordered : Ordered b.named

/-- A clause without its list. -/
def outside (c : ImportClause) : List Char :=
  c.front ++ match c.binding? with
    | some (.all name) => "* as ".toList ++ name.text ++ [' ']
    | _ => [' ']

theorem named_text (list : EntryList) : (FurtherBinding.named list).text =
    '\x7b' :: (list.inner ++ [' '] ++ ['\x7d']) := by
  have hend : [' '] ++ ['\x7d'] = " \x7d".toList := rfl
  rw [List.append_assoc, hend]
  rfl

/-- The binding of a whole module has no list. -/
theorem not_mem_all (name : Identifier) : '\x7b' ∉ (FurtherBinding.all name).text := by
  show '\x7b' ∉ "* as ".toList ++ name.text
  rw [List.mem_append, not_or]
  exact ⟨by decide, name.not_mem rfl⟩

/-- Without its list a clause is its front and the name of the whole module. -/
theorem replaceFirst_bracedList (c : ImportClause) :
    Shape.bracedList.replaceFirst [] (c.text ++ [' ']) = outside c := by
  have hfront : '\x7b' ∉ c.front := c.not_mem_front rfl (by decide) (by decide)
  rw [c.text_eq]
  unfold outside
  cases c.binding? with
  | none =>
    rw [Option.map_none, Option.getD_none, List.append_nil]
    refine replaceFirst_of_first? (Shape.bracedList_of_not_mem ?_)
    simpa using hfront
  | some binding =>
    cases binding with
    | all name =>
      rw [List.append_assoc]
      refine replaceFirst_of_first? (Shape.bracedList_of_not_mem ?_)
      simp only [Option.map_some, Option.getD_some, List.mem_append, not_or]
      exact ⟨hfront, not_mem_all name, by decide⟩
    | named list =>
      have hinner : '\x7d' ∉ list.inner ++ [' '] := by
        simpa using list.not_mem rfl (by decide) (by decide)
      obtain ⟨m, hm, hspan, -⟩ := Shape.exists_bracedList hfront hinner [' ']
      have hreplace := @replaceFirst_of_span _ _ [] _ _ _ _ hm hspan
      rw [← named_text] at hreplace
      rw [List.append_assoc]
      exact hreplace

theorem nonEmpty?_identifier (i : Identifier) : nonEmpty? i.text = some i.text :=
  if_neg (by simpa using i.text_ne_nil)

/-- A first piece without brackets and stars names the default export. -/
theorem defaultIn_of_splitOn {cs piece : List Char} {rest : List (List Char)}
    (hsplit : Text.splitOn ',' cs = piece :: rest)
    (hpiece : '*' ∉ piece ∧ '\x7b' ∉ piece ∧ '\x7d' ∉ piece) :
    defaultIn cs = nonEmpty? (Text.trim piece) := by
  have hany : (piece.any fun c => c == '*' || c == '\x7b' || c == '\x7d') = false := by
    rw [List.any_eq_false]
    intro c hc
    simp only [Bool.or_eq_true, beq_iff_eq, not_or]
    exact ⟨⟨fun h => hpiece.1 (h ▸ hc), fun h => hpiece.2.1 (h ▸ hc)⟩, fun h => hpiece.2.2 (h ▸ hc)⟩
  unfold defaultIn
  rw [hsplit]
  simp only [List.find?_cons, hany]
  rfl

/-- The piece in front of the first comma, or the whole clause, is the default name. -/
theorem defaultIn_written (c : ImportClause) : defaultIn (outside c) = c.defaultName := by
  have hname : ∀ (i : Identifier), ∀ c ∈ i.text, (c == ',') = false := fun i c hc =>
    beq_false_of_ne (ne_of_isNameChar (i.isNameChar_of_mem hc) (by decide))
  have hspace : ∀ c ∈ [' '], c = ' ' := fun c hc => List.mem_singleton.1 hc
  cases c with
  | default name =>
    have hsplit : Text.splitOn ',' (outside (.default name)) = [[] ++ (name.text ++ [' '])] :=
      Text.splitWhere_of_forall fun c hc => (List.mem_append.1 hc).elim (hname name c)
        fun hc => by rw [hspace c hc]; rfl
    have hnone (d : Char) (hd : isNameChar d = false) (hne : d ≠ ' ') : d ∉ name.text ++ [' '] := by
      simpa [hne] using name.not_mem hd
    have hpiece := And.intro (hnone '*' rfl (by decide))
      (And.intro (hnone '\x7b' rfl (by decide)) (hnone '\x7d' rfl (by decide)))
    rw [defaultIn_of_splitOn hsplit hpiece,
      trim_written name.tidy name.calm (fun c hc => absurd hc List.not_mem_nil) hspace]
    exact nonEmpty?_identifier name
  | further binding =>
    cases binding with
    | named list => rfl
    | all name =>
      have hsplit : Text.splitOn ',' ("* as ".toList ++ name.text ++ [' ']) =
          ["* as ".toList ++ name.text ++ [' ']] := by
        refine Text.splitWhere_of_forall fun c hc => ?_
        rcases List.mem_append.1 hc with hc | hc
        · rcases List.mem_append.1 hc with hc | hc
          · have hall : "* as ".toList.all (fun c => !(c == ',')) = true := by decide
            exact (Bool.not_eq_true' _).mp (List.all_eq_true.1 hall c hc)
          · exact hname name c hc
        · rw [hspace c hc]
          rfl
      show defaultIn ("* as ".toList ++ name.text ++ [' ']) = none
      unfold defaultIn
      rw [hsplit]
      rfl
  | both name binding =>
    obtain ⟨rest, hrest⟩ : ∃ rest, outside (.both name binding) = name.text ++ ',' :: rest :=
      ⟨_, by simp only [outside, ImportClause.front, List.append_assoc]; rfl⟩
    have hsplit : Text.splitOn ',' (outside (.both name binding)) =
        name.text :: Text.splitOn ',' rest := by
      rw [hrest]
      unfold Text.splitOn
      rw [Text.splitWhere_append_cut rfl, Text.splitWhere_of_forall (hname name)]
      rfl
    rw [defaultIn_of_splitOn hsplit ⟨name.not_mem rfl, name.not_mem rfl, name.not_mem rfl⟩,
      trim_identifier]
    exact nonEmpty?_identifier name

/-- Where no star stands no whole module is bound. -/
theorem namespaceIn_of_not_mem {cs : List Char} (h : '*' ∉ cs) : namespaceIn cs = none := by
  rw [namespaceIn, Shape.namespaceBinding_of_not_mem h]
  rfl

/-- The name behind the words in front of it, up to a space or the end, is that of the whole
module. -/
theorem namespaceIn_append {u name r : List Char} (hu : '*' ∉ u) (hne : name ≠ [])
    (hname : ∀ c ∈ name, Ascii.isSpace c = false) (hr : ∀ c ∈ r.head?, Ascii.isSpace c = true) :
    namespaceIn (u ++ ("* as ".toList ++ name ++ r)) = some name := by
  obtain ⟨m, hm, hpart⟩ := Shape.exists_namespaceBinding hu hne hname hr
  have hcovers : (⟨Text.byteLength u + 5, Text.byteLength u + 5 + Text.byteLength name⟩ : Span).Covers
      (u ++ ("* as ".toList ++ name ++ r)) name := by
    have hbefore : Text.byteLength (u ++ "* as ".toList) = Text.byteLength u + 5 :=
      Text.byteLength_append _ _
    exact ⟨u ++ "* as ".toList, r, by simp, hbefore.symm, by rw [hbefore]⟩
  rw [namespaceIn, hm, Option.bind_some, hpart, Option.bind_some, hcovers.text_eq]
  exact if_neg (by simpa using hne)

theorem namespaceIn_written (c : ImportClause) : namespaceIn (outside c) = c.namespaceName := by
  have hfront : '*' ∉ c.front := c.not_mem_front rfl (by decide) (by decide)
  unfold outside ImportClause.namespaceName
  cases c.binding? with
  | none => exact namespaceIn_of_not_mem (by simpa using hfront)
  | some binding =>
    cases binding with
    | named list => exact namespaceIn_of_not_mem (by simpa using hfront)
    | all name =>
      exact namespaceIn_append hfront name.text_ne_nil
        (fun c hc => isSpace_of_isNameChar (name.isNameChar_of_mem hc)) (by rintro c ⟨⟩; rfl)

/-- Where no bracket stands there are no entries. -/
theorem entries_of_not_mem {cs : List Char} (h : '\x7b' ∉ cs) : entries cs = [] := by
  rw [entries, Shape.bracedList_of_not_mem h]
  rfl

/-- The entries are read from what stands between the brackets. -/
theorem entries_append {u x : List Char} (hu : '\x7b' ∉ u) (hx : '\x7d' ∉ x) (r : List Char) :
    entries (u ++ ('\x7b' :: (x ++ ['\x7d']) ++ r)) =
      (Text.splitOn ',' x).filterMap ClauseEntry.parse? := by
  obtain ⟨m, hm, -, hpart⟩ := Shape.exists_bracedList hu hx r
  have hcovers : (⟨Text.byteLength u + 1, Text.byteLength u + 1 + Text.byteLength x⟩ : Span).Covers
      (u ++ ('\x7b' :: (x ++ ['\x7d']) ++ r)) x := by
    have hbefore : Text.byteLength (u ++ ['\x7b']) = Text.byteLength u + 1 :=
      Text.byteLength_append _ _
    exact ⟨u ++ ['\x7b'], '\x7d' :: r, by simp, hbefore.symm, by rw [hbefore]⟩
  rw [entries, hm, Option.bind_some, hpart, Option.map_some, Option.getD_some, hcovers.text_eq]

/-- The list of a clause is read in order. -/
theorem entries_written_clause (c : ImportClause) :
    entries (c.text ++ [' ']) = match c.binding? with
      | some (.named list) => list.entries.map entryOf
      | _ => [] := by
  have hfront : '\x7b' ∉ c.front := c.not_mem_front rfl (by decide) (by decide)
  rw [c.text_eq]
  cases c.binding? with
  | none => exact entries_of_not_mem (by simpa using hfront)
  | some binding =>
    cases binding with
    | all name =>
      refine entries_of_not_mem ?_
      simp only [Option.map_some, Option.getD_some, List.mem_append, not_or]
      exact ⟨⟨hfront, not_mem_all name⟩, by decide⟩
    | named list =>
      have hinner : '\x7d' ∉ list.inner ++ [' '] := by
        simpa using list.not_mem rfl (by decide) (by decide)
      rw [Option.map_some, Option.getD_some, named_text, List.append_assoc,
        entries_append hfront hinner [' ']]
      exact entries_written list.entries list.noType

/-- No written entry is marked as a type, so that all of them are collected. -/
theorem collect_written_clause (c : ImportClause) :
    (collect ((entries (c.text ++ [' '])).filter fun e => !e.isType)).Perm c.named ∧
      Ordered (collect ((entries (c.text ++ [' '])).filter fun e => !e.isType)) := by
  rw [entries_written_clause]
  unfold ImportClause.named
  cases c.binding? with
  | none => exact ⟨.nil, .nil⟩
  | some binding =>
    cases binding with
    | all name => exact ⟨.nil, .nil⟩
    | named list =>
      have hkept : (list.entries.map entryOf).filter (fun e => !e.isType) =
          list.entries.map entryOf := by
        simp [entryOf]
      dsimp only
      rw [hkept]
      exact collect_written list.nodup

/-- **A written clause is read back.** -/
theorem recovers_parse (c : ImportClause) :
    Recovers (some c) (parse (fun e => !e.isType) (c.text ++ [' '])) := by
  unfold parse
  rw [tidy_written c.tidy c.calm]
  dsimp only
  rw [replaceFirst_bracedList, defaultIn_written, namespaceIn_written]
  obtain ⟨hnamed, hordered⟩ := collect_written_clause c
  exact ⟨rfl, rfl, hnamed, hordered⟩

/-- No clause binds nothing. -/
theorem recovers_parse_nil : Recovers none (parse (fun e => !e.isType) []) :=
  ⟨rfl, rfl, .nil, .nil⟩

end Bindings

end EsModules
