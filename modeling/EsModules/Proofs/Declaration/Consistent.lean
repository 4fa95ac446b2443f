import EsModules.Proofs.Declaration.Sites
import EsModules.Proofs.Pattern.Steady

/-!
# Records whose parts agree

The shapes of exports fill in different parts of a record.  What they leave open follows from the
rest: a single name is the only one, the name of the default export makes a default export, and a
declaration says what it declares.  Behind that the parts of every record agree, whatever its shape
was.

* `ExportRecord.IsRaw`: what holds of a record as its shape gives it.
* `ExportRecord.Consistent`: what holds of it once it is filled in.
* `ExportRecord.consistent_normalize`: filling in a raw record makes its parts agree.
* `exports_consistent`: the records of the finders are consistent, and those of values in order.
-/

namespace EsModules

open Pattern

/-- The words of a declaration and what they declare: all of them, or what stands behind a leading
`declare` and the blanks that follow it. -/
def IsDeclaredBy (words type : List Char) : Prop :=
  (∃ blanks, words = "declare".toList ++ (blanks ++ type) ∧
    (∀ c ∈ blanks, Text.isBlank c = true) ∧ type.head?.any Text.isBlank = false) ∨
  (¬ "declare".toList <+: words ∧ type = words)

theorem isDeclaredBy_undeclared (words : List Char) :
    IsDeclaredBy words
      (((Text.dropPrefix? "declare".toList words).map Text.trimStart).getD words) := by
  cases hdrop : Text.dropPrefix? "declare".toList words with
  | none =>
    refine .inr ⟨?_, rfl⟩
    rintro ⟨rest, rfl⟩
    rw [Text.dropPrefix?_eq_some_iff.2 rfl] at hdrop
    cases hdrop
  | some rest =>
    obtain rfl := Text.dropPrefix?_eq_some_iff.1 hdrop
    refine .inl ⟨rest.takeWhile Text.isBlank, ?_,
      fun c hc => List.all_eq_true.1 List.all_takeWhile c hc, ?_⟩
    · show _ = "declare".toList ++ (rest.takeWhile Text.isBlank ++ rest.dropWhile Text.isBlank)
      rw [List.takeWhile_append_dropWhile]
    · show (rest.dropWhile Text.isBlank).head?.any Text.isBlank = false
      cases hhead : (rest.dropWhile Text.isBlank).head? with
      | none => rfl
      | some c => simpa [hhead] using List.head?_dropWhile_not Text.isBlank rest

namespace ExportRecord

variable {source : List Char} {r : ExportRecord}

/-! ## Filling in -/

/-- What holds of a record as its shape gives it: a default export has the name of one, the name of
a record leads its names if it lists any, and nothing has been filled in. -/
structure IsRaw (source : List Char) (r : ExportRecord) : Prop where
  name_of_default : r.kind = .default → r.name = some "default".toList
  names_of_name : ∀ name, r.name = some name → r.names = [] ∨ ∃ more, r.names = name :: more
  kindByForm : r.kindByForm = none
  declarationType : r.declarationType = none
  specifier : ∀ s, r.specifier = some s → s.Reads source

/-- The parts of a record agree.  Exactly the default exports have the name `default`; the name of a
record is one of its names, and the only one if there is no other; only default exports have had
another kind, and only declarations say what they declare, in the words of their declaration; and a
specifier has its place in the source. -/
structure Consistent (source : List Char) (r : ExportRecord) : Prop where
  kind_eq_default_iff : r.kind = .default ↔ r.name = some "default".toList
  name_mem : ∀ name, r.name = some name → name ∈ r.names
  unnamed_of_nil : r.names = [] → r.name = none
  name_of_single : ∀ name, r.names = [name] → r.name = some name
  kindByForm : ∀ kind, r.kindByForm = some kind → r.kind = .default ∧ kind ≠ .default
  declarationType : ∀ type, r.declarationType = some type →
    r.kind = .declaration ∧ ∃ words, r.declaration = some words ∧ IsDeclaredBy words type
  specifier : ∀ s, r.specifier = some s → s.Reads source

/-- The name that a record is given: its own, or else the only one in its list. -/
theorem name_normalize_eq_some_iff {name : List Char} :
    r.normalize.name = some name ↔ r.name = some name ∨ r.name = none ∧ r.names = [name] := by
  unfold normalize
  dsimp only
  split
  · next single hname hnames => simp [hname, hnames]
  · next other hname =>
    cases hr : r.name with
    | some own => simp
    | none =>
      have hnames : r.names ≠ [name] := fun hnames => hname name hr hnames
      simp [hnames]

theorem names_normalize :
    r.normalize.names = if r.names = [] then r.normalize.name.toList else r.names := by
  simp only [normalize, List.isEmpty_iff]

/-- A record with the name `default` becomes a default export, and keeps the kind that it had. -/
theorem kind_normalize_of_default (h : r.normalize.name = some "default".toList) :
    r.normalize.kind = .default ∧
      r.normalize.kindByForm = if r.kind = .default then r.kindByForm else some r.kind := by
  have hkind : r.normalize.kind =
      if r.normalize.name == some "default".toList && r.kind != .default then .default
      else r.kind := rfl
  have hform : r.normalize.kindByForm =
      if r.normalize.name == some "default".toList && r.kind != .default then some r.kind
      else r.kindByForm := rfl
  rw [hkind, hform, h]
  by_cases hdefault : r.kind = .default <;> simp [hdefault]

/-- A record with another name, or without one, keeps its kind. -/
theorem kind_normalize_of_ne_default (h : r.normalize.name ≠ some "default".toList) :
    r.normalize.kind = r.kind ∧ r.normalize.kindByForm = r.kindByForm := by
  have hname : (r.normalize.name == some "default".toList && r.kind != .default) = false := by
    rw [beq_eq_false_iff_ne.2 h, Bool.false_and]
  have hnot : ¬ (r.normalize.name == some "default".toList && r.kind != .default) = true := by
    rw [hname]
    exact Bool.false_ne_true
  exact ⟨if_neg hnot, if_neg hnot⟩

theorem declarationType_normalize :
    r.normalize.declarationType =
      if r.normalize.kind = .declaration then
        r.declaration.map fun words =>
          ((Text.dropPrefix? "declare".toList words).map Text.trimStart).getD words
      else r.declarationType := by
  simp only [normalize, beq_iff_eq]

/-- **Filling in a record makes its parts agree.** -/
theorem consistent_normalize (h : r.IsRaw source) : r.normalize.Consistent source := by
  have hnames : ∀ name, r.normalize.name = some name →
      r.normalize.names = [name] ∨ ∃ more, r.normalize.names = name :: more := by
    intro name hname
    rw [names_normalize, hname]
    by_cases hnil : r.names = []
    · exact .inl (if_pos hnil)
    · rw [if_neg hnil]
      rcases name_normalize_eq_some_iff.1 hname with hown | ⟨-, hsingle⟩
      · exact .inr ((h.names_of_name name hown).resolve_left hnil)
      · exact .inl hsingle
  refine ⟨⟨fun hkind => ?_, fun hname => (kind_normalize_of_default hname).1⟩, fun name hname => ?_,
    fun hnil => ?_, fun name hsingle => ?_, fun kind hform => ?_, fun type htype => ?_,
    h.specifier⟩
  · by_contra hname
    rw [(kind_normalize_of_ne_default hname).1] at hkind
    exact hname (name_normalize_eq_some_iff.2 (.inl (h.name_of_default hkind)))
  · rcases hnames name hname with heq | ⟨more, heq⟩ <;> rw [heq] <;> exact List.mem_cons_self
  · cases hname : r.normalize.name with
    | none => rfl
    | some name =>
      rcases hnames name hname with heq | ⟨more, heq⟩ <;> rw [heq] at hnil <;> cases hnil
  · rw [names_normalize] at hsingle
    by_cases hnil : r.names = []
    · rw [if_pos hnil] at hsingle
      exact Option.toList_eq_singleton_iff.1 hsingle
    · rw [if_neg hnil] at hsingle
      refine name_normalize_eq_some_iff.2 ?_
      cases hown : r.name with
      | none => exact .inr ⟨rfl, hsingle⟩
      | some own =>
        obtain ⟨more, heq⟩ := (h.names_of_name own hown).resolve_left hnil
        obtain ⟨rfl, -⟩ := List.cons.inj (heq.symm.trans hsingle)
        exact .inl rfl
  · by_cases hname : r.normalize.name = some "default".toList
    · obtain ⟨hkind, hby⟩ := kind_normalize_of_default hname
      refine ⟨hkind, ?_⟩
      rw [hby] at hform
      split at hform
      · rw [h.kindByForm] at hform
        cases hform
      · next hother =>
        obtain rfl := Option.some.inj hform
        exact hother
    · rw [(kind_normalize_of_ne_default hname).2, h.kindByForm] at hform
      cases hform
  · rw [declarationType_normalize] at htype
    split at htype
    · next hkind =>
      obtain ⟨words, hwords, rfl⟩ := Option.map_eq_some_iff.1 htype
      exact ⟨hkind, words, hwords, isDeclaredBy_undeclared words⟩
    · rw [h.declarationType] at htype
      cases htype

/-! ## Records of shapes -/

/-- A match has no part of a name that its shape does not remember. -/
theorem part?_eq_none_of_forgets {shape : Pattern Part} {label : Part}
    (hshape : shape.forgets label = true) {m : Match Part} (hm : Found shape source m) :
    m.part? label = none := by
  unfold Match.part?
  rw [hm.matched.find?_of_forgets hshape]
  rfl

theorem isRaw_ofMatch {shape : Pattern Part} {kind : ExportKind} (hkind : kind ≠ .default) :
    ∀ r ∈ (shape.matchesIn source).map (ofMatch kind source), r.IsRaw source := by
  intro r hr
  obtain ⟨m, hm, rfl⟩ := List.mem_map.1 hr
  exact ⟨fun hdefault => absurd hdefault hkind, fun _ _ => .inl rfl, rfl, rfl,
    fun s hs => Specifier.reads_of_ofMatch? (found_of_matchesIn m hm) hs⟩

theorem isRaw_ofDeclaration {shape : Pattern Part} :
    ∀ r ∈ (shape.matchesIn source).map (ofDeclaration source), r.IsRaw source := by
  intro r hr
  obtain ⟨m, hm, rfl⟩ := List.mem_map.1 hr
  have hraw : (ofMatch .declaration source m).IsRaw source :=
    isRaw_ofMatch (by decide) _ (List.mem_map_of_mem hm)
  unfold ofDeclaration
  dsimp only
  split
  · next name extra hname hextra =>
    split
    · refine ⟨hraw.name_of_default, fun other hother => .inr ?_, hraw.kindByForm,
        hraw.declarationType, hraw.specifier⟩
      obtain rfl := Option.some.inj (hname.symm.trans hother)
      exact ⟨_, rfl⟩
    · exact hraw
  · exact hraw

/-- A list has no name of its own. -/
theorem isRaw_ofList {shape : Pattern Part} (hshape : shape.forgets .name = true)
    (name : List Char → List Char) :
    ∀ r ∈ (shape.matchesIn source).map (ofList name source), r.IsRaw source := by
  intro r hr
  obtain ⟨m, hm, rfl⟩ := List.mem_map.1 hr
  have hfound := found_of_matchesIn m hm
  refine ⟨nofun, fun own hown => ?_, rfl, rfl,
    fun s hs => Specifier.reads_of_ofMatch? hfound hs⟩
  have hown : (m.part? .name).map (·.text source) = some own := hown
  rw [part?_eq_none_of_forgets hshape hfound] at hown
  cases hown

theorem isRaw_ofDefault {shape : Pattern Part} :
    ∀ r ∈ (shape.matchesIn source).map (ofDefault source), r.IsRaw source := by
  intro r hr
  obtain ⟨m, hm, rfl⟩ := List.mem_map.1 hr
  exact ⟨fun _ => rfl, fun _ _ => .inl rfl, rfl, rfl,
    fun s hs => Specifier.reads_of_ofMatch? (found_of_matchesIn m hm) hs⟩

theorem consistent_of_candidates : ∀ r ∈ candidates source, r.Consistent source := by
  intro r hr
  obtain ⟨raw, hraw, rfl⟩ := List.mem_map.1 hr
  refine consistent_normalize ?_
  simp only [List.mem_append] at hraw
  rcases hraw with ((((hraw | hraw) | hraw) | hraw) | hraw) | hraw
  · exact isRaw_ofDeclaration raw hraw
  · exact isRaw_ofList rfl exportedName raw hraw
  · exact isRaw_ofList rfl boundName raw hraw
  · exact isRaw_ofDefault raw hraw
  · exact isRaw_ofMatch (by decide) raw hraw
  · exact isRaw_ofMatch (by decide) raw hraw

theorem consistent_of_typeCandidates : ∀ r ∈ typeCandidates source, r.Consistent source := by
  intro r hr
  obtain ⟨raw, hraw, rfl⟩ := List.mem_map.1 hr
  refine consistent_normalize ?_
  rcases List.mem_append.1 hraw with hraw | hraw
  · exact isRaw_ofMatch (by decide) raw hraw
  · exact isRaw_ofList rfl exportedName raw hraw

/-! ## Order -/

/-- A record stands in front of another, or starts in the same place and does not reach beyond
it. -/
def Precedes (a b : ExportRecord) : Prop :=
  a.span.start < b.span.start ∨ (a.span.start = b.span.start ∧ a.span.stop ≤ b.span.stop)

theorem before_iff {a b : ExportRecord} : a.before b = true ↔ a.Precedes b := by
  simp [before, Precedes]

theorem pairwise_precedes (records : List ExportRecord) :
    (records.mergeSort before).Pairwise Precedes := by
  have htrans : ∀ a b c : ExportRecord, a.before b = true → b.before c = true →
      a.before c = true := by
    simp only [before_iff, Precedes]
    omega
  have htotal : ∀ a b : ExportRecord, (a.before b || b.before a) = true := by
    simp only [Bool.or_eq_true, before_iff, Precedes]
    omega
  exact (List.pairwise_mergeSort htrans htotal records).imp before_iff.1

end ExportRecord

/-! ## Finders -/

/-- **The records of the finders are consistent**, whatever the validator, and the exports of values
are in the order of their places. -/
theorem exports_consistent (a : Analyzer) (source : List Char) :
    (∀ found, a.exports source = .ok found →
      (∀ r ∈ found, r.Consistent source) ∧ found.Pairwise ExportRecord.Precedes) ∧
    ∀ found, a.typeExports source = .ok found → ∀ r ∈ found, r.Consistent source := by
  refine ⟨fun found h => ?_, fun found h r hr => ?_⟩
  · obtain ⟨kept, hkept, rfl⟩ := map_eq_ok.1 h
    have hsub := ExportRecord.collapse_sublist (kept.mergeSort ExportRecord.before)
    refine ⟨fun r hr => ?_, (ExportRecord.pairwise_precedes kept).sublist hsub⟩
    have hmem := List.mem_mergeSort.1 (hsub.subset hr)
    exact ExportRecord.consistent_of_candidates r (Analyzer.mem_of_confirmed hkept r hmem)
  · obtain ⟨kept, hkept, rfl⟩ := map_eq_ok.1 h
    have hmem := (ExportRecord.collapse_sublist kept).subset hr
    exact ExportRecord.consistent_of_typeCandidates r (Analyzer.mem_of_confirmed hkept r hmem)

/-- Variables, and a list behind them. -/
def declaredExports : List Char := "export let a, b\nexport \x7bx as default\x7d from 'y'".toList

/-- The record of the variables, which runs on into the list, and the record of the list. -/
def declaredRecords : List ExportRecord :=
  [⟨.declaration, none, declaredExports.take 42, ⟨0, 42⟩, some ['a'], [['a'], ['b']], none,
      some "let".toList, some "let".toList, none⟩,
    ⟨.default, some .named, declaredExports.drop 16, ⟨16, 46⟩, some "default".toList,
      ["default".toList], some ⟨['y'], ⟨44, 45⟩⟩, none, none, none⟩]

/-- The list makes a default export, and what is declared is a class. -/
theorem exports_consistent_declared :
    (Analyzer.standard.exports declaredExports = .ok declaredRecords ∧
      (∀ r ∈ declaredRecords, r.Consistent declaredExports) ∧
      declaredRecords.Pairwise ExportRecord.Precedes) ∧
    ∃ r, Analyzer.standard.typeExports "export declare class A".toList = .ok [r] ∧
      r.declarationType = some "class".toList ∧ r.Consistent "export declare class A".toList := by
  have hconfirmed : Analyzer.standard.confirmed declaredExports .exportKw ExportRecord.span
      (ExportRecord.candidates declaredExports) = .ok declaredRecords := by
    unfold declaredRecords declaredExports
    repeat rw [String.toList_ofList]
    decide +kernel
  have hsort : declaredRecords.mergeSort ExportRecord.before = declaredRecords :=
    List.mergeSort_of_pairwise (by decide)
  have hexports : Analyzer.standard.exports declaredExports = .ok declaredRecords := by
    refine map_eq_ok.2 ⟨_, hconfirmed, ?_⟩
    rw [hsort]
    decide +kernel
  have htypes : Analyzer.standard.typeExports "export declare class A".toList = .ok
      [⟨.declaration, none, "export declare class A".toList, ⟨0, 22⟩, some ['A'], [['A']], none,
        some "declare class".toList, some "class".toList, none⟩] := by
    repeat rw [String.toList_ofList]
    decide +kernel
  refine ⟨⟨hexports, (exports_consistent _ _).1 _ hexports⟩, _, htypes, rfl, ?_⟩
  exact (exports_consistent _ _).2 _ htypes _ List.mem_cons_self

end EsModules
