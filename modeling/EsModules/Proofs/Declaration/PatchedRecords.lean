import EsModules.Proofs.Declaration.PatchedParts
import EsModules.Proofs.Declaration.PatchedShapes

/-!
# Records of declarations in patched texts

The declarations found in two texts that differ within quotes correspond to each other.  They have
the same kinds and names, stand at aligned places, and so do their specifiers.  Only names that are
taken from between the brackets of a declaration with a pattern may change, if a quoted text is
swapped there.

* `Pattern.AlignedMatch.rel_part?`, `Pattern.AlignedMatch.text_part?`: the parts of corresponding
  matches, and those that read the same.
* `StaticImport.forall₂_candidates`, `DynamicImport.forall₂_candidates`,
  `ExportRecord.forall₂_candidates`: the declarations that are found.
* `Rewriting.exists_aligned_sites`: the specifiers that are found, if the same places are kept.
-/

namespace EsModules

open Patch

variable {all : List Patch}

/-- Options that are related by more than they have to be. -/
theorem rel_imp_of_eq {α β : Type} {R S : α → β → Prop} {a : Option α} {b : Option β}
    (h : Option.Rel R a b) (himp : ∀ x y, a = some x → b = some y → R x y → S x y) :
    Option.Rel S a b := by
  cases h with
  | none => exact .none
  | some h => exact .some (himp _ _ rfl rfl h)

theorem map_eq_of_rel {α β γ : Type} {R : α → β → Prop} {a : Option α} {b : Option β} {f : α → γ}
    {g : β → γ} (h : Option.Rel R a b) (himp : ∀ x y, a = some x → R x y → g y = f x) :
    b.map g = a.map f := by
  cases h with
  | none => rfl
  | some h => exact congrArg some (himp _ _ rfl h)

/-! ## Parts of corresponding matches -/

namespace Patch

/-- No swapped text lies within a span. -/
def Clear (all : List Patch) (s : Span) : Prop :=
  ∀ pre q x y post, all = pre ++ swap q x y :: post → s.start ≤ Text.byteLength (pre.flatMap old) →
    s.stop < Text.byteLength (pre.flatMap old) + Text.byteLength (old (swap q x y))

/-- A span without swapped texts reads the same in both texts. -/
theorem Clear.text_eq {s s' : Span} (h : Clear all s) (hstart : AtEdge all s.start s'.start)
    (hstop : AtEdge all s.stop s'.stop) (hle : s.start ≤ s.stop) :
    s'.text (all.flatMap new) = s.text (all.flatMap old) := by
  obtain ⟨pre, mid, post, hall, hs, -, ht, htext, htext'⟩ := exists_texts hstart hstop hle
  have hclear : ∀ q x y, swap q x y ∉ mid := by
    intro q x y hmem
    obtain ⟨front, back, rfl⟩ := List.append_of_mem hmem
    have hlt := h (pre ++ front) q x y (back ++ post) (by rw [hall]; simp) (by
      rw [hs, List.flatMap_append, Text.byteLength_append]
      omega)
    simp only [List.flatMap_append, List.flatMap_cons, Text.byteLength_append] at hlt ht
    omega
  rw [htext, htext', text_eq_of_clear hclear]

end Patch

namespace Pattern

variable {p : Pattern Part} {m m' : Match Part} {label : Part} {accept : Match Part → Bool}

theorem AlignedMatch.span (h : AlignedMatch all m m') : AlignedSpan all m.span m'.span :=
  ⟨h.front.aligned, h.back.aligned⟩

/-- The parts of corresponding matches are aligned. -/
theorem AlignedMatch.rel_part? (h : AlignedMatch all m m') (label : Part) :
    Option.Rel (fun s s' => AlignedSpan all s s' ∧ (isLoose label = false →
      AtEdge all s.start s'.start ∧ AtEdge all s.stop s'.stop))
        (m.part? label) (m'.part? label) := by
  have hcaptures := h.captures
  unfold Match.part?
  unfold AlignedCaptures at hcaptures
  generalize m.captures = caps at hcaptures ⊢
  generalize m'.captures = caps' at hcaptures ⊢
  induction hcaptures with
  | nil => exact .none
  | @cons e e' caps caps' he _ ih =>
    rw [List.find?_cons, List.find?_cons, ← he.label]
    by_cases hlabel : e.1 = label
    · rw [decide_eq_true hlabel]
      exact .some ⟨he.aligned, fun htight => he.edges (hlabel ▸ htight)⟩
    · rw [decide_eq_false hlabel]
      exact ih

/-- The parts of corresponding matches between stretches read the same stretches. -/
theorem AlignedMatch.twins_part? (h : AlignedMatch all m m') (hm : Found p (all.flatMap old) m)
    (htight : isLoose label = false) :
    Option.Rel (fun s s' => Twins all s s' (s.text (all.flatMap old)) (s'.text (all.flatMap new)))
      (m.part? label) (m'.part? label) := by
  refine rel_imp_of_eq (h.rel_part? label) fun s s' hs _ hrel => ?_
  obtain ⟨hstart, hstop⟩ := hrel.2 htight
  obtain ⟨text, hcovers⟩ := covers_of_part? hm hs
  exact twins_of_atEdge hstart hstop hcovers.start_le

/-- Parts that have no quote in them read the same. -/
theorem AlignedMatch.text_part? (hall : ∀ p ∈ all, p.Valid) (h : AlignedMatch all m m')
    (hm : Found p (all.flatMap old) m) (htight : isLoose label = false)
    (hp : p.keepsQuotesOut label = true) :
    (m'.part? label).map (·.text (all.flatMap new)) =
      (m.part? label).map (·.text (all.flatMap old)) :=
  map_eq_of_rel (h.twins_part? hm htight) fun _ _ hs htwins =>
    htwins.text_eq hall (quoteless_of_part? hm hp hs)

/-- Parts without swapped texts read the same. -/
theorem AlignedMatch.text_part?_of_clear (h : AlignedMatch all m m')
    (hm : Found p (all.flatMap old) m) (htight : isLoose label = false)
    (hclear : ∀ s, m.part? label = some s → Clear all s) :
    (m'.part? label).map (·.text (all.flatMap new)) =
      (m.part? label).map (·.text (all.flatMap old)) := by
  refine map_eq_of_rel (h.rel_part? label) fun s s' hs hrel => ?_
  obtain ⟨hstart, hstop⟩ := hrel.2 htight
  obtain ⟨text, hcovers⟩ := covers_of_part? hm hs
  exact (hclear s hs).text_eq hstart hstop hcovers.start_le

/-- Corresponding matches, of which the first are found in the text before. -/
theorem Corresponds.select_found (hall : ∀ p ∈ all, p.Valid) (hp : Corresponds all p accept) :
    List.Forall₂ (fun m m' => Found p (all.flatMap old) m ∧ AlignedMatch all m m')
      (p.select accept (all.flatMap old)) (p.select accept (all.flatMap new)) :=
  (List.forall₂_and_left _ _).2 ⟨fun m hm => (found_of_select m hm).1, hp.select hall⟩

end Pattern

open Pattern

variable {m m' : Match Part} {p : Pattern Part}

/-! ## Imports -/

/-- Specifiers at aligned places. -/
def Specifier.Aligned (all : List Patch) (s s' : Specifier) : Prop := AlignedSpan all s.span s'.span

theorem Specifier.rel_ofMatch? (h : AlignedMatch all m m') : Option.Rel (Specifier.Aligned all)
    (ofMatch? (all.flatMap old) m) (ofMatch? (all.flatMap new) m') := by
  have hrel := h.rel_part? .specifier
  unfold ofMatch?
  generalize m.part? .specifier = s? at hrel ⊢
  generalize m'.part? .specifier = s'? at hrel ⊢
  cases hrel with
  | none => exact .none
  | some hrel => exact .some hrel.1

/-- Import declarations at aligned places. -/
structure StaticImport.Aligned (all : List Patch) (i i' : StaticImport) : Prop where
  span : AlignedSpan all i.span i'.span
  specifier : i.specifier.Aligned all i'.specifier

/-- The import declarations of both texts correspond. -/
theorem StaticImport.forall₂_candidates (hall : ∀ p ∈ all, p.Valid) :
    List.Forall₂ (StaticImport.Aligned all) (candidates (all.flatMap old))
      (candidates (all.flatMap new)) := by
  refine List.rel_filterMap (fun m m' h => ?_) ((Shape.corresponds_staticImport hall).select hall)
  have hrel := Specifier.rel_ofMatch? h
  unfold ofMatch?
  generalize Specifier.ofMatch? (all.flatMap old) m = s? at hrel ⊢
  generalize Specifier.ofMatch? (all.flatMap new) m' = s'? at hrel ⊢
  cases hrel with
  | none => exact .none
  | some hs => exact .some ⟨h.span, hs⟩

/-- Calls of `import` at aligned places, with the quoted texts that are their arguments. -/
structure DynamicImport.Aligned (all : List Patch) (d d' : DynamicImport) : Prop where
  span : AlignedSpan all d.span d'.span
  literal : Option.Rel (Specifier.Aligned all) d.literal? d'.literal?

/-- The calls of `import` in both texts correspond. -/
theorem DynamicImport.forall₂_candidates (hall : ∀ p ∈ all, p.Valid) :
    List.Forall₂ (DynamicImport.Aligned all) (candidates (all.flatMap old))
      (candidates (all.flatMap new)) := by
  refine List.rel_filterMap (fun m m' h => ?_)
    ((Shape.corresponds_dynamicImport hall).select_found hall)
  have hrel : Option.Rel _ (m.part? .expression) (m'.part? .expression) :=
    h.2.twins_part? h.1 rfl
  unfold ofMatch?
  generalize m.part? .expression = s? at hrel ⊢
  generalize m'.part? .expression = s'? at hrel ⊢
  cases hrel with
  | none => exact .none
  | some htwins => exact .some ⟨h.2.span, rel_literal? hall htwins⟩

/-! ## Exports -/

namespace ExportRecord

/-- Records that export the same name in the same way at aligned places. -/
structure Aligned (all : List Patch) (r r' : ExportRecord) : Prop where
  span : AlignedSpan all r.span r'.span
  kind : r'.kind = r.kind
  name : r'.name = r.name
  specifier : Option.Rel (Specifier.Aligned all) r.specifier r'.specifier

/-- Such records before what follows from the rest of them is filled in. -/
structure AlignedForm (all : List Patch) (r r' : ExportRecord) : Prop extends
    Aligned all r r' where
  names : r.name = none → r'.names = r.names

/-- Filling in keeps records aligned: a name that is filled in comes from the names. -/
theorem AlignedForm.normalize {r r' : ExportRecord} (h : AlignedForm all r r') :
    Aligned all r.normalize r'.normalize := by
  have hname : r'.normalize.name = r.normalize.name := by
    unfold ExportRecord.normalize
    dsimp only
    rw [h.name]
    cases hname : r.name with
    | none => rw [h.names hname]
    | some name => rfl
  refine ⟨h.span, ?_, hname, h.specifier⟩
  show (if r'.normalize.name == some "default".toList && r'.kind != .default then
      ExportKind.default else r'.kind) =
    (if r.normalize.name == some "default".toList && r.kind != .default then
      ExportKind.default else r.kind)
  rw [hname, h.kind]

variable {source : List Char}

theorem alignedForm_ofMatch (hall : ∀ p ∈ all, p.Valid) (kind : ExportKind)
    (hm : Found p (all.flatMap old) m) (h : AlignedMatch all m m')
    (hp : p.keepsQuotesOut .name = true) :
    AlignedForm all (ofMatch kind (all.flatMap old) m) (ofMatch kind (all.flatMap new) m') where
  span := h.span
  kind := rfl
  name := h.text_part? hall hm rfl hp
  specifier := Specifier.rel_ofMatch? h
  names _ := rfl

/-- An exported declaration is what its match says, but for the names behind the first. -/
theorem exists_names_ofDeclaration (source : List Char) (m : Match Part) : ∃ names,
    ofDeclaration source m = { ofMatch .declaration source m with names := names } ∧
      ((ofMatch .declaration source m).name = none → names = []) := by
  unfold ofDeclaration
  dsimp only
  split
  · rename_i name extra hname _
    split
    · refine ⟨_, rfl, fun hnone => ?_⟩
      rw [hname] at hnone
      cases hnone
    · exact ⟨[], rfl, fun _ => rfl⟩
  · exact ⟨[], rfl, fun _ => rfl⟩

theorem alignedForm_ofDeclaration (hall : ∀ p ∈ all, p.Valid)
    (hm : Found p (all.flatMap old) m) (h : AlignedMatch all m m')
    (hp : p.keepsQuotesOut .name = true) :
    AlignedForm all (ofDeclaration (all.flatMap old) m) (ofDeclaration (all.flatMap new) m') := by
  have hform := alignedForm_ofMatch hall .declaration hm h hp
  obtain ⟨names, hr, hnames⟩ := exists_names_ofDeclaration (all.flatMap old) m
  obtain ⟨names', hr', hnames'⟩ := exists_names_ofDeclaration (all.flatMap new) m'
  rw [hr, hr']
  refine ⟨⟨hform.span, hform.kind, hform.name, hform.specifier⟩, fun hnone => ?_⟩
  show names' = names
  rw [hnames hnone, hnames' (hform.name.trans hnone)]

theorem alignedForm_ofList (hall : ∀ p ∈ all, p.Valid) (name : List Char → List Char)
    (hm : Found p (all.flatMap old) m) (h : AlignedMatch all m m')
    (hp : p.keepsQuotesOut .name = true)
    (hentries : (m'.part? .entries).map (·.text (all.flatMap new)) =
      (m.part? .entries).map (·.text (all.flatMap old))) :
    AlignedForm all (ofList name (all.flatMap old) m) (ofList name (all.flatMap new) m') := by
  have hform := alignedForm_ofMatch hall .named hm h hp
  refine ⟨⟨hform.span, hform.kind, hform.name, hform.specifier⟩, fun _ => ?_⟩
  unfold ofList
  rw [hentries]

theorem alignedForm_ofDefault (h : AlignedMatch all m m') :
    AlignedForm all (ofDefault (all.flatMap old) m) (ofDefault (all.flatMap new) m') :=
  ⟨⟨h.span, rfl, rfl, Specifier.rel_ofMatch? h⟩, fun hnone => by cases hnone⟩

/-- No swapped text lies where an exported declaration takes a value apart. -/
def KeepsEntries (all : List Patch) : Prop :=
  ∀ m ∈ Shape.exportDestructured.matchesIn (all.flatMap old), ∀ s, m.part? .entries = some s →
    Clear all s

/-- The exports of both texts correspond. -/
theorem forall₂_candidates (hall : ∀ p ∈ all, p.Valid) (hentries : KeepsEntries all) :
    List.Forall₂ (Aligned all) (candidates (all.flatMap old)) (candidates (all.flatMap new)) := by
  refine List.rel_map (fun _ _ h => AlignedForm.normalize h) ?_
  refine List.rel_append (List.rel_append (List.rel_append (List.rel_append (List.rel_append
    ?declaration ?named) ?destructured) ?default) ?defaultClass) ?star
  case declaration =>
    exact List.rel_map (fun _ _ h => alignedForm_ofDeclaration hall h.1 h.2 rfl)
      ((Shape.corresponds_exportDeclaration hall).select_found hall)
  case named =>
    exact List.rel_map (fun _ _ h => alignedForm_ofList hall exportedName h.1 h.2 rfl
      (h.2.text_part? hall h.1 rfl rfl)) ((Shape.corresponds_exportNamed hall).select_found hall)
  case destructured =>
    have hkeeps := (List.forall₂_and_left _ _).2
      ⟨hentries, (Shape.corresponds_exportDestructured hall).select_found hall⟩
    exact List.rel_map (fun _ _ h => alignedForm_ofList hall boundName h.2.1 h.2.2 rfl
      (h.2.2.text_part?_of_clear h.2.1 rfl h.1)) hkeeps
  case default =>
    exact List.rel_map (fun _ _ h => alignedForm_ofDefault h)
      ((Shape.corresponds_exportDefault hall).select hall)
  case defaultClass =>
    exact List.rel_map (fun _ _ h => alignedForm_ofMatch hall .declaration h.1 h.2 rfl)
      ((Shape.corresponds_exportDefaultClass hall).select_found hall)
  case star =>
    exact List.rel_map (fun _ _ h => alignedForm_ofMatch hall .star h.1 h.2 rfl)
      ((Shape.corresponds_exportStar hall).select_found hall)

variable {r r' t t' : ExportRecord}

/-- Collapsing keeps records related that export the same names. -/
theorem forall₂_collapse {R : ExportRecord → ExportRecord → Prop}
    (hsame : ∀ {a a' b b'}, R a b → R a' b' → a.sameName a' = b.sameName b')
    {rs rs' : List ExportRecord} (h : List.Forall₂ R rs rs') :
    List.Forall₂ R (collapse rs) (collapse rs') := by
  induction h with
  | nil => exact .nil
  | @cons r r' rs rs' hr h ih =>
    cases h with
    | nil => exact .cons hr .nil
    | @cons next next' rest rest' hnext h =>
      rw [collapse, collapse, hsame hr hnext]
      split
      · exact ih
      · exact .cons hr ih

theorem Aligned.before_eq (hall : ∀ p ∈ all, p.Valid) (h : Aligned all r r')
    (ht : Aligned all t t') : r.before t = r'.before t' := by
  have hlt := h.span.1.lt_iff hall ht.span.1
  have heq := h.span.1.eq_iff hall ht.span.1
  have hle := h.span.2.le_iff hall ht.span.2
  simp only [before, hlt, hle, beq_eq_beq.2 heq]

theorem Aligned.sameName_eq (h : Aligned all r r') (ht : Aligned all t t') :
    r.sameName t = r'.sameName t' := by
  unfold sameName
  rw [h.kind, h.name, ht.kind, ht.name]

end ExportRecord

/-! ## Sites -/

/-- **The sites of both texts** correspond, if the same places are kept and no swapped text lies
where an exported declaration takes a value apart. -/
theorem Rewriting.exists_aligned_sites (hall : ∀ p ∈ all, p.Valid)
    (hentries : ExportRecord.KeepsEntries all) {kept kept' : Keyword → Span → Bool}
    (hkept : ∀ word ∈ Keyword.declaring, ∀ s s', AlignedSpan all s s' →
      kept word s = kept' word s')
    (h : FindersKeep (all.flatMap old) kept) (h' : FindersKeep (all.flatMap new) kept') :
    ∃ found found', sites .standard (all.flatMap old) = .ok found ∧
      sites .standard (all.flatMap new) = .ok found' ∧
      List.Forall₂ (Specifier.Aligned all) found found' := by
  have himport : Keyword.importKw ∈ Keyword.declaring := by decide
  have hexport : Keyword.exportKw ∈ Keyword.declaring := by decide
  have hstart : ∀ {s s' t t' : Specifier}, s.Aligned all s' → t.Aligned all t' →
      (s.span.start ≤ t.span.start ↔ s'.span.start ≤ t'.span.start) ∧
        (s.span.start = t.span.start ↔ s'.span.start = t'.span.start) :=
    fun hs ht => ⟨hs.1.le_iff hall ht.1, hs.1.eq_iff hall ht.1⟩
  unfold sites
  rw [h.staticImports, h.dynamicImports, h.exports, h'.staticImports, h'.dynamicImports,
    h'.exports]
  refine ⟨_, _, rfl, rfl, forall₂_eraseRepsBy (fun hs ht => ?_) (forall₂_mergeSort
    (fun hs ht => ?_) (List.rel_append (List.rel_append ?static ?dynamic) ?exported))⟩
  · exact Bool.eq_iff_iff.2 (by simpa using (hstart hs ht).2)
  · exact decide_eq_decide.2 (hstart hs ht).1
  case static =>
    refine List.rel_map (fun _ _ h => StaticImport.Aligned.specifier h)
      (List.rel_filter (fun i i' hi => ?_) (StaticImport.forall₂_candidates hall))
    exact Bool.eq_iff_iff.1 (hkept _ himport _ _ hi.span)
  case dynamic =>
    refine List.rel_filterMap (fun _ _ h => DynamicImport.Aligned.literal h)
      (List.rel_filter (fun d d' hd => ?_) (DynamicImport.forall₂_candidates hall))
    exact Bool.eq_iff_iff.1 (hkept _ himport _ _ hd.span)
  case exported =>
    refine List.rel_filterMap (fun _ _ h => ExportRecord.Aligned.specifier h)
      (ExportRecord.forall₂_collapse (fun hr ht => hr.sameName_eq ht)
        (forall₂_mergeSort (fun hr ht => hr.before_eq hall ht)
          (List.rel_filter (fun r r' hr => ?_) (ExportRecord.forall₂_candidates hall hentries))))
    exact Bool.eq_iff_iff.1 (hkept _ hexport _ _ hr.span)

end EsModules
