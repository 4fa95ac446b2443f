import EsModules.Proofs.Module.Rewriting
import EsModules.Proofs.Text.Patch

/-!
# The gaps between specifiers

The sites of a source divide it into themselves and the gaps between them, unless two of them
overlap.  Rewriting goes by place: it keeps the gaps and resolves the text of each site, whatever
stands elsewhere in the source.

* `Rewriting.Divides`: how specifiers divide a text.
* `Divides.splices`: what replacing the specifiers of a divided text gives.
* `Rewriting.parted_iff_disjoint`: specifiers that are not empty overlap where their spans do.
* `Rewriting.rewrite_divided`: what rewriting makes of every source, whether all of its specifiers
  are resolved or not.
-/

namespace EsModules.Rewriting

variable {source : List Char} {resolve : List Char → Except Error (List Char)}
  {location : List Char → List Char} {found : List Specifier}

/-! ## Divisions -/

/-- Texts between gaps: one gap more than there are texts. -/
def woven : List (List Char) → List (List Char) → List Char
  | gap :: gaps, text :: texts => gap ++ (text ++ woven gaps texts)
  | gaps, _ => gaps.flatten

/-- The gaps that specifiers leave in a text that starts at an offset: each specifier starts behind
its gap and reaches as far as its text. -/
inductive Divides : Nat → List Specifier → List Char → List (List Char) → Prop
  | last {offset : Nat} {rest : List Char} : Divides offset [] rest [rest]
  | next {offset : Nat} {s : Specifier} {found : List Specifier} {gap rest : List Char}
      {gaps : List (List Char)} (start : s.span.start = offset + Text.byteLength gap)
      (stop : s.span.stop = s.span.start + Text.byteLength s.text)
      (more : Divides s.span.stop found rest gaps) :
      Divides offset (s :: found) (gap ++ (s.text ++ rest)) (gap :: gaps)

/-- A divided text is its specifiers between their gaps. -/
theorem Divides.eq_woven {offset : Nat} {rest : List Char} {gaps : List (List Char)}
    (h : Divides offset found rest gaps) : rest = woven gaps (found.map Specifier.text) := by
  induction h with
  | last => simp [woven]
  | next start stop more ih => rw [ih, List.map_cons, woven]

/-- There is one way to divide a text. -/
theorem Divides.unique {offset : Nat} {rest : List Char} {gaps gaps' : List (List Char)}
    (h : Divides offset found rest gaps) (h' : Divides offset found rest gaps') :
    gaps' = gaps := by
  induction h generalizing gaps' with
  | last =>
    cases h'
    rfl
  | @next offset s found gap rest gaps start stop more ih =>
    generalize hrest : gap ++ (s.text ++ rest) = whole at h'
    cases h' with
    | @next _ _ _ gap' rest' gaps' start' stop' more' =>
      obtain ⟨rfl, hbehind⟩ := Patch.append_inj_of_byteLength hrest (by omega)
      obtain rfl := List.append_cancel_left hbehind
      rw [ih more']

/-- Specifiers that read what stands in their places, one behind the other, divide the text that
follows what lies in front of all of them. -/
theorem exists_divides {front rest : List Char} (hsource : source = front ++ rest)
    (hreads : ∀ s ∈ found, s.Reads source) (hapart : Apart found)
    (hbehind : ∀ s ∈ found, Text.byteLength front ≤ s.span.start) :
    ∃ gaps, Divides (Text.byteLength front) found rest gaps := by
  induction found generalizing front rest with
  | nil => exact ⟨[rest], .last⟩
  | cons s found ih =>
    have hread := hreads s List.mem_cons_self
    obtain ⟨gap, back, rfl, hstart⟩ :=
      hread.exists_append hsource (hbehind s List.mem_cons_self)
    obtain ⟨hfirst, hapart⟩ := List.pairwise_cons.1 hapart
    have hstop : s.span.stop = s.span.start + Text.byteLength s.text := by
      obtain ⟨before, -, -, hs, hstop⟩ := hread
      omega
    have hfront : s.span.stop = Text.byteLength (front ++ (gap ++ s.text)) := by
      simp only [Text.byteLength_append]
      omega
    have hrest : source = (front ++ (gap ++ s.text)) ++ back := by
      rw [hsource]
      simp
    obtain ⟨gaps, hgaps⟩ := ih hrest (fun t ht => hreads t (List.mem_cons_of_mem s ht)) hapart
      fun t ht => hfront ▸ hfirst t ht
    rw [← hfront] at hgaps
    exact ⟨gap :: gaps, .next hstart hstop hgaps⟩

/-- Replacing the specifiers of a divided text leaves its gaps. -/
theorem Divides.splices {offset : Nat} {rest : List Char} {gaps : List (List Char)}
    (h : Divides offset found rest gaps) (location : List Char → List Char) :
    Edit.Splices offset (replacements location found) rest
      (woven gaps (found.map fun s => location s.text)) := by
  induction h with
  | last =>
    simp only [replacements, List.map_nil, woven, List.flatten_cons, List.flatten_nil,
      List.append_nil]
    exact .done
  | next start stop more ih => exact .edit start stop ih

/-- Specifiers that divide a text stand one behind the other. -/
theorem Divides.apart {offset : Nat} {rest : List Char} {gaps : List (List Char)}
    (h : Divides offset found rest gaps) : Apart found ∧ ∀ s ∈ found, offset ≤ s.span.start := by
  induction h with
  | last => exact ⟨.nil, fun s hs => absurd hs List.not_mem_nil⟩
  | next start stop more ih =>
    refine ⟨List.pairwise_cons.2 ⟨ih.2, ih.1⟩, fun t ht => ?_⟩
    rcases List.mem_cons.1 ht with rfl | ht
    · omega
    · have hbehind := ih.2 t ht
      omega

/-! ## Overlaps -/

/-- Specifiers of which no two overlap: one of the two ends where or before the other starts. -/
def Parted (found : List Specifier) : Prop :=
  found.Pairwise fun s t => s.span.stop ≤ t.span.start ∨ t.span.stop ≤ s.span.start

/-- Specifiers that are not empty are parted if no two of them have an offset in common. -/
theorem parted_iff_disjoint (hne : ∀ s ∈ found, s.span.start < s.span.stop) :
    Parted found ↔ found.Pairwise fun s t => s.span.Disjoint t.span := by
  refine ⟨fun h => h.imp fun hsides => ?_, fun h => h.imp_of_mem fun {s t} hs ht hdisjoint => ?_⟩
  · exact hsides.elim Span.disjoint_of_stop_le fun hle => (Span.disjoint_of_stop_le hle).symm
  · rcases Nat.le_total s.span.start t.span.start with hle | hle
    · exact .inl (hdisjoint.stop_le hle (hne t ht))
    · exact .inr (hdisjoint.symm.stop_le hle (hne s hs))

/-- Listed by their starts, parted specifiers stand one behind the other. -/
theorem apart_of_parted (hreads : ∀ s ∈ found, s.Reads source)
    (hstarts : found.Pairwise fun s t => s.span.start < t.span.start) (hparted : Parted found) :
    Apart found := by
  refine (List.Pairwise.and hstarts hparted).imp_of_mem fun {s t} _ ht h => ?_
  obtain ⟨hlt, hle | hle⟩ := h
  · exact hle
  · have hend := (hreads t ht).start_le
    omega

/-! ## Failing -/

/-- The first of some texts that is not resolved decides. -/
theorem resolveAll_append_error {front back : List (List Char)} {t : List Char} {e : Error}
    (hfront : ∀ u ∈ front, ∃ url, resolve u = .ok url) (ht : resolve t = .error e) :
    resolveAll resolve (front ++ t :: back) = .error e := by
  induction front with
  | nil =>
    rw [List.nil_append, resolveAll, ht]
    rfl
  | cons u front ih =>
    obtain ⟨url, hurl⟩ := hfront u List.mem_cons_self
    rw [List.cons_append, resolveAll, hurl]
    show (resolveAll resolve (front ++ t :: back) >>= _) = _
    rw [ih fun v hv => hfront v (List.mem_cons_of_mem u hv)]
    rfl

/-- Of texts that are not all resolved there is a first that is not. -/
theorem exists_first_error {texts : List (List Char)}
    (h : ∃ t ∈ texts, ∃ e, resolve t = .error e) :
    ∃ front t back e, texts = front ++ t :: back ∧ resolve t = .error e ∧
      ∀ u ∈ front, ∃ url, resolve u = .ok url := by
  obtain ⟨t, ht, e, he⟩ := h
  induction texts with
  | nil => cases ht
  | cons u texts ih =>
    cases hu : resolve u with
    | error e' => exact ⟨[], u, texts, e', rfl, hu, fun v hv => absurd hv List.not_mem_nil⟩
    | ok url =>
      rcases List.mem_cons.1 ht with rfl | ht
      · rw [hu] at he
        cases he
      · obtain ⟨front, v, back, e', rfl, hv, hfront⟩ := ih ht
        refine ⟨u :: front, v, back, e', rfl, hv, fun w hw => ?_⟩
        rcases List.mem_cons.1 hw with rfl | hw
        · exact ⟨url, hu⟩
        · exact hfront w hw

/-- If not all specifiers of a source are resolved, the first text in order that is not decides
what rewriting gives. -/
theorem rewrite_eq_error (hsites : sites .standard source = .ok found)
    (h : ∃ s ∈ found, ∃ e, resolve s.text = .error e) :
    ∃ s ∈ found, ∃ e, resolve s.text = .error e ∧
      (∀ t ∈ found, Text.le t.text s.text = true → t.text ≠ s.text →
        ∃ url, resolve t.text = .ok url) ∧
      rewrite resolve source = .error e := by
  have hmem (t : List Char) : t ∈ Text.sortDistinct (found.map Specifier.text) ↔
      ∃ s ∈ found, s.text = t := by
    rw [Text.mem_sortDistinct, List.mem_map]
  obtain ⟨s, hs, e, he⟩ := h
  obtain ⟨front, t, back, e, htexts, ht, hfront⟩ :=
    exists_first_error ⟨s.text, (hmem s.text).2 ⟨s, hs, rfl⟩, e, he⟩
  obtain ⟨s, hs, rfl⟩ := (hmem t).1 (by simp [htexts])
  refine ⟨s, hs, e, ht, fun u hu hle hne => ?_, ?_⟩
  · -- what stands behind the first failing text is greater
    have hsorted := Text.pairwise_sortDistinct (found.map Specifier.text)
    rw [htexts, List.pairwise_append, List.pairwise_cons] at hsorted
    have hin := (hmem u.text).2 ⟨u, hu, rfl⟩
    rw [htexts, List.mem_append, List.mem_cons] at hin
    rcases hin with hin | heq | hin
    · exact hfront u.text hin
    · exact absurd heq hne
    · exact absurd (Text.le_antisymm hle (hsorted.2.1.1 u.text hin).1) hne
  · unfold rewrite
    rw [hsites]
    show (resolveAll resolve (Text.sortDistinct (found.map Specifier.text)) >>= _) = _
    rw [htexts, resolveAll_append_error hfront ht]
    rfl

/-- If all specifiers are resolved, rewriting puts what each is resolved to between the gaps. -/
theorem rewrite_eq_woven {gaps : List (List Char)} (hsites : sites .standard source = .ok found)
    (hgaps : Divides 0 found source gaps)
    (hresolve : ∀ s ∈ found, ∃ url, resolve s.text = .ok url) :
    ∃ urls, List.Forall₂ (fun s url => resolve s.text = .ok url) found urls ∧
      rewrite resolve source = .ok (woven gaps urls) := by
  have htexts : ∀ t ∈ found.map Specifier.text, ∃ url, resolve t = .ok url := by
    intro t ht
    obtain ⟨s, hs, rfl⟩ := List.mem_map.1 ht
    exact hresolve s hs
  choose! location hlocation using htexts
  have hall : ∀ s ∈ found, resolve s.text = .ok (location s.text) := fun s hs =>
    hlocation s.text (List.mem_map_of_mem hs)
  refine ⟨found.map fun s => location s.text, ?_, ?_⟩
  · rw [List.forall₂_map_right_iff, List.forall₂_same]
    exact hall
  · have hordered : Edit.areOrdered 0 (replacements location found) = true :=
      (areOrdered_replacements (reads_of_sites hsites).1).2 hgaps.apart.1
    have hspliced := (hgaps.splices location).applyFrom_eq
    rw [rewrite_eq hsites hall, if_pos hordered]
    exact congrArg Except.ok hspliced

/-- **Rewriting touches nothing but specifiers.**  The sites of a source divide it exactly if no two
of them overlap, and then in one way.  If all of them are resolved, rewriting keeps the gaps and
puts in the place of each site what its own text is resolved to, so that two sites get the same
exactly if their texts are resolved alike.  If some text is not resolved, the first of those in
order decides, whatever the places of the sites. -/
theorem rewrite_divided (hsites : sites .standard source = .ok found) :
    (Parted found ↔ ∃ gaps, Divides 0 found source gaps) ∧
    (∀ gaps, Divides 0 found source gaps →
      source = woven gaps (found.map Specifier.text) ∧
      (∀ gaps', Divides 0 found source gaps' → gaps' = gaps) ∧
      ∀ resolve : List Char → Except Error (List Char),
        (∀ s ∈ found, ∃ url, resolve s.text = .ok url) →
          ∃ urls, List.Forall₂ (fun s url => resolve s.text = .ok url) found urls ∧
            rewrite resolve source = .ok (woven gaps urls) ∧
            ∀ p ∈ found.zip urls, ∀ q ∈ found.zip urls,
              p.2 = q.2 ↔ resolve p.1.text = resolve q.1.text) ∧
    ∀ resolve : List Char → Except Error (List Char),
      (∃ s ∈ found, ∃ e, resolve s.text = .error e) →
        ∃ s ∈ found, ∃ e, resolve s.text = .error e ∧
          (∀ t ∈ found, Text.le t.text s.text = true → t.text ≠ s.text →
            ∃ url, resolve t.text = .ok url) ∧
          rewrite resolve source = .error e := by
  obtain ⟨hreads, hstarts⟩ := reads_of_sites hsites
  refine ⟨⟨fun hparted => ?_, ?_⟩, fun gaps hgaps => ⟨hgaps.eq_woven, fun _ => hgaps.unique,
    fun resolve hresolve => ?_⟩, fun resolve h => rewrite_eq_error hsites h⟩
  · have hsource : source = [] ++ source := rfl
    exact exists_divides hsource hreads (apart_of_parted hreads hstarts hparted)
      fun s _ => Nat.zero_le _
  · rintro ⟨gaps, hgaps⟩
    exact hgaps.apart.1.imp .inl
  · obtain ⟨urls, hurls, hrewrite⟩ := rewrite_eq_woven hsites hgaps hresolve
    refine ⟨urls, hurls, hrewrite, fun p hp q hq => ?_⟩
    have hfirst := (List.forall₂_iff_zip.1 hurls).2 hp
    have hsecond := (List.forall₂_iff_zip.1 hurls).2 hq
    rw [hfirst, hsecond, Except.ok.injEq]

/-- Three sites; the text of two is a part of that of the third. -/
def nestedTexts : List Char :=
  "import a from 'fs'\nimport('fs')\nexport * from 'fs/promises'".toList

/-- The sites of the three. -/
def nestedSites : List Specifier :=
  [⟨"fs".toList, ⟨15, 17⟩⟩, ⟨"fs".toList, ⟨27, 29⟩⟩, ⟨"fs/promises".toList, ⟨47, 58⟩⟩]

/-- The resolver that knows of no builtin modules. -/
def bareResolve : List Char → Except Error (List Char) :=
  (Resolver.new { ResolverConfig.new apostropheTree.cwdPath with builtins := ⟨[]⟩ }
    .none).resolve apostropheTree .none

/-- With the builtin modules of Node the three are rewritten, without them none is. -/
theorem rewrite_divided_nestedTexts :
    sites .standard nestedTexts = .ok nestedSites ∧ Parted nestedSites ∧
      (∃ gaps urls, Divides 0 nestedSites nestedTexts gaps ∧
        List.Forall₂ (fun s url => apostropheResolve s.text = .ok url) nestedSites urls ∧
        rewrite apostropheResolve nestedTexts = .ok (woven gaps urls)) ∧
      ∃ s ∈ nestedSites, ∃ e, bareResolve s.text = .error e ∧
        rewrite bareResolve nestedTexts = .error e := by
  have hstatic : Analyzer.standard.staticImports nestedTexts =
      .ok [⟨.value, nestedTexts.take 19, ⟨0, 19⟩, "a ".toList, ⟨"fs".toList, ⟨15, 17⟩⟩⟩] := by
    unfold nestedTexts
    repeat rw [String.toList_ofList]
    decide +kernel
  have hdynamic : Analyzer.standard.dynamicImports nestedTexts =
      .ok [⟨"import('fs')".toList, ⟨19, 31⟩, "'fs'".toList, ⟨26, 30⟩⟩] := by
    unfold nestedTexts
    repeat rw [String.toList_ofList]
    decide +kernel
  have hexports : Analyzer.standard.exports nestedTexts =
      .ok [⟨.star, none, nestedTexts.drop 32, ⟨32, 59⟩, none, [],
        some ⟨"fs/promises".toList, ⟨47, 58⟩⟩, none, none, none⟩] := by
    unfold nestedTexts
    repeat rw [String.toList_ofList]
    decide +kernel
  have hsites : sites .standard nestedTexts = .ok nestedSites := by
    unfold sites
    rw [hstatic, hdynamic, hexports]
    refine congrArg (fun sorted => Except.ok (List.eraseRepsBy _ sorted))
      (List.mergeSort_of_pairwise ?_)
    decide +kernel
  have hparted : Parted nestedSites := by
    unfold Parted
    decide +kernel
  obtain ⟨hdivides, hresolved, hfailing⟩ := rewrite_divided hsites
  obtain ⟨gaps, hgaps⟩ := hdivides.1 hparted
  obtain ⟨urls, hurls, hrewrite, -⟩ := (hresolved gaps hgaps).2.2 apostropheResolve <| by
    have hfs : apostropheResolve "fs".toList = .ok "node:fs".toList := by decide +kernel
    have hpromises : apostropheResolve "fs/promises".toList = .ok "node:fs/promises".toList := by
      decide +kernel
    exact List.forall_mem_cons.2 ⟨⟨_, hfs⟩, List.forall_mem_cons.2
      ⟨⟨_, hfs⟩, List.forall_mem_singleton.2 ⟨_, hpromises⟩⟩⟩
  have hmissing : bareResolve "fs".toList = .error (.notFound "fs".toList
      (["file:///w/", "file:///w/_index.js", "file:///w/node_modules"].map String.toList)) := by
    decide +kernel
  obtain ⟨s, hs, e, he, -, herror⟩ := hfailing bareResolve
    ⟨_, List.mem_cons_self, _, hmissing⟩
  exact ⟨hsites, hparted, ⟨gaps, urls, hgaps, hurls, hrewrite⟩, s, hs, e, he, herror⟩
end EsModules.Rewriting
