import EsModules.Proofs.Declaration.Openings

/-!
# Values and types

No export is taken both for one of values and for one of types.  Behind its word each of them goes
on with one of a few words, and no word of the one kind begins a word of the other, so that the text
behind an `export` tells which of the two it can be.

* `Shape.typeOpenings`: what an export of types goes on with.
* `OpensAt.start_ne`: ranges that go on differently start in different places.
* `exports_apart`: exports of values and exports of types start in different places.
-/

namespace EsModules

open Pattern

namespace Shape

/-! ## The shapes of types -/

/-- What an export of types goes on with. -/
def typeOpenings : List String := ["interface", "type", "declare "]

theorem goesOnWith_exportTypeDeclaration : GoesOnWith typeOpenings exportTypeDeclaration := by
  have hword : ∀ w ∈ typeOpenings, BeginsWithOne typeOpenings (word w : Pattern Part) :=
    fun w hw => beginsWithOne_of_begins hw (begins_literal _)
  have hwords : BeginsWithOne typeOpenings typeWords := by
    refine (hword "interface" (by decide)).alt ((hword "type" (by decide)).alt ?_)
    exact (hword "declare " (by decide)).append _
  exact ((goesOnWith_spaces1 (by decide) (hwords.capture _)).append _).append _

theorem goesOnWith_exportNamedTypes : GoesOnWith ["type"] exportNamedTypes :=
  ((goesOnWith_spaces1 (by decide) (beginsWithOne_of_begins (List.mem_singleton_self _)
    (begins_literal _))).append _).append _

/-- No text starts both as the exports of values go on and as those of types do. -/
theorem not_startsWithOne_openings {cs : List Char} (h : StartsWithOne openings cs) :
    ¬ StartsWithOne typeOpenings cs := by
  have hall : ∀ w ∈ openings, ∀ w' ∈ typeOpenings,
      ¬ w.toList <+: w'.toList ∧ ¬ w'.toList <+: w.toList := by
    decide
  rintro ⟨w', hw', hprefix'⟩
  obtain ⟨w, hw, hprefix⟩ := h
  obtain ⟨hnot, hnot'⟩ := hall w hw w' hw'
  rcases List.prefix_or_prefix_of_prefix hprefix hprefix' with hle | hle
  · exact hnot hle
  · exact hnot' hle

end Shape

/-! ## Records -/

variable {source : List Char}

/-- Ranges behind whose words the text starts differently start in different places. -/
theorem OpensAt.start_ne {words words' : List String} {range range' : Span}
    (h : OpensAt source words range) (h' : OpensAt source words' range')
    (hwords : ∀ cs, StartsWithOne words cs → ¬ StartsWithOne words' cs) :
    range.start ≠ range'.start := by
  obtain ⟨a, b, hs, hstart, hopens⟩ := h
  obtain ⟨a', b', hs', hstart', hopens'⟩ := h'
  intro hsame
  obtain ⟨-, hb⟩ := Patch.append_inj_of_byteLength (hs.symm.trans hs')
    (hstart.symm.trans (hsame.trans hstart'))
  obtain rfl := List.append_cancel_left hb
  exact hwords _ hopens.starts hopens'.starts

/-- Every candidate for an export of types goes on as they do. -/
theorem ExportRecord.opensAt_typeCandidates :
    ∀ r ∈ typeCandidates source, OpensAt source Shape.typeOpenings r.span := by
  intro r hmem
  obtain ⟨r, hr, rfl⟩ := List.mem_map.1 hmem
  rcases List.mem_append.1 hr with hr | hr
  · exact opensAt_of_shape Shape.goesOnWith_exportTypeDeclaration (fun _ => rfl) r hr
  · exact (opensAt_of_shape Shape.goesOnWith_exportNamedTypes (fun _ => rfl) r hr).mono (by decide)

variable {a b : Analyzer} {values types : List ExportRecord}

theorem opensAt_of_exports (h : a.exports source = .ok values) :
    ∀ r ∈ values, OpensAt source Shape.openings r.span := by
  obtain ⟨kept, hkept, rfl⟩ := map_eq_ok.1 h
  intro r hr
  have hmem := List.mem_mergeSort.1 ((ExportRecord.collapse_sublist _).subset hr)
  exact ExportRecord.opensAt_candidates r (Analyzer.mem_of_confirmed hkept r hmem)

theorem opensAt_of_typeExports (h : a.typeExports source = .ok types) :
    ∀ r ∈ types, OpensAt source Shape.typeOpenings r.span := by
  obtain ⟨kept, hkept, rfl⟩ := map_eq_ok.1 h
  intro r hr
  have hmem := (ExportRecord.collapse_sublist _).subset hr
  exact ExportRecord.opensAt_typeCandidates r (Analyzer.mem_of_confirmed hkept r hmem)

/-- **Exports of values and exports of types** start in different places of a source, whatever the
validators of the two finders keep, so that no export is both. -/
theorem exports_apart (hvalues : a.exports source = .ok values)
    (htypes : b.typeExports source = .ok types) :
    ∀ r ∈ values, ∀ t ∈ types, r.span.start ≠ t.span.start := by
  intro r hr t ht
  exact (opensAt_of_exports hvalues r hr).start_ne (opensAt_of_typeExports htypes t ht)
    fun cs => Shape.not_startsWithOne_openings

/-- A type and a value of the same name. -/
def typeAndValue : List Char := "export type A = 1; export const A = 1".toList

/-- The record of the value. -/
def valueRecord : ExportRecord :=
  ⟨.declaration, none, (typeAndValue.drop 19).take 14, ⟨19, 33⟩, some ['A'], [['A']], none,
    some "const".toList, some "const".toList, none⟩

/-- The type is found where it stands, and so is the value. -/
theorem exports_apart_named :
    ∃ t, Analyzer.standard.exports typeAndValue = .ok [valueRecord] ∧
      Analyzer.unvalidated.typeExports typeAndValue = .ok [t] ∧
      t.name = valueRecord.name ∧ valueRecord.span.start ≠ t.span.start := by
  have hconfirmed : Analyzer.standard.confirmed typeAndValue .exportKw ExportRecord.span
      (ExportRecord.candidates typeAndValue) = .ok [valueRecord] := by
    unfold valueRecord typeAndValue
    repeat rw [String.toList_ofList]
    decide +kernel
  have hvalues : Analyzer.standard.exports typeAndValue = .ok [valueRecord] := by
    refine map_eq_ok.2 ⟨_, hconfirmed, ?_⟩
    rw [List.mergeSort_singleton]
    decide +kernel
  have htypes : Analyzer.unvalidated.typeExports typeAndValue = .ok
      [⟨.declaration, none, "export type A".toList, ⟨0, 13⟩, some ['A'], [['A']], none,
        some "type".toList, some "type".toList, none⟩] := by
    unfold typeAndValue
    repeat rw [String.toList_ofList]
    decide +kernel
  exact ⟨_, hvalues, htypes, rfl,
    exports_apart hvalues htypes _ List.mem_cons_self _ List.mem_cons_self⟩

end EsModules
