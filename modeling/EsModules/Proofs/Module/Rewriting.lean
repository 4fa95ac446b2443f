import EsModules.Proofs.Declaration.Sites
import EsModules.Proofs.Token.Moved
import Mathlib.Data.List.Basic

/-!
# Rewriting as a list of edits

If all specifiers of a source are resolved, rewriting puts each location in the place of its
specifier and leaves everything else as it is, unless two specifiers overlap.

* `Rewriting.areOrdered_replacements`: the edits stand in order exactly if the sites do not overlap.
* `Rewriting.rewrite_eq`: rewriting with all specifiers resolved applies the replacements.
-/

namespace EsModules.Rewriting

variable {source : List Char} {resolve : List Char → Except Error (List Char)}
  {location : List Char → List Char} {found : List Specifier}

/-! ## Locations -/

/-- If each of some texts is resolved, all are. -/
theorem resolveAll_eq_ok {texts : List (List Char)}
    (h : ∀ t ∈ texts, resolve t = .ok (location t)) :
    resolveAll resolve texts = .ok (texts.map fun t => (t, location t)) := by
  induction texts with
  | nil => rfl
  | cons t ts ih =>
    rw [resolveAll, h t List.mem_cons_self, ih fun u hu => h u (List.mem_cons_of_mem t hu)]
    rfl

/-- The location of a text is found among those of texts that it is one of. -/
theorem edit?_of_mem {texts : List (List Char)} {s : Specifier} (h : s.text ∈ texts) :
    edit? (texts.map fun t => (t, location t)) s = some ⟨s.span, location s.text⟩ := by
  have hfind : (texts.map fun t => (t, location t)).find? (fun entry => entry.1 == s.text) =
      some (s.text, location s.text) := by
    rw [List.find?_map]
    have hself : texts.find? ((fun entry => entry.1 == s.text) ∘ fun t => (t, location t)) =
        some s.text := by
      cases hfind : texts.find? ((fun entry => entry.1 == s.text) ∘ fun t => (t, location t)) with
      | none =>
        have hne := List.find?_eq_none.1 hfind s.text h
        simp at hne
      | some t =>
        have heq := List.find?_some hfind
        rw [Function.comp_apply, beq_iff_eq] at heq
        rw [← heq]
    rw [hself]
    rfl
  unfold edit?
  rw [hfind]
  rfl

/-- The edits that put locations in the places of specifiers. -/
def replacements (location : List Char → List Char) (found : List Specifier) : List Edit :=
  found.map fun s => ⟨s.span, location s.text⟩

/-- Specifiers that stand one behind the other. -/
def Apart (found : List Specifier) : Prop := found.Pairwise fun s t => s.span.stop ≤ t.span.start

theorem covers_replacements (hreads : ∀ s ∈ found, s.Reads source) :
    ∀ e ∈ replacements location found, ∃ text, e.span.Covers source text := by
  intro e he
  obtain ⟨s, hs, rfl⟩ := List.mem_map.1 he
  exact ⟨s.text, hreads s hs⟩

theorem areOrdered_replacements (hreads : ∀ s ∈ found, s.Reads source) :
    Edit.areOrdered 0 (replacements location found) = true ↔ Apart found := by
  rw [Edit.areOrdered_iff fun e he => (covers_replacements hreads e he).elim fun _ h => h.start_le]
  unfold replacements Apart
  rw [List.pairwise_map]
  exact and_iff_right fun e _ => Nat.zero_le _

/-- Rewriting with all specifiers resolved applies the edits, if they stand one behind the
other. -/
theorem rewrite_eq (hsites : sites .standard source = .ok found)
    (hresolve : ∀ s ∈ found, resolve s.text = .ok (location s.text)) :
    rewrite resolve source =
      if Edit.areOrdered 0 (replacements location found) then
        .ok (Edit.applyAll (replacements location found) source)
      else .error (.fault .overlap) := by
  have hmem : ∀ s ∈ found, s.text ∈ Text.sortDistinct (found.map Specifier.text) := fun s hs =>
    Text.mem_sortDistinct.2 (List.mem_map_of_mem hs)
  have hall : ∀ t ∈ Text.sortDistinct (found.map Specifier.text),
      resolve t = .ok (location t) := by
    intro t ht
    obtain ⟨s, hs, rfl⟩ := List.mem_map.1 (Text.mem_sortDistinct.1 ht)
    exact hresolve s hs
  have hedits : found.filterMap (edit? ((Text.sortDistinct (found.map Specifier.text)).map
      fun t => (t, location t))) = replacements location found := by
    rw [List.filterMap_congr fun s hs => edit?_of_mem (hmem s hs)]
    exact congrFun List.filterMap_eq_map found
  unfold rewrite
  rw [hsites]
  show (resolveAll resolve (Text.sortDistinct (found.map Specifier.text)) >>= _) = _
  rw [resolveAll_eq_ok hall]
  show (if Edit.areOrdered 0 (found.filterMap (edit? _)) then _ else _) = _
  rw [hedits]
  rfl

/-! ## A directory to resolve in -/

/-- A directory with a module whose name has an apostrophe. -/
def apostropheTree : FileTree :=
  let dir := FilePath.ofText "w".toList
  ⟨[([dir], .directory), ([dir, .ofText "a'b.mjs".toList], .file [])], [dir]⟩

/-- The resolver that looks around from the directory. -/
def apostropheResolve : List Char → Except Error (List Char) :=
  (Resolver.new (.new apostropheTree.cwdPath) .none).resolve apostropheTree .none

end EsModules.Rewriting
