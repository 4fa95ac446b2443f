import EsModules.Text.Basic
import Mathlib.Data.List.Forall2

/-!
# The order of texts

The order of texts is linear, so sorting a list of texts and dropping repetitions gives each of
them once.

* `eraseRepsBy_spec`: what is left of a sorted list without its repetitions.
* `forall₂_mergeSort`, `forall₂_eraseRepsBy`: sorting and dropping repetitions keep lists related.
* `Text.le_trans`, `Text.le_total`, `Text.le_antisymm`: the order is linear.
* `Text.mem_sortDistinct`, `Text.pairwise_sortDistinct`: what the sorted list holds, and how.
* `Text.sortDistinct_congr`: it depends on what it holds only.
-/

namespace EsModules

/-! ## Dropping repetitions -/

section EraseReps

variable {α : Type} {le same : α → α → Bool}

/-- Dropping the repetitions of a sorted list behind an element keeps the first of those that
stand at one place of the order. -/
theorem eraseRepsBy_loop_spec (htrans : ∀ a b c, le a b = true → le b c = true → le a c = true)
    (htotal : ∀ a b, (le a b || le b a) = true)
    (hsame : ∀ a b, same a b = true ↔ le a b = true ∧ le b a = true) (a : α) (as kept : List α)
    (h : (a :: as).Pairwise fun x y => le x y = true) :
    ∃ rest, List.eraseRepsBy.loop same a as kept = kept.reverse ++ a :: rest ∧
      rest.Sublist as ∧ (∀ t ∈ a :: as, ∃ u ∈ a :: rest, same u t = true) ∧
      (a :: rest).Pairwise fun x y => le x y = true ∧ same x y = false := by
  have hself : ∀ x, same x x = true := fun x => (hsame x x).2 (by simpa using htotal x x)
  induction as generalizing a kept with
  | nil => exact ⟨[], by simp [List.eraseRepsBy.loop], .slnil, by simp [hself], by simp⟩
  | cons b as ih =>
    obtain ⟨hle, htail⟩ := List.pairwise_cons.1 h
    by_cases hab : same a b = true
    · have hskip := h.sublist ((List.sublist_cons_self b as).cons_cons a)
      obtain ⟨rest, hloop, hsublist, hkept, hpairs⟩ := ih a kept hskip
      refine ⟨rest, by simpa [List.eraseRepsBy.loop, hab] using hloop, hsublist.cons b,
        fun t ht => ?_, hpairs⟩
      rw [List.mem_cons, List.mem_cons] at ht
      rcases ht with rfl | rfl | ht
      · exact hkept t List.mem_cons_self
      · exact ⟨a, List.mem_cons_self, hab⟩
      · exact hkept t (List.mem_cons_of_mem a ht)
    · obtain ⟨rest, hloop, hsublist, hkept, hpairs⟩ := ih b (a :: kept) htail
      refine ⟨b :: rest, by simpa [List.eraseRepsBy.loop, hab] using hloop,
        hsublist.cons_cons b, fun t ht => ?_, List.pairwise_cons.2 ⟨fun u hu => ?_, hpairs⟩⟩
      · rcases List.mem_cons.1 ht with rfl | ht
        · exact ⟨t, List.mem_cons_self, hself t⟩
        · obtain ⟨u, hu, hut⟩ := hkept t ht
          exact ⟨u, List.mem_cons_of_mem a hu, hut⟩
      · have hu' := (hsublist.cons_cons b).subset hu
        refine ⟨hle u hu', Bool.eq_false_iff.2 fun hau => hab ?_⟩
        -- an element behind `b` stands at the place of `a` only if `b` does
        have hbu : le b u = true := by
          rcases List.mem_cons.1 hu' with rfl | hu'
          · exact ((hsame u u).1 (hself u)).1
          · exact (List.pairwise_cons.1 htail).1 u hu'
        exact (hsame a b).2 ⟨hle b List.mem_cons_self, htrans b u a hbu ((hsame a u).1 hau).2⟩

/-- Of a sorted list without its repetitions, the first of those that stand at one place of the
order is left. -/
theorem eraseRepsBy_spec (htrans : ∀ a b c, le a b = true → le b c = true → le a c = true)
    (htotal : ∀ a b, (le a b || le b a) = true)
    (hsame : ∀ a b, same a b = true ↔ le a b = true ∧ le b a = true) {as : List α}
    (h : as.Pairwise fun x y => le x y = true) :
    (as.eraseRepsBy same).Sublist as ∧ (∀ t ∈ as, ∃ u ∈ as.eraseRepsBy same, same u t = true) ∧
      (as.eraseRepsBy same).Pairwise fun x y => le x y = true ∧ same x y = false := by
  cases as with
  | nil => exact ⟨.slnil, fun t ht => absurd ht List.not_mem_nil, .nil⟩
  | cons a as =>
    obtain ⟨rest, hloop, hsublist, hkept, hpairs⟩ :=
      eraseRepsBy_loop_spec htrans htotal hsame a as [] h
    have heq : (a :: as).eraseRepsBy same = a :: rest := hloop
    rw [heq]
    exact ⟨hsublist.cons_cons a, hkept, hpairs⟩

end EraseReps

/-! ## Related lists -/

section Related

variable {α β : Type} {R : α → β → Prop} {le same : α → α → Bool} {le' same' : β → β → Bool}
  {as : List α} {bs : List β}

/-- Related lists are the sides of one list of related pairs. -/
theorem exists_pairs_of_forall₂ (h : List.Forall₂ R as bs) :
    ∃ ps : List (α × β), (∀ p ∈ ps, R p.1 p.2) ∧ as = ps.map Prod.fst ∧ bs = ps.map Prod.snd := by
  induction h with
  | nil => exact ⟨[], fun p hp => absurd hp List.not_mem_nil, rfl, rfl⟩
  | @cons a b as bs hab _ ih =>
    obtain ⟨ps, hps, rfl, rfl⟩ := ih
    refine ⟨(a, b) :: ps, fun p hp => ?_, rfl, rfl⟩
    rcases List.mem_cons.1 hp with rfl | hp
    · exact hab
    · exact hps p hp

/-- Sorting by orders that agree keeps lists related. -/
theorem forall₂_mergeSort (hle : ∀ {a a' b b'}, R a b → R a' b' → le a a' = le' b b')
    (h : List.Forall₂ R as bs) : List.Forall₂ R (as.mergeSort le) (bs.mergeSort le') := by
  obtain ⟨ps, hps, rfl, rfl⟩ := exists_pairs_of_forall₂ h
  have hfst : (ps.mergeSort fun p q => le p.1 q.1).map Prod.fst = (ps.map Prod.fst).mergeSort le :=
    List.map_mergeSort fun _ _ _ _ => rfl
  have hsnd : (ps.mergeSort fun p q => le p.1 q.1).map Prod.snd = (ps.map Prod.snd).mergeSort le' :=
    List.map_mergeSort fun p hp q hq => hle (hps p hp) (hps q hq)
  rw [← hfst, ← hsnd, List.forall₂_map_left_iff, List.forall₂_map_right_iff, List.forall₂_same]
  exact fun p hp => hps p (List.mem_mergeSort.1 hp)

theorem forall₂_eraseRepsBy_loop
    (hsame : ∀ {a a' b b'}, R a b → R a' b' → same a a' = same' b b') {a : α} {b : β}
    {kept : List α} {kept' : List β} (hab : R a b) (h : List.Forall₂ R as bs)
    (hkept : List.Forall₂ R kept kept') :
    List.Forall₂ R (List.eraseRepsBy.loop same a as kept)
      (List.eraseRepsBy.loop same' b bs kept') := by
  induction h generalizing a b kept kept' with
  | nil => exact List.rel_reverse (.cons hab hkept)
  | @cons a' b' as bs hab' _ ih =>
    rw [List.eraseRepsBy.loop, List.eraseRepsBy.loop, hsame hab hab']
    cases same' b b' with
    | true => exact ih hab hkept
    | false => exact ih hab' (.cons hab hkept)

/-- Dropping repetitions that agree keeps lists related. -/
theorem forall₂_eraseRepsBy (hsame : ∀ {a a' b b'}, R a b → R a' b' → same a a' = same' b b')
    (h : List.Forall₂ R as bs) : List.Forall₂ R (as.eraseRepsBy same) (bs.eraseRepsBy same') := by
  cases h with
  | nil => exact .nil
  | cons hab h => exact forall₂_eraseRepsBy_loop (R := R) hsame hab h .nil

end Related

namespace Text

/-! ## A linear order -/

theorem le_cons_iff {a b : Char} {as bs : List Char} :
    le (a :: as) (b :: bs) = true ↔ a.toNat < b.toNat ∨ a = b ∧ le as bs = true := by
  rw [le]
  by_cases hab : a = b <;> simp [hab]

theorem le_refl (as : List Char) : le as as = true := by
  induction as with
  | nil => rfl
  | cons a as ih => exact le_cons_iff.2 (.inr ⟨rfl, ih⟩)

theorem le_trans (as bs cs : List Char) (hab : le as bs = true) (hbc : le bs cs = true) :
    le as cs = true := by
  induction as generalizing bs cs with
  | nil => cases cs <;> rfl
  | cons a as ih =>
    cases bs with
    | nil => cases hab
    | cons b bs =>
      cases cs with
      | nil => cases hbc
      | cons c cs =>
        rw [le_cons_iff] at hab hbc ⊢
        rcases hab with hab | ⟨rfl, hab⟩
        · rcases hbc with hbc | ⟨rfl, -⟩
          · exact .inl (Nat.lt_trans hab hbc)
          · exact .inl hab
        · exact hbc.imp_right fun ⟨hac, hbc⟩ => ⟨hac, ih bs cs hab hbc⟩

theorem le_total (as bs : List Char) : (le as bs || le bs as) = true := by
  rw [Bool.or_eq_true]
  induction as generalizing bs with
  | nil => cases bs <;> exact .inl rfl
  | cons a as ih =>
    cases bs with
    | nil => exact .inr rfl
    | cons b bs =>
      simp only [le_cons_iff]
      rcases Nat.lt_trichotomy a.toNat b.toNat with hlt | heq | hgt
      · exact .inl (.inl hlt)
      · have hab : a = b := Char.toNat_inj.1 heq
        exact (ih bs).imp (fun h => .inr ⟨hab, h⟩) fun h => .inr ⟨hab.symm, h⟩
      · exact .inr (.inl hgt)

theorem le_antisymm {as bs : List Char} (hab : le as bs = true) (hba : le bs as = true) :
    as = bs := by
  induction as generalizing bs with
  | nil =>
    cases bs with
    | nil => rfl
    | cons b bs => cases hba
  | cons a as ih =>
    cases bs with
    | nil => cases hab
    | cons b bs =>
      rw [le_cons_iff] at hab hba
      rcases hab with hlt | ⟨rfl, hab⟩
      · rcases hba with hgt | ⟨rfl, -⟩ <;> omega
      · rcases hba with hgt | ⟨-, hba⟩
        · omega
        · rw [ih hab hba]

/-! ## Sorted lists without repetitions -/

theorem sortDistinct_spec (texts : List (List Char)) :
    (∀ t, t ∈ sortDistinct texts ↔ t ∈ texts) ∧
      (sortDistinct texts).Pairwise fun x y => le x y = true ∧ x ≠ y := by
  have hsame : ∀ x y : List Char, (x == y) = true ↔ le x y = true ∧ le y x = true := by
    intro x y
    rw [beq_iff_eq]
    exact ⟨fun h => h ▸ ⟨le_refl x, le_refl x⟩, fun h => le_antisymm h.1 h.2⟩
  have hsorted := List.pairwise_mergeSort le_trans le_total texts
  obtain ⟨hsublist, hkept, hpairs⟩ := eraseRepsBy_spec le_trans le_total hsame hsorted
  refine ⟨fun t => ⟨fun ht => List.mem_mergeSort.1 (hsublist.subset ht), fun ht => ?_⟩, ?_⟩
  · obtain ⟨u, hu, hut⟩ := hkept t (List.mem_mergeSort.2 ht)
    exact beq_iff_eq.1 hut ▸ hu
  · exact hpairs.imp fun ⟨hle, hne⟩ => ⟨hle, beq_eq_false_iff_ne.1 hne⟩

/-- The sorted list holds the same texts. -/
theorem mem_sortDistinct {texts : List (List Char)} {t : List Char} :
    t ∈ sortDistinct texts ↔ t ∈ texts :=
  (sortDistinct_spec texts).1 t

/-- The sorted list is strictly increasing. -/
theorem pairwise_sortDistinct (texts : List (List Char)) :
    (sortDistinct texts).Pairwise fun x y => le x y = true ∧ x ≠ y :=
  (sortDistinct_spec texts).2

/-- Lists with the same texts are sorted into the same list. -/
theorem sortDistinct_congr {texts texts' : List (List Char)} (h : ∀ t, t ∈ texts ↔ t ∈ texts') :
    sortDistinct texts = sortDistinct texts' := by
  have hnodup (ts : List (List Char)) : (sortDistinct ts).Nodup :=
    (pairwise_sortDistinct ts).imp And.right
  have hsorted (ts : List (List Char)) : (sortDistinct ts).Pairwise fun x y => le x y = true :=
    (pairwise_sortDistinct ts).imp And.left
  refine List.Perm.eq_of_pairwise (fun x y _ _ hxy hyx => le_antisymm hxy hyx)
    (hsorted texts) (hsorted texts') ?_
  refine (List.perm_ext_iff_of_nodup (hnodup texts) (hnodup texts')).2 fun t => ?_
  rw [mem_sortDistinct, mem_sortDistinct, h t]

end Text

end EsModules
