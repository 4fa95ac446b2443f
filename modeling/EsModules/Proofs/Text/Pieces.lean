import EsModules.Text.Basic

/-!
# Pieces and occurrences

A list is taken apart where a test holds.  Pieces that were put together with a separator in front
of each come back as they were.

* `Text.splitWhere_append`: what stands in front of a list without a cut joins its first piece.
* `Text.splitWhere_flatMap`: pieces behind separators are taken apart again.
* `Text.splitOn_joinWith`: pieces between separators are taken apart again.
* `Text.mem_splitWhere_iff`: what a piece of a list is.
* `Text.splitWhere_written`: what is written element by element is taken apart like the elements.
* `Text.splitLast_eq_some_iff`: a text split at the last occurrence of another one.
* `Text.splitOnce_eq_some_iff`: a text cut at the first occurrence of a character.
* `Text.dropSuffix?_eq_some_iff`: what is left of a text without an ending.
* `Text.byteLength_lt_iff_of_prefix`: beginnings of a text, by bytes and by characters.
* `Text.infix_of_contains`, `Text.contains_of_infix`: what is found in a text stands there, and the
  other way round.
-/

namespace EsModules.Text

variable {α : Type} {isCut : α → Bool}

/-- What a check of all elements has found holds of every element. -/
theorem forall_mem_of_all {p : α → Prop} [DecidablePred p] {as : List α}
    (h : as.all (fun a => decide (p a)) = true) : ∀ a ∈ as, p a :=
  fun a ha => of_decide_eq_true (List.all_eq_true.1 h a ha)

theorem splitWhere_of_cut {a : α} (ha : isCut a = true) (as : List α) :
    splitWhere isCut (a :: as) = [] :: splitWhere isCut as := by
  rw [splitWhere_cons]
  obtain ⟨p, ps, h⟩ := List.exists_cons_of_ne_nil (splitWhere_ne_nil isCut as)
  rw [h]
  exact if_pos ha

/-- What stands in front of a list without a cut stands in front of its first piece. -/
theorem splitWhere_append {as bs : List α} (h : ∀ a ∈ as, isCut a = false) {p : List α}
    {ps : List (List α)} (hbs : splitWhere isCut bs = p :: ps) :
    splitWhere isCut (as ++ bs) = (as ++ p) :: ps := by
  induction as with
  | nil => exact hbs
  | cons a as ih =>
    have ha : ¬ isCut a = true := by simp [h a List.mem_cons_self]
    rw [List.cons_append, splitWhere_cons, ih fun b hb => h b (List.mem_cons_of_mem a hb)]
    exact if_neg ha

/-- A list without a cut is one piece. -/
theorem splitWhere_of_forall {as : List α} (h : ∀ a ∈ as, isCut a = false) :
    splitWhere isCut as = [as] := by
  have hnil : splitWhere isCut ([] : List α) = [[]] := rfl
  have happend := splitWhere_append h hnil
  rwa [List.append_nil] at happend

/-- Pieces without a cut, each behind a separator, with a further separator and a list behind
them. -/
theorem splitWhere_flatMap {a : α} (ha : isCut a = true) {ps : List (List α)}
    (h : ∀ p ∈ ps, ∀ b ∈ p, isCut b = false) (as : List α) :
    splitWhere isCut (ps.flatMap (a :: ·) ++ a :: as) = [] :: (ps ++ splitWhere isCut as) := by
  induction ps with
  | nil => exact splitWhere_of_cut ha as
  | cons p ps ih =>
    have hrest := ih fun q hq => h q (List.mem_cons_of_mem p hq)
    rw [List.flatMap_cons, List.cons_append, List.cons_append, splitWhere_of_cut ha,
      List.append_assoc, splitWhere_append (h p List.mem_cons_self) hrest, List.append_nil,
      List.cons_append]

theorem splitWhere_congr {isCut' : α → Bool} {as : List α} (h : ∀ a ∈ as, isCut a = isCut' a) :
    splitWhere isCut as = splitWhere isCut' as := by
  induction as with
  | nil => rfl
  | cons a as ih =>
    have hrest := ih fun b hb => h b (List.mem_cons_of_mem a hb)
    have ha := h a List.mem_cons_self
    rw [splitWhere_cons, splitWhere_cons, hrest]
    unfold pushPiece
    rw [ha]

/-- A list written element by element, so that exactly the cuts are written as cuts, has the pieces
of the list, written in the same way. -/
theorem splitWhere_written {β : Type} {isCut' : β → Bool} {f : α → List β}
    (hcut : ∀ a, isCut a = true → ∃ b, f a = [b] ∧ isCut' b = true)
    (hkeep : ∀ a, isCut a = false → ∀ b ∈ f a, isCut' b = false) (as : List α) :
    splitWhere isCut' (as.flatMap f) = (splitWhere isCut as).map (List.flatMap f) := by
  induction as with
  | nil => rfl
  | cons a as ih =>
    rw [List.flatMap_cons]
    cases ha : isCut a with
    | true =>
      obtain ⟨b, hb, hbcut⟩ := hcut a ha
      rw [hb, List.singleton_append, splitWhere_of_cut hbcut, splitWhere_of_cut ha, ih]
      rfl
    | false =>
      obtain ⟨p, ps, hps⟩ := List.exists_cons_of_ne_nil (splitWhere_ne_nil isCut as)
      have hone : ∀ d ∈ [a], isCut d = false := by simpa using ha
      have hfront : splitWhere isCut (a :: as) = (a :: p) :: ps := splitWhere_append hone hps
      rw [hps] at ih
      rw [hfront, splitWhere_append (hkeep a ha) ih]
      rfl

/-- What stands in front of a cut and what stands behind it are taken apart on their own. -/
theorem splitWhere_append_cut {a : α} (ha : isCut a = true) (as bs : List α) :
    splitWhere isCut (as ++ a :: bs) = splitWhere isCut as ++ splitWhere isCut bs := by
  induction as with
  | nil => exact splitWhere_of_cut ha bs
  | cons c as ih =>
    obtain ⟨p, ps, hps⟩ := List.exists_cons_of_ne_nil (splitWhere_ne_nil isCut as)
    rw [List.cons_append, splitWhere_cons, splitWhere_cons, ih, hps]
    cases hc : isCut c <;> simp [pushPiece, hc]

/-- A piece holds elements of the list, and none that cuts. -/
theorem of_mem_splitWhere {as p : List α} (hp : p ∈ splitWhere isCut as) {a : α} (ha : a ∈ p) :
    a ∈ as ∧ isCut a = false := by
  induction as generalizing p with
  | nil =>
    rw [List.mem_singleton.1 hp] at ha
    cases ha
  | cons c as ih =>
    obtain ⟨q, qs, hqs⟩ := List.exists_cons_of_ne_nil (splitWhere_ne_nil isCut as)
    have hlater : ∀ q' ∈ q :: qs, a ∈ q' → a ∈ c :: as ∧ isCut a = false := by
      intro q' hq' ha
      obtain ⟨hmem, hcut⟩ := ih (hqs ▸ hq') ha
      exact ⟨List.mem_cons_of_mem c hmem, hcut⟩
    rw [splitWhere_cons, hqs, pushPiece] at hp
    split at hp
    · rcases List.mem_cons.1 hp with rfl | hp
      · cases ha
      · exact hlater p hp ha
    · rename_i hc
      rcases List.mem_cons.1 hp with rfl | hp
      · rcases List.mem_cons.1 ha with rfl | ha
        · exact ⟨List.mem_cons_self, Bool.of_not_eq_true hc⟩
        · exact hlater q List.mem_cons_self ha
      · exact hlater p (List.mem_cons_of_mem q hp) ha

theorem joinWith_cons_cons (sep : α) (p q : List α) (ps : List (List α)) :
    joinWith [sep] (p :: q :: ps) = p ++ sep :: joinWith [sep] (q :: ps) :=
  List.append_assoc p [sep] _

/-- Pieces without the separator, put together with it, are taken apart again. -/
theorem splitOn_joinWith {sep : Char} {ps : List (List Char)} (hne : ps ≠ [])
    (h : ∀ p ∈ ps, sep ∉ p) : splitOn sep (joinWith [sep] ps) = ps := by
  induction ps with
  | nil => exact absurd rfl hne
  | cons p ps ih =>
    have hp : ∀ c ∈ p, (c == sep) = false := fun c hc => by
      simpa using ne_of_mem_of_not_mem hc (h p List.mem_cons_self)
    cases ps with
    | nil => exact splitWhere_of_forall hp
    | cons q ps =>
      have hfront : splitOn sep (p ++ sep :: joinWith [sep] (q :: ps)) =
          splitWhere (· == sep) p ++ splitOn sep (joinWith [sep] (q :: ps)) :=
        @splitWhere_append_cut _ (· == sep) sep (beq_self_eq_true sep) p _
      have hrest := ih (List.cons_ne_nil q ps) fun r hr => h r (List.mem_cons_of_mem p hr)
      rw [joinWith_cons_cons, hfront, splitWhere_of_forall hp, hrest]
      rfl

/-- What stands in pieces that are put together. -/
theorem eq_or_mem_of_mem_joinWith {sep : α} {ps : List (List α)} {a : α}
    (ha : a ∈ joinWith [sep] ps) : a = sep ∨ ∃ p ∈ ps, a ∈ p := by
  induction ps with
  | nil => cases ha
  | cons p ps ih =>
    cases ps with
    | nil => exact .inr ⟨p, List.mem_singleton_self p, ha⟩
    | cons q ps =>
      rw [joinWith_cons_cons, List.mem_append, List.mem_cons] at ha
      rcases ha with ha | rfl | ha
      · exact .inr ⟨p, List.mem_cons_self, ha⟩
      · exact .inl rfl
      · exact (ih ha).imp_right fun ⟨r, hr, har⟩ => ⟨r, List.mem_cons_of_mem p hr, har⟩

/-- Induction along the cuts of a list. -/
theorem cutInduction (isCut : α → Bool) {P : List α → Prop}
    (whole : ∀ as, (∀ a ∈ as, isCut a = false) → P as)
    (cut : ∀ as c bs, (∀ a ∈ as, isCut a = false) → isCut c = true → P bs → P (as ++ c :: bs))
    (as : List α) : P as := by
  have hfront : ∀ front, (∀ a ∈ front, isCut a = false) → P (front ++ as) := by
    induction as with
    | nil => exact fun front h => whole _ (by simpa using h)
    | cons a as ih =>
      intro front h
      cases ha : isCut a with
      | true => exact cut front a as h ha (ih [] fun b hb => absurd hb List.not_mem_nil)
      | false =>
        have hlonger := ih (front ++ [a]) fun b hb => by
          rcases List.mem_append.1 hb with hb | hb
          · exact h b hb
          · exact List.mem_singleton.1 hb ▸ ha
        rwa [List.append_assoc, List.singleton_append] at hlonger
  exact hfront [] fun a ha => absurd ha List.not_mem_nil

/-- The last piece of a list goes on with the first piece of what is put behind it. -/
theorem exists_splitWhere_append (as : List α) : ∃ init last, splitWhere isCut as = init ++ [last] ∧
    ∀ bs p ps, splitWhere isCut bs = p :: ps →
      splitWhere isCut (as ++ bs) = init ++ (last ++ p) :: ps := by
  induction as using cutInduction isCut with
  | whole as has =>
    refine ⟨[], as, splitWhere_of_forall has, fun bs p ps hbs => ?_⟩
    rw [splitWhere_append has hbs]
    rfl
  | cut as c cs has hc ih =>
    obtain ⟨init, last, hsplit, happend⟩ := ih
    refine ⟨as :: init, last, ?_, fun bs p ps hbs => ?_⟩
    · rw [splitWhere_append_cut hc, splitWhere_of_forall has, hsplit]
      rfl
    · rw [List.append_assoc, List.cons_append, splitWhere_append_cut hc, splitWhere_of_forall has,
        happend bs p ps hbs]
      rfl

/-- Only the empty list is a single empty piece. -/
theorem eq_nil_of_splitWhere_eq {as : List α} (h : splitWhere isCut as = [[]]) : as = [] := by
  cases as with
  | nil => rfl
  | cons a as =>
    obtain ⟨p, ps, hps⟩ := List.exists_cons_of_ne_nil (splitWhere_ne_nil isCut as)
    rw [splitWhere_cons, hps, pushPiece] at h
    split at h <;> simp at h

/-- The pieces in front of the last one are pieces of every longer list. -/
theorem dropLast_splitWhere_subset (as bs : List α) :
    (splitWhere isCut as).dropLast ⊆ splitWhere isCut (as ++ bs) := by
  obtain ⟨init, last, hsplit, happend⟩ := @exists_splitWhere_append _ isCut as
  obtain ⟨p, ps, hbs⟩ := List.exists_cons_of_ne_nil (splitWhere_ne_nil isCut bs)
  rw [hsplit, List.dropLast_concat, happend bs p ps hbs]
  exact List.subset_append_left init _

/-- **A piece** stands between cuts or ends of the list. -/
theorem mem_splitWhere_iff {p as : List α} : p ∈ splitWhere isCut as ↔
    (∀ a ∈ p, isCut a = false) ∧ ∃ front back, as = front ++ (p ++ back) ∧
      (∀ a ∈ front.getLast?, isCut a = true) ∧ (∀ a ∈ back.head?, isCut a = true) := by
  constructor
  · intro hp
    refine ⟨fun a ha => (of_mem_splitWhere hp ha).2, ?_⟩
    induction as using cutInduction isCut with
    | whole as has =>
      rw [splitWhere_of_forall has] at hp
      obtain rfl := List.mem_singleton.1 hp
      exact ⟨[], [], by simp, by simp, by simp⟩
    | cut as c bs has hc ih =>
      rw [splitWhere_append_cut hc, splitWhere_of_forall has] at hp
      rcases List.mem_append.1 hp with hp | hp
      · obtain rfl := List.mem_singleton.1 hp
        exact ⟨[], c :: bs, by simp, by simp, by simpa using hc⟩
      · obtain ⟨front, back, rfl, hfront, hback⟩ := ih hp
        refine ⟨as ++ c :: front, back, by simp, ?_, hback⟩
        intro a ha
        rw [List.getLast?_append, List.getLast?_cons] at ha
        cases hlast : front.getLast? with
        | none =>
          obtain rfl : c = a := by simpa [hlast] using ha
          exact hc
        | some d =>
          obtain rfl : d = a := by simpa [hlast] using ha
          exact hfront d hlast
  · rintro ⟨hp, front, back, rfl, hfront, hback⟩
    have hbehind : p ∈ splitWhere isCut (p ++ back) := by
      cases back with
      | nil => rw [List.append_nil, splitWhere_of_forall hp]; exact List.mem_singleton_self p
      | cons c back =>
        rw [splitWhere_append_cut (hback c rfl), splitWhere_of_forall hp]
        exact List.mem_cons_self
    rcases List.eq_nil_or_concat front with rfl | ⟨init, c, rfl⟩
    · exact hbehind
    · rw [List.concat_eq_append] at hfront ⊢
      rw [List.append_assoc, List.singleton_append, splitWhere_append_cut (hfront c (by simp))]
      exact List.mem_append_right _ hbehind

section

variable {test : α → Bool} {as bs : List α}

/-- What is taken from the front of a list ends where the test first fails. -/
theorem takeWhile_append_stop (has : ∀ a ∈ as, test a = true)
    (hbs : ∀ b ∈ bs.head?, test b = false) :
    (as ++ bs).takeWhile test = as := by
  rw [List.takeWhile_append_of_pos has]
  cases bs with
  | nil => simp
  | cons b bs => simp [hbs b rfl]

theorem dropWhile_append_stop (has : ∀ a ∈ as, test a = true)
    (hbs : ∀ b ∈ bs.head?, test b = false) :
    (as ++ bs).dropWhile test = bs := by
  rw [List.dropWhile_append_of_pos has]
  cases bs with
  | nil => rfl
  | cons b bs => simp [hbs b rfl]

end

theorem replaceChar_append (old : Char) (new as bs : List Char) :
    replaceChar old new (as ++ bs) = replaceChar old new as ++ replaceChar old new bs :=
  List.flatMap_append

/-- Nothing is replaced where the character does not stand. -/
theorem replaceChar_eq_self {old : Char} {cs : List Char} (h : old ∉ cs) (new : List Char) :
    replaceChar old new cs = cs := by
  induction cs with
  | nil => rfl
  | cons c cs ih =>
    rw [List.mem_cons, not_or] at h
    have hc : ¬ (c == old) = true := by simpa using Ne.symm h.1
    have hrest := ih h.2
    unfold replaceChar at hrest ⊢
    rw [List.flatMap_cons, if_neg hc, hrest, List.singleton_append]

/-- A character in front of which it does not stand is the first one that is replaced. -/
theorem replaceFirst_append {old : Char} {before : List Char} (h : old ∉ before)
    (new after : List Char) :
    replaceFirst old new (before ++ old :: after) = before ++ (new ++ after) := by
  induction before with
  | nil => simp [replaceFirst]
  | cons c before ih =>
    rw [List.mem_cons, not_or] at h
    have hc : ¬ (c == old) = true := by simpa using Ne.symm h.1
    rw [List.cons_append, replaceFirst, if_neg hc, ih h.2]
    rfl

section

variable {pattern cs before after rest : List Char}

/-- What is cut off starts with the pattern. -/
theorem prefix_of_cut? (h : cut? pattern cs = some (before, rest)) : pattern <+: rest := by
  induction cs generalizing before with
  | nil =>
    obtain ⟨hempty, heq⟩ := Option.ite_none_right_eq_some.1 h
    rw [List.isEmpty_iff.1 hempty]
    exact List.nil_prefix
  | cons c cs ih =>
    unfold cut? at h
    split at h
    · rename_i hstarts
      cases h
      exact List.isPrefixOf_iff_prefix.1 hstarts
    · obtain ⟨⟨front, back⟩, hcut, heq⟩ := Option.map_eq_some_iff.1 h
      cases heq
      exact ih hcut

theorem append_of_splitOnce (h : splitOnce pattern cs = some (before, after)) :
    before ++ (pattern ++ after) = cs := by
  obtain ⟨⟨front, rest⟩, hcut, heq⟩ := Option.map_eq_some_iff.1 h
  cases heq
  obtain ⟨back, rfl⟩ := prefix_of_cut? hcut
  rw [← append_of_cut?_eq_some hcut]
  simp

/-- A text is what stands in front of the last occurrence of a pattern, the pattern, and what stands
behind it. -/
theorem append_of_splitLast (h : splitLast pattern cs = some (before, after)) :
    before ++ (pattern ++ after) = cs := by
  obtain ⟨⟨back, front⟩, hsplit, heq⟩ := Option.map_eq_some_iff.1 h
  cases heq
  have hreverse := congrArg List.reverse (append_of_splitOnce hsplit)
  simpa using hreverse

end

/-! ## The last occurrence of a text -/

section

variable {pattern text before after : List Char}

/-- A pattern occurs between two texts, and nowhere further behind. -/
structure IsLast (pattern text before after : List Char) : Prop where
  eq_append : text = before ++ (pattern ++ after)
  length_le : ∀ x y, text = x ++ (pattern ++ y) → x.length ≤ before.length

/-- A text is cut at an occurrence of a pattern or in front of it. -/
theorem exists_cut? {x rest : List Char} (h : pattern <+: rest) :
    ∃ front back, cut? pattern (x ++ rest) = some (front, back) ∧ front.length ≤ x.length := by
  induction x with
  | nil =>
    cases rest with
    | nil =>
      obtain rfl := List.prefix_nil.1 h
      exact ⟨[], [], rfl, Nat.le_refl _⟩
    | cons c rest =>
      refine ⟨[], c :: rest, ?_, Nat.le_refl _⟩
      rw [List.nil_append, cut?, if_pos (List.isPrefixOf_iff_prefix.2 h)]
  | cons c x ih =>
    obtain ⟨front, back, hcut, hle⟩ := ih
    rw [List.cons_append, cut?]
    by_cases hstarts : pattern.isPrefixOf (c :: (x ++ rest)) = true
    · exact ⟨[], _, if_pos hstarts, Nat.zero_le _⟩
    · refine ⟨c :: front, back, ?_, Nat.succ_le_succ hle⟩
      rw [if_neg hstarts, hcut]
      rfl

/-- A text is split at an occurrence of a pattern or behind it. -/
theorem exists_splitLast (pattern x y : List Char) :
    ∃ before after, splitLast pattern (x ++ (pattern ++ y)) = some (before, after) ∧
      x.length ≤ before.length := by
  have hreverse : (x ++ (pattern ++ y)).reverse =
      y.reverse ++ (pattern.reverse ++ x.reverse) := by simp
  obtain ⟨front, back, hcut, hle⟩ := @exists_cut? pattern.reverse y.reverse
    (pattern.reverse ++ x.reverse) (List.prefix_append _ _)
  have hsplit : splitLast pattern (x ++ (pattern ++ y)) =
      some ((back.drop pattern.reverse.length).reverse, front.reverse) := by
    unfold splitLast splitOnce
    rw [hreverse, hcut]
    rfl
  refine ⟨_, _, hsplit, ?_⟩
  have hlength := congrArg List.length (append_of_splitLast hsplit)
  simp only [List.length_append, List.length_reverse] at hlength hle ⊢
  omega

/-- **A text is split at the last occurrence** of a pattern. -/
theorem splitLast_eq_some_iff :
    splitLast pattern text = some (before, after) ↔ IsLast pattern text before after := by
  constructor
  · intro h
    refine ⟨(append_of_splitLast h).symm, fun x y hxy => ?_⟩
    obtain ⟨before', after', hsplit, hle⟩ := exists_splitLast pattern x y
    rw [← hxy, h] at hsplit
    cases hsplit
    exact hle
  · rintro ⟨htext, hlast⟩
    obtain ⟨before', after', hsplit, hle⟩ := exists_splitLast pattern before after
    rw [← htext] at hsplit
    have hback := append_of_splitLast hsplit
    have hge := hlast before' after' hback.symm
    obtain ⟨rfl, hrest⟩ := List.append_inj (hback.trans htext) (Nat.le_antisymm hge hle)
    rw [hsplit, List.append_cancel_left hrest]

/-- The last occurrence of a character has none behind it. -/
theorem splitLast_char_eq_some_iff {c : Char} :
    splitLast [c] text = some (before, after) ↔ text = before ++ c :: after ∧ c ∉ after := by
  rw [splitLast_eq_some_iff]
  constructor
  · rintro ⟨htext, hlast⟩
    refine ⟨htext, fun hmem => ?_⟩
    obtain ⟨front, back, rfl⟩ := List.append_of_mem hmem
    have hle := hlast (before ++ c :: front) back (by rw [htext]; simp)
    rw [List.length_append, List.length_cons] at hle
    omega
  · rintro ⟨htext, hnone⟩
    refine ⟨htext, fun x y hxy => ?_⟩
    rcases List.append_eq_append_iff.1 (htext.symm.trans hxy) with ⟨z, rfl, hz⟩ | ⟨z, rfl, -⟩
    · cases z with
      | nil => simp
      | cons d z =>
        obtain ⟨-, rfl⟩ := List.cons.inj hz
        exact absurd (by simp) hnone
    · simp

/-- A pattern that occurs has a last occurrence. -/
theorem exists_isLast_iff : (∃ before after, IsLast pattern text before after) ↔
    pattern <:+: text := by
  constructor
  · rintro ⟨before, after, h, -⟩
    exact ⟨before, after, by rw [h, List.append_assoc]⟩
  · rintro ⟨x, y, rfl⟩
    obtain ⟨before, after, hsplit, -⟩ := exists_splitLast pattern x y
    rw [List.append_assoc]
    exact ⟨before, after, splitLast_eq_some_iff.1 hsplit⟩

end

/-! ## The first occurrence of a character -/

theorem splitOnce_cons (c d : Char) (cs : List Char) :
    splitOnce [c] (d :: cs) =
      if c = d then some ([], cs) else (splitOnce [c] cs).map fun p => (d :: p.1, p.2) := by
  unfold splitOnce
  by_cases hcd : c = d
  · subst hcd
    simp [cut?]
  · simp [cut?, hcd, Function.comp_def]

/-- A text is cut at the first occurrence of a character. -/
theorem splitOnce_eq_some_iff {c : Char} {cs before after : List Char} :
    splitOnce [c] cs = some (before, after) ↔ cs = before ++ c :: after ∧ c ∉ before := by
  induction cs generalizing before with
  | nil => simp [splitOnce, cut?]
  | cons d cs ih =>
    rw [splitOnce_cons]
    by_cases hcd : c = d
    · subst hcd
      rw [if_pos rfl]
      cases before with
      | nil => simp [eq_comm]
      | cons b before =>
        rw [List.cons_append, List.cons.injEq, List.mem_cons, not_or]
        exact ⟨fun h => (by cases h), fun h => absurd h.1.1 h.2.1⟩
    · rw [if_neg hcd, Option.map_eq_some_iff]
      cases before with
      | nil => simp [Ne.symm hcd]
      | cons b before =>
        rw [List.cons_append, List.cons.injEq, List.mem_cons, not_or]
        constructor
        · rintro ⟨⟨front, back⟩, hsplit, hp⟩
          cases hp
          obtain ⟨hcs, hbefore⟩ := ih.1 hsplit
          exact ⟨⟨rfl, hcs⟩, hcd, hbefore⟩
        · rintro ⟨⟨rfl, hcs⟩, -, hbefore⟩
          exact ⟨(before, after), ih.2 ⟨hcs, hbefore⟩, rfl⟩

/-- Two texts that are cut at the first occurrence of a character. -/
theorem append_cons_inj {c : Char} {x y r s : List Char} (hx : c ∉ x) (hy : c ∉ y)
    (h : x ++ c :: r = y ++ c :: s) : x = y ∧ r = s := by
  have hsplit := (splitOnce_eq_some_iff.2 ⟨rfl, hx⟩).symm.trans (splitOnce_eq_some_iff.2 ⟨h, hy⟩)
  exact Prod.mk.inj (Option.some.inj hsplit)

theorem splitOnce_eq_none_iff {c : Char} {cs : List Char} : splitOnce [c] cs = none ↔ c ∉ cs := by
  constructor
  · intro h hmem
    obtain ⟨before, after, rfl, hbefore⟩ := List.eq_append_cons_of_mem hmem
    rw [splitOnce_eq_some_iff.2 ⟨rfl, hbefore⟩] at h
    cases h
  · intro h
    cases hsplit : splitOnce [c] cs with
    | none => rfl
    | some parts =>
      obtain ⟨before, after⟩ := parts
      exact absurd (by simp [(splitOnce_eq_some_iff.1 hsplit).1]) h

/-- An ending can be dropped exactly when the text ends in it. -/
theorem dropSuffix?_eq_some_iff {ending cs front : List Char} :
    dropSuffix? ending cs = some front ↔ front ++ ending = cs := by
  unfold dropSuffix?
  rw [Option.map_eq_some_iff]
  constructor
  · rintro ⟨back, hback, rfl⟩
    rw [← List.reverse_reverse cs, ← dropPrefix?_eq_some_iff.1 hback]
    simp
  · rintro rfl
    refine ⟨front.reverse, dropPrefix?_eq_some_iff.2 ?_, List.reverse_reverse front⟩
    rw [List.reverse_append]

/-! ## Byte lengths -/

theorem byteLength_pos {cs : List Char} (h : cs ≠ []) : 0 < byteLength cs := by
  obtain ⟨c, cs, rfl⟩ := List.exists_cons_of_ne_nil h
  have hpos := c.utf8Size_pos
  rw [byteLength_cons]
  omega

theorem byteLength_reverse (cs : List Char) : byteLength cs.reverse = byteLength cs := by
  induction cs with
  | nil => rfl
  | cons c cs ih =>
    rw [List.reverse_cons, byteLength_append, ih, byteLength_cons, byteLength_cons]
    simp [Nat.add_comm]

/-- Of two beginnings of a text the one with fewer characters has fewer bytes. -/
theorem byteLength_lt_iff_of_prefix {as bs cs : List Char} (ha : as <+: cs) (hb : bs <+: cs) :
    byteLength as < byteLength bs ↔ as.length < bs.length := by
  constructor
  · intro h
    refine Nat.lt_of_not_le fun hlength => ?_
    obtain ⟨m, rfl⟩ := List.prefix_of_prefix_length_le hb ha hlength
    rw [byteLength_append] at h
    omega
  · intro h
    obtain ⟨m, rfl⟩ := List.prefix_of_prefix_length_le ha hb (Nat.le_of_lt h)
    have hne : m ≠ [] := by
      rintro rfl
      simp at h
    have hpos := byteLength_pos hne
    rw [byteLength_append]
    omega

/-- Of two endings of a text the one with fewer characters has fewer bytes. -/
theorem byteLength_lt_iff_of_suffix {as bs cs : List Char} (ha : as <:+ cs) (hb : bs <:+ cs) :
    byteLength as < byteLength bs ↔ as.length < bs.length := by
  have hreverse := byteLength_lt_iff_of_prefix (List.reverse_prefix.2 ha) (List.reverse_prefix.2 hb)
  rwa [byteLength_reverse, byteLength_reverse, List.length_reverse, List.length_reverse]
    at hreverse

/-! ## Blanks and occurrences -/

/-- Dropping the blanks behind a text leaves a beginning of it. -/
theorem trim_prefix_trimStart (cs : List Char) : trim cs <+: trimStart cs := by
  rw [← List.reverse_suffix]
  unfold trim trimEnd
  rw [List.reverse_reverse]
  exact List.dropWhile_suffix _

/-- Nothing is left of blanks. -/
theorem trim_of_blank {cs : List Char} (h : ∀ c ∈ cs, isBlank c = true) : trim cs = [] := by
  have hstart : trimStart (cs ++ []) = [] := List.dropWhile_append_of_pos h
  rw [List.append_nil] at hstart
  unfold trim
  rw [hstart]
  rfl

/-- Dropping the blanks around a text that neither starts nor ends with one leaves it. -/
theorem trim_append {lead text tail : List Char} (hlead : ∀ c ∈ lead, isBlank c = true)
    (htail : ∀ c ∈ tail, isBlank c = true) (hne : text ≠ [])
    (hhead : ∀ c ∈ text.head?, isBlank c = false) (hlast : ∀ c ∈ text.getLast?, isBlank c = false) :
    trim (lead ++ (text ++ tail)) = text := by
  have hfront : trimStart (lead ++ (text ++ tail)) = text ++ tail := by
    obtain ⟨a, rest, rfl⟩ := List.exists_cons_of_ne_nil hne
    have ha : ¬ isBlank a = true := by simp [hhead a rfl]
    unfold trimStart
    rw [List.dropWhile_append_of_pos hlead, List.cons_append, List.dropWhile_cons_of_neg ha]
  have hback : text.reverse.dropWhile isBlank = text.reverse := by
    obtain ⟨a, rest, hrest⟩ := List.exists_cons_of_ne_nil (List.reverse_ne_nil_iff.2 hne)
    have ha : ¬ isBlank a = true := by
      have hlast := hlast a (by rw [← List.head?_reverse, hrest]; rfl)
      simp [hlast]
    rw [hrest, List.dropWhile_cons_of_neg ha]
  unfold trim trimEnd
  rw [hfront, List.reverse_append,
    List.dropWhile_append_of_pos fun c hc => htail c (List.mem_reverse.1 hc), hback,
    List.reverse_reverse]

/-- A text is found only where it stands. -/
theorem infix_of_contains {pattern cs : List Char} (h : contains pattern cs = true) :
    pattern <:+: cs := by
  unfold contains at h
  induction cs with
  | nil =>
    unfold cut? at h
    split at h
    · rename_i hempty
      obtain rfl := List.isEmpty_iff.1 hempty
      exact List.infix_rfl
    · cases h
  | cons c cs ih =>
    unfold cut? at h
    split at h
    · rename_i hprefix
      exact (List.isPrefixOf_iff_prefix.1 hprefix).isInfix
    · rw [Option.isSome_map] at h
      exact (ih h).trans (List.suffix_cons c cs).isInfix

/-- A text is found where it stands. -/
theorem contains_of_infix {pattern cs : List Char} (h : pattern <:+: cs) :
    contains pattern cs = true := by
  unfold contains
  induction cs with
  | nil =>
    rw [List.infix_nil.1 h]
    rfl
  | cons c cs ih =>
    unfold cut?
    split
    · rfl
    · rename_i hprefix
      rw [Option.isSome_map]
      rcases List.infix_cons_iff.1 h with h | h
      · exact absurd (List.isPrefixOf_iff_prefix.2 h) hprefix
      · exact ih h

end EsModules.Text
