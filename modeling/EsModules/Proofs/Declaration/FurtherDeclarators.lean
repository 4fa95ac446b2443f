import EsModules.Proofs.Declaration.Declarators
import EsModules.Proofs.Declaration.Written
import Mathlib.Data.List.DropRight
import Mathlib.Data.List.TakeWhile

/-!
# How far declarations are read

The shape of declarations goes up to the last comma behind which it finds a further declarator, and
takes that declarator with it.  It finds one behind every comma that a name follows, also between
brackets.

* `taken`: what is taken for a declarator behind a comma; `Shape.attempt_taken`.
* `reach`: what is taken of a text; `reach_append`, `Shape.attempt_further`.
* `taken_name`: a name in front of its value is taken up to its end.
* `Shape.attempt_extra`: what is remembered of a text.
-/

namespace EsModules

open Pattern Shape

/-! ## Behind a comma -/

/-- The longest text in front of which only characters of declarators stand, with one at its end
that a declarator can end in. -/
def declaratorBody (y : List Char) : List Char :=
  let dollars := (y.dropWhile isDeclaratorChar).takeWhile isDeclaratorEnd
  if dollars = [] then (y.takeWhile isDeclaratorChar).rdropWhile fun c => !isDeclaratorEnd c
  else y.takeWhile isDeclaratorChar ++ dollars

/-- What is taken for a declarator behind a comma, nothing if there is none. -/
def taken (x : List Char) : List Char :=
  let body := declaratorBody (x.dropWhile Ascii.isSpace)
  if body = [] then [] else x.takeWhile Ascii.isSpace ++ body

/-- No character that a declarator can end in follows one or more of the characters of
declarators. -/
def NoEnd (y : List Char) : Prop :=
  ∀ w w', y = w ++ w' → (∀ a ∈ w, isDeclaratorChar a = true) →
    ∀ a ∈ w'.head?, isDeclaratorEnd a = false

variable {x y : List Char}

/-- A text of the characters of declarators lies in the longest one. -/
theorem prefix_takeWhile {w w' : List Char} {test : Char → Bool} (h : y = w ++ w')
    (hw : ∀ a ∈ w, test a = true) : ∃ m, y.takeWhile test = w ++ m ∧ w' = m ++ y.dropWhile test := by
  subst h
  refine ⟨w'.takeWhile test, List.takeWhile_append_of_pos hw, ?_⟩
  rw [List.dropWhile_append_of_pos hw, List.takeWhile_append_dropWhile]

theorem head?_dropWhile {test : Char → Bool} : ∀ a ∈ (y.dropWhile test).head?, test a = false := by
  intro a ha
  have h := List.head?_dropWhile_not test y
  rw [Option.mem_def.1 ha] at h
  simpa using h

/-- Where nothing can be taken no declarator can end. -/
theorem noEnd_of_body (h : declaratorBody y = []) : NoEnd y := by
  unfold declaratorBody at h
  dsimp only at h
  split at h
  · rename_i hdollars
    intro w w' hsplit hw a ha
    obtain ⟨m, htake, rfl⟩ := prefix_takeWhile hsplit hw
    rw [List.head?_append] at ha
    rcases Option.or_eq_some_iff.1 ha with ha | ⟨-, ha⟩
    · have hall := List.rdropWhile_eq_nil_iff.1 h a (by
        rw [htake]
        exact List.mem_append_right _ (List.mem_of_mem_head? ha))
      simpa using hall
    · obtain ⟨r, hr⟩ := List.head?_eq_some_iff.1 ha
      rw [hr, List.takeWhile_cons] at hdollars
      split at hdollars
      · cases hdollars
      · rename_i hnot
        simpa using hnot
  · rename_i hdollars
    exact absurd (List.append_eq_nil_iff.1 h).2 hdollars

/-- What is taken goes up to the last place at which a declarator can end, and from there on over
the characters that it can end in. -/
theorem exists_of_body (h : declaratorBody y ≠ []) : ∃ q m r, declaratorBody y = q ++ m ∧
    y = q ++ (m ++ r) ∧ (∀ a ∈ q, isDeclaratorChar a = true) ∧ m ≠ [] ∧
    (∀ a ∈ m, isDeclaratorEnd a = true) ∧ (∀ a ∈ r.head?, isDeclaratorEnd a = false) ∧
    ∀ w w', m ++ r = w ++ w' → w ≠ [] → (∀ a ∈ w, isDeclaratorChar a = true) →
      ∀ a ∈ w'.head?, isDeclaratorEnd a = false := by
  let front := y.takeWhile isDeclaratorChar
  let back := y.dropWhile isDeclaratorChar
  have hy : y = front ++ back := List.takeWhile_append_dropWhile.symm
  have hfront : ∀ a ∈ front, isDeclaratorChar a = true := fun a ha => List.mem_takeWhile_imp ha
  have hback : ∀ a ∈ back.head?, isDeclaratorChar a = false := head?_dropWhile
  unfold declaratorBody at h ⊢
  dsimp only at h ⊢
  split at h
  · rename_i hdollars
    rw [if_pos hdollars]
    -- the last character at which a declarator can end
    have hlast := List.rdropWhile_last_not (fun c => !isDeclaratorEnd c) front h
    let body := front.rdropWhile fun c => !isDeclaratorEnd c
    let rest := front.rtakeWhile fun c => !isDeclaratorEnd c
    have htake : body ++ rest = front := List.rdropWhile_append_rtakeWhile
    have hrest : ∀ a ∈ rest, isDeclaratorEnd a = false := by
      intro a ha
      simpa using List.mem_rtakeWhile_imp ha
    have hend : ∀ a ∈ back.head?, isDeclaratorEnd a = false := by
      intro a ha
      obtain ⟨r, hr⟩ := List.head?_eq_some_iff.1 ha
      have hdollars : back.takeWhile isDeclaratorEnd = [] := hdollars
      rw [hr, List.takeWhile_cons] at hdollars
      split at hdollars
      · cases hdollars
      · rename_i hnot
        simpa using hnot
    have hbehind : ∀ r r', rest = r ++ r' → ∀ a ∈ (r' ++ back).head?, isDeclaratorEnd a = false := by
      intro r r' hr a ha
      rw [List.head?_append] at ha
      rcases Option.or_eq_some_iff.1 ha with ha | ⟨-, ha⟩
      · exact hrest a (hr ▸ List.mem_append_right r (List.mem_of_mem_head? ha))
      · exact hend a ha
    refine ⟨body.dropLast, [body.getLast h], rest ++ back, (List.dropLast_append_getLast h).symm,
      ?_, ?_, List.cons_ne_nil _ _, ?_, hbehind [] rest rfl, ?_⟩
    · calc y = (body ++ rest) ++ back := by rw [hy]; exact congrArg (· ++ back) htake.symm
        _ = (body.dropLast ++ [body.getLast h]) ++ rest ++ back := by
          rw [List.dropLast_append_getLast h]
        _ = _ := by simp
    · intro a ha
      exact hfront a (htake ▸ List.mem_append_left rest (List.dropLast_subset _ ha))
    · rintro a ha
      obtain rfl := List.mem_singleton.1 ha
      simpa using hlast
    · intro w w' hw hne hall
      obtain ⟨c, w, rfl⟩ := List.exists_cons_of_ne_nil hne
      have hw : rest ++ back = w ++ w' := (List.cons.inj hw).2
      rcases List.append_eq_append_iff.1 hw with ⟨m, rfl, hm⟩ | ⟨m, hm, rfl⟩
      · cases m with
        | nil => exact List.nil_append w' ▸ hm ▸ hend
        | cons d m =>
          have hd := hback d (by rw [hm]; rfl)
          rw [hall d (by simp)] at hd
          cases hd
      · exact hbehind w m hm
  · rename_i hdollars
    rw [if_neg hdollars]
    refine ⟨front, back.takeWhile isDeclaratorEnd, back.dropWhile isDeclaratorEnd, rfl, ?_, hfront,
      hdollars, fun a ha => List.mem_takeWhile_imp ha, head?_dropWhile, ?_⟩
    · rw [List.takeWhile_append_dropWhile]
      exact hy
    · intro w w' hw hne hall
      obtain ⟨c, w, rfl⟩ := List.exists_cons_of_ne_nil hne
      rw [List.takeWhile_append_dropWhile] at hw
      have hc := hback c (by rw [hw]; rfl)
      rw [hall c List.mem_cons_self] at hc
      cases hc

theorem noEnd_append {sp : List Char} (hsp : ∀ a ∈ sp, Ascii.isSpace a = true) (hy : NoEnd y) :
    NoEnd (sp ++ y) := by
  have hspace : ∀ a, Ascii.isSpace a = true → isDeclaratorEnd a = false := by
    intro a ha
    simp only [Ascii.isSpace, Ascii.isLineEnd, Bool.or_eq_true, beq_iff_eq] at ha
    rcases ha with (((rfl | rfl) | rfl) | rfl) | rfl | rfl <;> rfl
  intro w w' h hw a ha
  rcases List.append_eq_append_iff.1 h with ⟨m, rfl, rfl⟩ | ⟨m, rfl, rfl⟩
  · exact hy m w' rfl (fun b hb => hw b (List.mem_append_right sp hb)) a ha
  · cases m with
    | nil => exact hy [] y rfl (fun b hb => absurd hb List.not_mem_nil) a ha
    | cons d m =>
      obtain rfl := Option.some.inj ha
      exact hspace d (hsp d (by simp))

theorem taken_append (x : List Char) : taken x <+: x := by
  unfold taken
  dsimp only
  split
  · exact List.nil_prefix
  · rename_i hbody
    obtain ⟨q, m, r, hqm, hy, -⟩ := exists_of_body hbody
    refine ⟨r, ?_⟩
    rw [hqm, List.append_assoc, List.append_assoc, ← hy, List.takeWhile_append_dropWhile]

namespace Shape

variable {β : Type} {before : Option Char} {pos : Nat} {caps : Captures Part} {k : Follow Part β}

/-- Where no declarator can end none is taken. -/
theorem attempt_noEnd (hy : NoEnd y) :
    (run isDeclaratorChar ++ run1 isDeclaratorEnd : Pattern Part).attempt ⟨before, pos, y⟩ caps k =
      none := by
  refine attempt_run_none fun w w' hw hall => ?_
  cases w' with
  | nil => rfl
  | cons a w' => exact if_neg (by simp [hy w (a :: w') hw hall a rfl])

/-- The characters of a declarator and those that it ends in. -/
theorem attempt_body {q m r : List Char} (hq : ∀ a ∈ q, isDeclaratorChar a = true) (hne : m ≠ [])
    (hm : ∀ a ∈ m, isDeclaratorEnd a = true) (hr : ∀ a ∈ r.head?, isDeclaratorEnd a = false)
    (hlast : ∀ w w', m ++ r = w ++ w' → w ≠ [] → (∀ a ∈ w, isDeclaratorChar a = true) →
      ∀ a ∈ w'.head?, isDeclaratorEnd a = false)
    (hk : (k (.past before pos (q ++ m) r) caps).isSome = true) :
    (run isDeclaratorChar ++ run1 isDeclaratorEnd : Pattern Part).attempt
      ⟨before, pos, q ++ (m ++ r)⟩ caps k = k (.past before pos (q ++ m) r) caps := by
  obtain ⟨a, t, rfl⟩ := List.exists_cons_of_ne_nil hne
  obtain ⟨ha, ht⟩ := List.forall_mem_cons.1 hm
  let ending : Follow Part β := fun c caps => (run1 isDeclaratorEnd).attempt c caps k
  have hending : ending (.past before pos q (a :: t ++ r)) caps =
      k (.past before pos (q ++ a :: t) r) caps := by
    rw [Cursor.past_append, Cursor.past_cons] at hk ⊢
    exact (if_pos ha).trans (attempt_run ht hr hk)
  refine (attempt_run_back hq (fun w w' hw hne hall => ?_) ?_).trans hending
  · have hstop := hlast w w' hw hne hall
    cases w' with
    | nil => rfl
    | cons b w' => exact if_neg (by simp [hstop b rfl])
  · exact (congrArg Option.isSome hending).trans hk

/-- What is taken behind a comma. -/
theorem attempt_taken {r : List Char} (hx : x = taken x ++ r)
    (hk : taken x ≠ [] → (k (.past before pos (taken x) r) caps).isSome = true) :
    (spaces ++ (run isDeclaratorChar ++ run1 isDeclaratorEnd) : Pattern Part).attempt
      ⟨before, pos, x⟩ caps k =
        if taken x = [] then none else k (.past before pos (taken x) r) caps := by
  let sp := x.takeWhile Ascii.isSpace
  let y := x.dropWhile Ascii.isSpace
  have hsp : ∀ a ∈ sp, Ascii.isSpace a = true := fun a ha => List.mem_takeWhile_imp ha
  have hsplit : x = sp ++ y := List.takeWhile_append_dropWhile.symm
  by_cases hbody : declaratorBody y = []
  · have htaken : taken x = [] := if_pos hbody
    rw [if_pos htaken]
    refine attempt_run_none fun w w' hw hall => ?_
    refine attempt_noEnd ?_
    rcases List.append_eq_append_iff.1 (hsplit.symm.trans hw) with ⟨m, hm, hm'⟩ | ⟨m, hm, rfl⟩
    · cases m with
      | nil => exact List.nil_append w' ▸ hm' ▸ noEnd_of_body hbody
      | cons d m =>
        have hd := head?_dropWhile (y := x) d (show d ∈ y.head? by rw [hm']; rfl)
        rw [hall d (by simp [hm])] at hd
        cases hd
    · exact noEnd_append (fun a ha => hsp a (hm ▸ List.mem_append_right w ha)) (noEnd_of_body hbody)
  · have htaken : taken x = sp ++ declaratorBody y := if_neg hbody
    obtain ⟨q, m, r', hqm, hy, hq, hne, hm, hr, hlast⟩ := exists_of_body hbody
    have htaken' : taken x ≠ [] := by
      rw [htaken]
      exact List.append_ne_nil_of_right_ne_nil _ hbody
    obtain rfl : r = r' := by
      refine List.append_cancel_left (hx.symm.trans ?_)
      rw [htaken, hqm, List.append_assoc, List.append_assoc, ← hy]
      exact hsplit
    have hsome := hk htaken'
    rw [if_neg htaken', htaken, hqm]
    rw [htaken, hqm] at hsome
    let ending : Follow Part β := fun c caps =>
      (run isDeclaratorChar ++ run1 isDeclaratorEnd : Pattern Part).attempt c caps k
    have hending : ending (.past before pos sp (q ++ (m ++ r))) caps =
        k (.past before pos (sp ++ (q ++ m)) r) caps := by
      rw [Cursor.past_append] at hsome ⊢
      exact attempt_body hq hne hm hr hlast hsome
    have hspaces : spaces.attempt ⟨before, pos, sp ++ (q ++ (m ++ r))⟩ caps ending =
        ending (.past before pos sp (q ++ (m ++ r))) caps := by
      refine attempt_run hsp ?_ ((congrArg Option.isSome hending).trans hsome)
      rw [← hy]
      exact head?_dropWhile
    have hplace : (⟨before, pos, x⟩ : Cursor) = ⟨before, pos, sp ++ (q ++ (m ++ r))⟩ := by
      rw [← hy, ← hsplit]
    rw [hplace]
    exact hspaces.trans hending

end Shape

/-! ## Behind all commas -/

/-- What is taken of a text: all up to the last comma behind which something is taken, and what is
taken there. -/
def reach : List Char → List Char
  | [] => []
  | c :: r =>
    if reach r ≠ [] then c :: reach r
    else if c = ',' ∧ taken r ≠ [] then c :: taken r else []

example : reach " = f(x, y), b = [1, z];".toList = " = f(x, y), b = [1, z]".toList := by decide

theorem reach_cons {c : Char} {r : List Char} (h : reach r ≠ []) : reach (c :: r) = c :: reach r :=
  if_pos h

theorem reach_comma {r : List Char} (h : reach r = []) (ht : taken r ≠ []) :
    reach (',' :: r) = ',' :: taken r := by
  rw [reach, if_neg (not_not_intro h), if_pos ⟨rfl, ht⟩]

theorem reach_cons_none {c : Char} {r : List Char} (h : reach r = []) (ht : c = ',' → taken r = []) :
    reach (c :: r) = [] := by
  rw [reach, if_neg (not_not_intro h), if_neg fun hc => hc.2 (ht hc.1)]

/-- Where something is taken, all in front of it is. -/
theorem reach_append (h : reach y ≠ []) (x : List Char) : reach (x ++ y) = x ++ reach y := by
  induction x with
  | nil => rfl
  | cons c x ih =>
    have hx : reach (x ++ y) ≠ [] := by
      rw [ih]
      exact List.append_ne_nil_of_right_ne_nil _ h
    rw [List.cons_append, reach_cons hx, ih]
    rfl

/-- In front of a text of which nothing is taken, nothing is unless there is a comma. -/
theorem reach_append_nil (hx : ∀ c ∈ x, c ≠ ',') (h : reach y = []) : reach (x ++ y) = [] := by
  induction x with
  | nil => exact h
  | cons c x ih =>
    obtain ⟨hc, hx⟩ := List.forall_mem_cons.1 hx
    exact reach_cons_none (ih hx) fun hcomma => absurd hcomma hc

theorem reach_eq_nil_of_append (h : reach (x ++ y) = []) : reach y = [] := by
  by_contra hy
  rw [reach_append hy, List.append_eq_nil_iff] at h
  exact hy h.2

/-- Behind what is taken nothing more is. -/
theorem exists_reach (x : List Char) : ∃ r, x = reach x ++ r ∧ reach r = [] := by
  induction x with
  | nil => exact ⟨[], rfl, rfl⟩
  | cons c x ih =>
    obtain ⟨r, hr, hnone⟩ := ih
    by_cases hx : reach x = []
    · by_cases hc : c = ',' ∧ taken x ≠ []
      · obtain ⟨rfl, ht⟩ := hc
        obtain ⟨r', hr'⟩ := taken_append x
        rw [reach_comma hx ht]
        refine ⟨r', congrArg (',' :: ·) hr'.symm, ?_⟩
        rw [← hr'] at hx
        exact reach_eq_nil_of_append hx
      · have hnil := reach_cons_none hx fun h => not_not.1 fun ht => hc ⟨h, ht⟩
        exact ⟨c :: x, by rw [hnil]; rfl, hnil⟩
    · rw [reach_cons hx]
      exact ⟨r, congrArg (c :: ·) hr, hnone⟩

/-! ## Written declarators -/

/-- A character that fails a test ends what satisfies it. -/
theorem takeWhile_concat {test : Char → Bool} {d : Char} (hd : test d = false) (x : List Char) :
    (x ++ [d]).takeWhile test = x.takeWhile test ∧
      (x ++ [d]).dropWhile test = x.dropWhile test ++ [d] := by
  induction x with
  | nil => simp [hd]
  | cons c x ih => cases h : test c <;> simp [h, ih]

/-- A semicolon is not taken. -/
theorem taken_semicolon (x : List Char) : taken (x ++ [';']) = taken x := by
  have hbody : ∀ y, declaratorBody (y ++ [';']) = declaratorBody y := by
    intro y
    obtain ⟨htake, hdrop⟩ := @takeWhile_concat isDeclaratorChar ';' rfl y
    obtain ⟨hdollars, -⟩ := @takeWhile_concat isDeclaratorEnd ';' rfl
      (y.dropWhile isDeclaratorChar)
    unfold declaratorBody
    rw [htake, hdrop, hdollars]
  obtain ⟨htake, hdrop⟩ := @takeWhile_concat Ascii.isSpace ';' rfl x
  unfold taken
  rw [htake, hdrop, hbody]

theorem reach_semicolon (x : List Char) : reach (x ++ [';']) = reach x := by
  induction x with
  | nil => rfl
  | cons c x ih => rw [List.cons_append, reach, reach, ih, taken_semicolon]

/-- A name in front of its value is taken up to its end. -/
theorem taken_name {n : List Char} (hne : n ≠ []) (hn : ∀ c ∈ n, isNameChar c = true)
    (y : List Char) : taken (' ' :: (n ++ ' ' :: '=' :: y)) = ' ' :: n := by
  have hdrop : (' ' :: (n ++ ' ' :: '=' :: y)).dropWhile Ascii.isSpace = n ++ ' ' :: '=' :: y := by
    obtain ⟨c, t, rfl⟩ := List.exists_cons_of_ne_nil hne
    rw [List.dropWhile_cons_of_pos rfl, List.cons_append, List.dropWhile_cons_of_neg]
    simp [isSpace_of_isNameChar (hn c List.mem_cons_self)]
  have htake : (' ' :: (n ++ ' ' :: '=' :: y)).takeWhile Ascii.isSpace = [' '] := by
    obtain ⟨c, t, rfl⟩ := List.exists_cons_of_ne_nil hne
    rw [List.takeWhile_cons_of_pos rfl, List.cons_append, List.takeWhile_cons_of_neg]
    simp [isSpace_of_isNameChar (hn c List.mem_cons_self)]
  have hbody : declaratorBody (n ++ ' ' :: '=' :: y) = n := by
    -- what stands in front of the first dollar sign, and the rest of the name
    obtain ⟨w, v, rfl, hw, hv⟩ : ∃ w v, n = w ++ v ∧ (∀ c ∈ w, Ascii.isWordChar c = true) ∧
        ∀ c ∈ v.head?, Ascii.isWordChar c = false :=
      ⟨_, _, List.takeWhile_append_dropWhile.symm, fun c hc => List.mem_takeWhile_imp hc,
        head?_dropWhile⟩
    have hchar : ∀ c ∈ w, isDeclaratorChar c = true := fun c hc => by
      simp [isDeclaratorChar, hw c hc]
    unfold declaratorBody
    cases v with
    | nil =>
      rw [List.append_nil] at hne ⊢
      have htake : (w ++ ' ' :: '=' :: y).takeWhile isDeclaratorChar = w ++ [' '] := by
        rw [List.takeWhile_append_of_pos hchar]
        rfl
      have hdrop : (w ++ ' ' :: '=' :: y).dropWhile isDeclaratorChar = '=' :: y := by
        rw [List.dropWhile_append_of_pos hchar]
        rfl
      rw [htake, hdrop]
      obtain ⟨t, c, rfl⟩ := List.eq_nil_or_concat w |>.resolve_left hne
      have hc : isDeclaratorEnd c = true := by simp [isDeclaratorEnd, hw c (by simp)]
      rw [List.concat_eq_append]
      show List.rdropWhile (fun c => !isDeclaratorEnd c) (t ++ [c] ++ [' ']) = t ++ [c]
      rw [List.rdropWhile_concat_pos _ _ _ rfl, List.rdropWhile_concat_neg _ _ _ (by simp [hc])]
    | cons d v =>
      have hd : d = '$' := by
        have hname := hn d (by simp)
        simpa [isNameChar, hv d rfl] using hname
      subst hd
      have hend : ∀ c ∈ '$' :: v, isDeclaratorEnd c = true := by
        intro c hc
        have hname := hn c (List.mem_append_right w hc)
        simp only [isNameChar, Bool.or_eq_true, beq_iff_eq] at hname
        rcases hname with hname | rfl
        · simp [isDeclaratorEnd, hname]
        · rfl
      have hdollar : ∀ c ∈ ('$' :: v ++ ' ' :: '=' :: y).head?, isDeclaratorChar c = false := by
        intro c hc
        obtain rfl := Option.some.inj hc
        rfl
      have hspace : ∀ c ∈ (' ' :: '=' :: y).head?, isDeclaratorEnd c = false := by
        intro c hc
        obtain rfl := Option.some.inj hc
        rfl
      have htake : ((w ++ '$' :: v) ++ ' ' :: '=' :: y).takeWhile isDeclaratorChar = w := by
        rw [List.append_assoc]
        exact Text.takeWhile_append_stop hchar hdollar
      have hdrop : ((w ++ '$' :: v) ++ ' ' :: '=' :: y).dropWhile isDeclaratorChar =
          '$' :: v ++ ' ' :: '=' :: y := by
        rw [List.append_assoc]
        exact Text.dropWhile_append_stop hchar hdollar
      have hdollars : ('$' :: v ++ ' ' :: '=' :: y).takeWhile isDeclaratorEnd = '$' :: v :=
        Text.takeWhile_append_stop hend hspace
      rw [htake, hdrop, hdollars]
      exact if_neg (List.cons_ne_nil _ _)
  unfold taken
  rw [hdrop, htake, hbody]
  exact if_neg hne

namespace Shape

variable {β : Type} {before : Option Char} {pos : Nat} {caps : Captures Part} {k : Follow Part β}

/-- The text up to a further declarator, and the declarator. -/
theorem attempt_further {x r : List Char} {before : Option Char} {pos : Nat}
    (hline : ∀ a ∈ x, isInLine a = true) (hx : x = reach x ++ r)
    (hk : reach x ≠ [] → (k (.past before pos (reach x) r) caps).isSome = true) :
    furtherDeclarator.attempt ⟨before, pos, x⟩ caps k =
      if reach x = [] then none else k (.past before pos (reach x) r) caps := by
  let ending : Follow Part β := fun c caps =>
    (spaces ++ (run isDeclaratorChar ++ run1 isDeclaratorEnd) : Pattern Part).attempt c caps k
  let comma : Follow Part β := fun c caps => (char (· == ',') : Pattern Part).attempt c caps ending
  show (run isInLine).attempt ⟨before, pos, x⟩ caps comma = _
  cases x with
  | nil => exact attempt_run_nil
  | cons c x =>
    obtain ⟨hc, hline⟩ := List.forall_mem_cons.1 hline
    rw [attempt_run_cons, if_pos hc]
    by_cases hmore : reach x = []
    · have hnone : (run isInLine).attempt ⟨some c, pos + c.utf8Size, x⟩ caps comma = none := by
        have hrest : x = reach x ++ x := by rw [hmore]; rfl
        exact (attempt_further hline hrest fun h => absurd hmore h).trans (if_pos hmore)
      rw [hnone, Option.none_or]
      show (if (c == ',') = true then ending ⟨some c, pos + c.utf8Size, x⟩ caps else none) = _
      by_cases hcomma : c = ','
      · subst hcomma
        rw [if_pos (beq_self_eq_true ',')]
        by_cases htaken : taken x = []
        · rw [reach_cons_none hmore fun _ => htaken, if_pos rfl]
          have hrest : x = taken x ++ x := by rw [htaken]; rfl
          exact (attempt_taken hrest fun h => absurd htaken h).trans (if_pos htaken)
        · rw [reach_comma hmore htaken] at hx hk ⊢
          rw [Cursor.past_cons] at hk ⊢
          rw [if_neg (List.cons_ne_nil _ _)]
          exact (attempt_taken (List.cons.inj hx).2 fun _ => hk (List.cons_ne_nil _ _)).trans
            (if_neg htaken)
      · rw [if_neg fun h => hcomma (eq_of_beq h),
          reach_cons_none hmore fun h => absurd h hcomma, if_pos rfl]
    · rw [reach_cons hmore] at hx hk ⊢
      rw [Cursor.past_cons] at hk ⊢
      have hsome := hk (List.cons_ne_nil _ _)
      have hrest : (run isInLine).attempt ⟨some c, pos + c.utf8Size, x⟩ caps comma =
          k (.past (some c) (pos + c.utf8Size) (reach x) r) caps :=
        (attempt_further hline (List.cons.inj hx).2 fun _ => hsome).trans (if_neg hmore)
      obtain ⟨b, hb⟩ := Option.isSome_iff_exists.1 hsome
      rw [hrest, if_neg (List.cons_ne_nil _ _), hb]
      rfl

/-- What is remembered as further declarators. -/
theorem attempt_extra {r : List Char} (hline : ∀ a ∈ x, isInLine a = true) (hx : x = reach x ++ r)
    (hr : reach r = []) (hk : Succeeds k) :
    (many true (capture .extra furtherDeclarator)).attempt ⟨before, pos, x⟩ caps k =
      if reach x = [] then k ⟨before, pos, x⟩ caps
      else k (.past before pos (reach x) r)
        ((.extra, ⟨pos, pos + Text.byteLength (reach x)⟩) :: caps) := by
  have hnone : ∀ {before pos x} {caps : Captures Part} {k : Follow Part β},
      (∀ a ∈ x, isInLine a = true) → reach x = [] →
        (capture .extra furtherDeclarator).attempt ⟨before, pos, x⟩ caps k = none := by
    intro before pos x caps k hline hnil
    exact (attempt_further (r := x) hline (by rw [hnil]; rfl) fun h => absurd hnil h).trans
      (if_pos hnil)
  rw [attempt_many]
  dsimp only
  rw [if_pos rfl]
  split
  · rename_i hnil
    rw [hnone hline hnil]
    rfl
  · rename_i hne
    let c : Cursor := .past before pos (reach x) r
    let caps' : Captures Part := (.extra, ⟨pos, pos + Text.byteLength (reach x)⟩) :: caps
    -- a second round finds nothing
    have hsecond : (many true (capture .extra furtherDeclarator)).attempt c caps' k = k c caps' := by
      have hfails : (capture .extra furtherDeclarator).attempt c caps' (fun c' caps' =>
          if c.pos < c'.pos then
            (many true (capture .extra furtherDeclarator)).attempt c' caps' k else none) = none :=
        hnone (fun a ha => hline a (hx ▸ List.mem_append_right _ ha)) hr
      rw [attempt_many]
      exact (congrArg (Option.orElse · fun _ => k c caps') hfails).trans rfl
    have hlt : pos < c.pos := Nat.lt_add_of_pos_right (Text.byteLength_pos hne)
    let again : Follow Part β := fun c' caps' =>
      if pos < c'.pos then (many true (capture .extra furtherDeclarator)).attempt c' caps' k else none
    have hagain : again c caps' = k c caps' := (if_pos hlt).trans hsecond
    have hfirst : (capture .extra furtherDeclarator).attempt ⟨before, pos, x⟩ caps again = k c caps' :=
      ((attempt_further (k := fun c' caps => again c' ((.extra, ⟨pos, c'.pos⟩) :: caps)) hline hx
        fun _ => (congrArg Option.isSome hagain).trans (hk _ _)).trans (if_neg hne)).trans hagain
    rw [hfirst]
    exact orElse_eq_left (.inr (hk _ _))

end Shape

end EsModules
