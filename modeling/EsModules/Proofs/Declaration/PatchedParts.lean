import EsModules.Proofs.Declaration.Patched
import EsModules.Proofs.Declaration.Sites

/-!
# Parts of declarations in patched texts

What the parts of corresponding matches read.  A part without a swapped text in it reads the same in
both texts; and the argument of a call is a single quoted text in both or in neither.

* `Patch.exists_patch`: the stretch that holds a character.
* `Patch.flip`: what holds of the text before and the text after holds the other way round.
* `Patch.exists_requoted`: a single quoted text stays one.
* `Patch.Twins`, `Patch.Twins.text_eq`: what is read between two places in both texts; without
  quotes it is the same.
* `DynamicImport.literal?_eq_some_iff`, `DynamicImport.rel_literal?`: single quoted texts.
-/

namespace EsModules

namespace Patch

variable {all pre mid post ps : List Patch}

/-! ## Stretches and their characters -/

/-- Where a character stands in stretches, read in any way. -/
theorem exists_patch {f : Patch → List Char} {u v : List Char} {c : Char}
    (h : ps.flatMap f = u ++ c :: v) : ∃ front p back w z, ps = front ++ p :: back ∧
      f p = w ++ c :: z ∧ u = front.flatMap f ++ w ∧ v = z ++ back.flatMap f := by
  induction ps generalizing u with
  | nil => simp at h
  | cons p ps ih =>
    rw [List.flatMap_cons] at h
    have hlater : ∀ m, u = f p ++ m → ps.flatMap f = m ++ c :: v →
        ∃ front d back w z, p :: ps = front ++ d :: back ∧
          f d = w ++ c :: z ∧ u = front.flatMap f ++ w ∧ v = z ++ back.flatMap f := by
      rintro m rfl hrest
      obtain ⟨front, d, back, w, z, rfl, hd, rfl, rfl⟩ := ih hrest
      exact ⟨p :: front, d, back, w, z, rfl, hd, (List.append_assoc _ _ _).symm, rfl⟩
    rcases List.append_eq_append_iff.1 h with ⟨m, rfl, hrest⟩ | ⟨m, hp, hrest⟩
    · exact hlater m rfl hrest
    · cases m with
      | nil => exact hlater [] (by simpa using hp.symm) hrest.symm
      | cons d z =>
        obtain ⟨rfl, rfl⟩ := List.cons.inj hrest
        exact ⟨[], p, ps, u, z, rfl, hp, rfl, rfl⟩

/-- The places of a quote in a stretch. -/
theorem eq_of_old_eq {p : Patch} (hp : p.Valid) {q : Char} (hq : isQuote q = true)
    {w z : List Char} (h : p.old = w ++ q :: z) :
    p = keep q ∧ w = [] ∧ z = [] ∨ ∃ x y, p = swap q x y ∧
      (w = [] ∧ z = x ++ [q] ∨ w = q :: x ∧ z = []) := by
  cases p with
  | keep c =>
    rw [old, List.singleton_eq_append_iff] at h
    rcases h with ⟨rfl, h⟩ | ⟨-, h⟩
    · obtain ⟨rfl, rfl⟩ := List.cons.inj h
      exact .inl ⟨rfl, rfl, rfl⟩
    · cases h
  | swap q' x y =>
    obtain ⟨-, hx, -⟩ := hp
    have hnot : q ∉ x := hx.2.not_mem hq
    cases w with
    | nil =>
      obtain ⟨rfl, rfl⟩ := List.cons.inj h
      exact .inr ⟨x, y, rfl, .inl ⟨rfl, rfl⟩⟩
    | cons d w =>
      obtain ⟨rfl, hbody⟩ := List.cons.inj h
      rcases List.append_eq_append_iff.1 (show x ++ [q'] = w ++ q :: z from hbody) with
        ⟨m, rfl, hm⟩ | ⟨m, rfl, hm⟩
      · rw [List.singleton_eq_append_iff] at hm
        rcases hm with ⟨rfl, hm⟩ | ⟨-, hm⟩
        · obtain ⟨rfl, rfl⟩ := List.cons.inj hm
          exact .inr ⟨x, y, rfl, .inr ⟨by simp, rfl⟩⟩
        · cases hm
      · cases m with
        | nil =>
          obtain ⟨rfl, rfl⟩ := List.cons.inj hm
          exact .inr ⟨_, y, rfl, .inr ⟨by simp, rfl⟩⟩
        | cons e m =>
          obtain ⟨rfl, -⟩ := List.cons.inj hm
          exact absurd (List.mem_append_right w List.mem_cons_self) hnot

/-- A quote in front of a swapped text stands in the text before. -/
theorem mem_old_of_swap {q : Char} {x y : List Char} (h : swap q x y ∈ ps) : q ∈ ps.flatMap old :=
  List.mem_flatMap.2 ⟨_, h, List.mem_cons_self⟩

/-- Stretches without a swapped text read the same before and after. -/
theorem text_eq_of_clear (h : ∀ q x y, swap q x y ∉ ps) : ps.flatMap new = ps.flatMap old := by
  refine List.flatMap_congr fun p hp => ?_
  cases p with
  | keep c => rfl
  | swap q x y => exact absurd hp (h q x y)

/-- Between two places between stretches are stretches. -/
theorem exists_stretches {s s' : Span}
    (hstart : AtEdge all s.start s'.start) (hstop : AtEdge all s.stop s'.stop)
    (hle : s.start ≤ s.stop) : ∃ pre mid post, all = pre ++ (mid ++ post) ∧
      s.start = Text.byteLength (pre.flatMap old) ∧ s'.start = Text.byteLength (pre.flatMap new) ∧
      s.stop = s.start + Text.byteLength (mid.flatMap old) ∧
      s'.stop = s'.start + Text.byteLength (mid.flatMap new) := by
  obtain ⟨pre, ps, hpre, hs, hs'⟩ := hstart
  obtain ⟨front, post, hfront, ht, ht'⟩ := hstop
  rcases List.append_eq_append_iff.1 (hpre.symm.trans hfront) with
    ⟨mid, rfl, rfl⟩ | ⟨more, rfl, rfl⟩
  · refine ⟨pre, mid, post, hpre, hs, hs', ?_, ?_⟩
    · rw [ht, hs, List.flatMap_append, Text.byteLength_append]
    · rw [ht', hs', List.flatMap_append, Text.byteLength_append]
  · -- the second place does not stand in front of the first
    have hmore : more = [] := by
      cases more with
      | nil => rfl
      | cons p more =>
        have hp : p.old ≠ [] := by cases p <;> exact List.cons_ne_nil _ _
        have hpos := Text.byteLength_pos hp
        rw [List.flatMap_append, List.flatMap_cons, Text.byteLength_append,
          Text.byteLength_append] at hs
        omega
    subst hmore
    refine ⟨front, [], ps, by simpa using hpre, by simpa using hs, by simpa using hs', ?_, ?_⟩
    · simp [hs, ht]
    · simp [hs', ht']

/-- What lies between such places is what these stretches read. -/
theorem exists_texts {s s' : Span} (hstart : AtEdge all s.start s'.start)
    (hstop : AtEdge all s.stop s'.stop) (hle : s.start ≤ s.stop) :
    ∃ pre mid post, all = pre ++ (mid ++ post) ∧ s.start = Text.byteLength (pre.flatMap old) ∧
      s'.start = Text.byteLength (pre.flatMap new) ∧
      s.stop = s.start + Text.byteLength (mid.flatMap old) ∧
      s.text (all.flatMap old) = mid.flatMap old ∧ s'.text (all.flatMap new) = mid.flatMap new := by
  obtain ⟨pre, mid, post, rfl, hs, hs', ht, ht'⟩ := exists_stretches hstart hstop hle
  refine ⟨pre, mid, post, rfl, hs, hs', ht, Span.Covers.text_eq ?_, Span.Covers.text_eq ?_⟩
  · exact ⟨pre.flatMap old, post.flatMap old, by simp, hs, by omega⟩
  · exact ⟨pre.flatMap new, post.flatMap new, by simp, hs', by omega⟩

variable {lead tail x : List Char} {q : Char}

/-! ## Patches back -/

/-- The patch that takes a patch back. -/
def flip : Patch → Patch
  | keep c => keep c
  | swap q x y => swap q y x

theorem Valid.flip {p : Patch} (h : p.Valid) : p.flip.Valid := by
  cases p with
  | keep c => trivial
  | swap q x y => exact ⟨h.1, h.2.2, h.2.1⟩

theorem flatMap_old_flip (ps : List Patch) : (ps.map flip).flatMap old = ps.flatMap new := by
  rw [List.flatMap_map]
  exact List.flatMap_congr fun p _ => by cases p <;> rfl

theorem flatMap_new_flip (ps : List Patch) : (ps.map flip).flatMap new = ps.flatMap old := by
  rw [List.flatMap_map]
  exact List.flatMap_congr fun p _ => by cases p <;> rfl

/-! ## Quoted texts in patched texts -/

/-- Stretches without quotes hold no swapped text. -/
theorem clear_of_forall (hps : ∀ p ∈ ps, p.Valid) (h : ∀ c ∈ ps.flatMap old, isQuote c = false) :
    ∀ q x y, swap q x y ∉ ps := by
  intro q x y hmem
  have hq := (hps _ hmem).1
  rw [h q (mem_old_of_swap hmem)] at hq
  cases hq

/-- A substitution does not come from a swapped text. -/
theorem contains_of_contains_new (hps : ∀ p ∈ ps, p.Valid)
    (h : Text.contains ['$', '\x7b'] (ps.flatMap new) = true) :
    Text.contains ['$', '\x7b'] (ps.flatMap old) = true := by
  obtain ⟨u, v, huv⟩ := Text.infix_of_contains h
  have hsplit : ps.flatMap new = (u ++ ['$']) ++ '\x7b' :: v := by simp [← huv]
  obtain ⟨front, p, back, w, z, rfl, hp, hu, -⟩ := exists_patch hsplit
  cases p with
  | keep c =>
    have hone : [c] = w ++ '\x7b' :: z := hp
    obtain ⟨rfl, hc⟩ | ⟨-, hc⟩ := List.singleton_eq_append_iff.1 hone
    · obtain ⟨rfl, rfl⟩ := List.cons.inj hc
      have hlast : (front.flatMap old).getLast? = some '$' := by
        rw [getLast?_flatMap, ← List.append_nil (front.flatMap new), ← hu, List.getLast?_concat]
      obtain ⟨u', hu'⟩ := List.getLast?_eq_some_iff.1 hlast
      refine Text.contains_of_infix ⟨u', back.flatMap old, ?_⟩
      rw [List.flatMap_append, hu', List.flatMap_cons, old]
      simp
    · cases hc
  | swap q x y =>
    obtain ⟨hq, -, hy⟩ := hps (swap q x y) (by simp)
    have hmem : '\x7b' ∈ q :: (y ++ [q]) := by
      rw [show q :: (y ++ [q]) = w ++ '\x7b' :: z from hp]
      simp
    have hne : '\x7b' ≠ q := by
      rintro rfl
      cases hq
    simp only [List.mem_cons, List.mem_append, List.not_mem_nil, or_false, hne, false_or] at hmem
    have hplain := hy.2.1 _ hmem
    cases hplain

/-- A character that no swapped text holds stands in stretches before if it does so after. -/
theorem mem_of_mem_new (hps : ∀ p ∈ ps, p.Valid) (hq : isQuote q = true)
    (h : q ∈ ps.flatMap new) : q ∈ ps.flatMap old := by
  obtain ⟨p, hp, hmem⟩ := List.mem_flatMap.1 h
  cases p with
  | keep c => exact List.mem_flatMap.2 ⟨keep c, hp, hmem⟩
  | swap q' x y =>
    obtain ⟨-, -, hy⟩ := hps _ hp
    simp only [new, List.mem_cons, List.mem_append, List.not_mem_nil, or_false] at hmem
    rcases hmem with rfl | hmem | rfl
    · exact mem_old_of_swap hp
    · exact absurd hmem (hy.2.not_mem hq)
    · exact mem_old_of_swap hp

/-- A single quoted text between blanks stays one. -/
theorem exists_requoted (hall : ∀ p ∈ all, p.Valid) (hsplit : all = pre ++ (mid ++ post))
    (hq : isQuote q = true) (hlead : ∀ c ∈ lead, isQuote c = false)
    (htail : ∀ c ∈ tail, isQuote c = false) (hx : q ∉ x)
    (h : mid.flatMap old = lead ++ (q :: (x ++ [q]) ++ tail)) :
    ∃ y, mid.flatMap new = lead ++ (q :: (y ++ [q]) ++ tail) ∧ q ∉ y ∧
      (Text.contains ['$', '\x7b'] y = true → Text.contains ['$', '\x7b'] x = true) ∧
      Aligned all (Text.byteLength (pre.flatMap old) + Text.byteLength lead + 1)
        (Text.byteLength (pre.flatMap new) + Text.byteLength lead + 1) ∧
      Aligned all (Text.byteLength (pre.flatMap old) + Text.byteLength lead + 1 + Text.byteLength x)
        (Text.byteLength (pre.flatMap new) + Text.byteLength lead + 1 + Text.byteLength y) := by
  have hsize := utf8Size_of_isQuote hq
  have hvalid : ∀ p ∈ mid, p.Valid := fun p hp => hall p (by rw [hsplit]; simp [hp])
  have hopen : mid.flatMap old = lead ++ q :: (x ++ q :: tail) := by rw [h]; simp
  obtain ⟨front, p, back, w, z, rfl, hp, rfl, hrest⟩ := exists_patch hopen
  have hfront : front.flatMap new = front.flatMap old :=
    text_eq_of_clear (clear_of_forall (fun p hp => hvalid p (by simp [hp])) fun c hc =>
      hlead c (List.mem_append_left w hc))
  rcases eq_of_old_eq (hvalid p (by simp)) hq hp with
    ⟨rfl, rfl, rfl⟩ | ⟨x', y, rfl, ⟨rfl, rfl⟩ | ⟨rfl, -⟩⟩
  · -- the quote is a character that is kept, and so is the one that closes it
    obtain ⟨inner, p', back, w', z', rfl, hp', rfl, rfl⟩ := exists_patch hrest.symm
    rcases eq_of_old_eq (hvalid p' (by simp)) hq hp' with
      ⟨rfl, rfl, rfl⟩ | ⟨x', y, rfl, ⟨rfl, rfl⟩ | ⟨rfl, -⟩⟩
    · have hback : back.flatMap new = back.flatMap old :=
        text_eq_of_clear (clear_of_forall (fun p hp => hvalid p (by simp [hp])) htail)
      have hinner : ∀ p ∈ inner, p.Valid := fun p hp => hvalid p (by simp [hp])
      have hstart : all =
          (pre ++ (front ++ [keep q])) ++ (inner ++ (keep q :: (back ++ post))) := by
        rw [hsplit]
        simp
      have hstop : all = (pre ++ (front ++ [keep q]) ++ inner) ++ (keep q :: (back ++ post)) := by
        rw [hsplit]
        simp
      have hopening := aligned_edge hstart
      have hclosing := aligned_edge hstop
      refine ⟨inner.flatMap new, ?_, fun hmem => hx ?_, fun hcontains => ?_, ?_, ?_⟩
      · simp [hfront, hback, new]
      · simpa using mem_of_mem_new hinner hq hmem
      · simpa using contains_of_contains_new hinner hcontains
      · simpa [old, new, hfront, hsize, Nat.add_assoc] using hopening
      · simpa [old, new, hfront, hsize, Nat.add_assoc] using hclosing
    · have hquote := htail q (by simp)
      rw [hq] at hquote
      cases hquote
    · exact absurd (List.mem_append_right _ List.mem_cons_self) hx
  · -- the quote stands in front of a swapped text
    obtain ⟨-, hx', hy⟩ := hvalid (swap q x' y) (by simp)
    have hboth : x ++ q :: tail = x' ++ q :: back.flatMap old := by
      rw [hrest]
      simp
    have hnot : q ∉ tail := by
      intro hmem
      rw [htail q hmem] at hq
      cases hq
    obtain ⟨rfl, -, rfl⟩ := (List.append_cons_inj_of_notMem hx hnot).1 hboth
    have hback : back.flatMap new = back.flatMap old :=
      text_eq_of_clear (clear_of_forall (fun p hp => hvalid p (by simp [hp])) htail)
    have hswap : all = (pre ++ front) ++ swap q x y :: (back ++ post) := by
      rw [hsplit]
      simp
    have hopening := aligned_opening hswap
    have hclosing := aligned_closing hswap
    refine ⟨y, ?_, hy.2.not_mem hq, fun hcontains => ?_, ?_, ?_⟩
    · simp [hfront, hback, new]
    · obtain ⟨u, v, huv⟩ := Text.infix_of_contains hcontains
      have hplain := hy.2.1 '\x7b' (by simp [← huv])
      cases hplain
    · simpa [hfront, hsize, Nat.add_assoc] using hopening
    · simpa [hfront, hsize, Nat.add_assoc] using hclosing
  · have hquote := hlead q (by simp)
    rw [hq] at hquote
    cases hquote

/-! ## What is read in both texts -/

/-- The same stretches, read behind two places as they were and as they become. -/
def Twins (all : List Patch) (s s' : Span) (text text' : List Char) : Prop :=
  ∃ pre mid post, all = pre ++ (mid ++ post) ∧ s.start = Text.byteLength (pre.flatMap old) ∧
    s'.start = Text.byteLength (pre.flatMap new) ∧ text = mid.flatMap old ∧ text' = mid.flatMap new

/-- Between places that lie between stretches the same stretches are read. -/
theorem twins_of_atEdge {s s' : Span} (hstart : AtEdge all s.start s'.start)
    (hstop : AtEdge all s.stop s'.stop) (hle : s.start ≤ s.stop) :
    Twins all s s' (s.text (all.flatMap old)) (s'.text (all.flatMap new)) := by
  obtain ⟨pre, mid, post, hall, hs, hs', -, htext, htext'⟩ := exists_texts hstart hstop hle
  exact ⟨pre, mid, post, hall, hs, hs', htext, htext'⟩

variable {s s' : Span} {text text' : List Char}

theorem Twins.flip (h : Twins all s s' text text') :
    Twins (all.map Patch.flip) s' s text' text := by
  obtain ⟨pre, mid, post, rfl, hs, hs', rfl, rfl⟩ := h
  refine ⟨pre.map Patch.flip, mid.map Patch.flip, post.map Patch.flip, ?_, ?_, ?_, ?_, ?_⟩
  · rw [List.map_append, List.map_append]
  · rw [flatMap_old_flip, hs']
  · rw [flatMap_new_flip, hs]
  · rw [flatMap_old_flip]
  · rw [flatMap_new_flip]

/-- Without quotes the same is read in both texts. -/
theorem Twins.text_eq (hall : ∀ p ∈ all, p.Valid) (h : Twins all s s' text text')
    (hquotes : ∀ c ∈ text, isQuote c = false) : text' = text := by
  obtain ⟨pre, mid, post, rfl, -, -, rfl, rfl⟩ := h
  have hmid : ∀ p ∈ mid, p.Valid := fun p hp => hall p (by simp [hp])
  exact text_eq_of_clear (clear_of_forall hmid hquotes)

end Patch

/-! ## Single quoted texts -/

namespace Text

/-- A text stands where the blanks around it are dropped. -/
theorem exists_blanks_of_trim (cs : List Char) : ∃ tail,
    cs = cs.takeWhile isBlank ++ (trim cs ++ tail) ∧ ∀ c ∈ tail, isBlank c = true := by
  refine ⟨((trimStart cs).reverse.takeWhile isBlank).reverse, ?_, fun c hc => ?_⟩
  · have hend : trim cs ++ ((trimStart cs).reverse.takeWhile isBlank).reverse = trimStart cs := by
      unfold trim trimEnd
      rw [← List.reverse_append, List.takeWhile_append_dropWhile, List.reverse_reverse]
    rw [hend]
    exact List.takeWhile_append_dropWhile.symm
  · exact List.all_eq_true.1 List.all_takeWhile c (List.mem_reverse.1 hc)

variable {lead tail inner : List Char} {q : Char}

/-- The blanks in front of a text that starts with another character. -/
theorem takeWhile_isBlank (hlead : ∀ c ∈ lead, isBlank c = true) (hq : isBlank q = false)
    (r : List Char) : (lead ++ q :: r).takeWhile isBlank = lead :=
  Text.takeWhile_append_stop hlead (by simpa using hq)

/-- Dropping the blanks around a quoted text leaves it. -/
theorem trim_quoted (hlead : ∀ c ∈ lead, isBlank c = true) (htail : ∀ c ∈ tail, isBlank c = true)
    (hq : isBlank q = false) :
    trim (lead ++ (q :: (inner ++ [q]) ++ tail)) = q :: (inner ++ [q]) := by
  refine trim_append hlead htail (List.cons_ne_nil _ _) ?_ ?_
  · rintro c ⟨⟩
    exact hq
  · rw [← List.cons_append, List.getLast?_concat]
    rintro c ⟨⟩
    exact hq

end Text

namespace DynamicImport

open Patch

variable {all : List Patch} {d d' : DynamicImport} {s : Specifier}

theorem isBlank_of_isQuote {q : Char} (h : isQuote q = true) : Text.isBlank q = false := by
  rcases eq_of_isQuote h with rfl | rfl | rfl <;> rfl

theorem unquoted?_cons (q : Char) (r : List Char) : unquoted? (q :: r) =
    if isQuote q then (Text.dropSuffix? [q] r).bind fun inner =>
      if inner.contains q || (q == '\x60' && Text.contains ['$', '\x7b'] inner) then none
      else some inner
    else none := by
  rw [unquoted?]
  cases Text.dropSuffix? [q] r <;> rfl

/-- A text between two quotes of one kind, which does not hold that quote, and no substitution if
it is a template. -/
theorem unquoted?_eq_some_iff {text inner : List Char} : unquoted? text = some inner ↔
    ∃ q, isQuote q = true ∧ text = q :: (inner ++ [q]) ∧ q ∉ inner ∧
      ¬ (q = '\x60' ∧ Text.contains ['$', '\x7b'] inner = true) := by
  cases text with
  | nil => simp [unquoted?]
  | cons quote r =>
    have hunique : ∀ q, quote :: r = q :: (inner ++ [q]) ↔
        q = quote ∧ Text.dropSuffix? [quote] r = some inner := by
      intro q
      rw [List.cons.injEq, Text.dropSuffix?_eq_some_iff]
      constructor
      · rintro ⟨rfl, rfl⟩
        exact ⟨rfl, rfl⟩
      · rintro ⟨rfl, rfl⟩
        exact ⟨rfl, rfl⟩
    rw [unquoted?_cons, Option.ite_none_right_eq_some, Option.bind_eq_some_iff]
    constructor
    · rintro ⟨hquote, found, hfound, h⟩
      obtain ⟨hholds, heq⟩ := Option.ite_none_left_eq_some.1 h
      obtain rfl := Option.some.inj heq
      simp only [Bool.or_eq_true, List.contains_iff_mem, Bool.and_eq_true, beq_iff_eq,
        not_or] at hholds
      exact ⟨quote, hquote, (hunique quote).2 ⟨rfl, hfound⟩, hholds⟩
    · rintro ⟨q, hquote, htext, hholds⟩
      obtain ⟨rfl, hfound⟩ := (hunique q).1 htext
      refine ⟨hquote, inner, hfound, if_neg ?_⟩
      simp only [Bool.or_eq_true, List.contains_iff_mem, Bool.and_eq_true, beq_iff_eq, not_or]
      exact hholds

/-- The argument of a call is a single quoted text between blanks. -/
theorem literal?_eq_some_iff : d.literal? = some s ↔
    ∃ lead q tail, d.argument = lead ++ (q :: (s.text ++ [q]) ++ tail) ∧
      (∀ c ∈ lead, Text.isBlank c = true) ∧ (∀ c ∈ tail, Text.isBlank c = true) ∧
      isQuote q = true ∧ q ∉ s.text ∧
      ¬ (q = '\x60' ∧ Text.contains ['$', '\x7b'] s.text = true) ∧
      s.span.start = d.argumentSpan.start + Text.byteLength lead + 1 ∧
      s.span.stop = s.span.start + Text.byteLength s.text := by
  unfold literal?
  rw [Option.map_eq_some_iff]
  constructor
  · rintro ⟨inner, hinner, rfl⟩
    obtain ⟨q, hq, htrim, hnot, hholds⟩ := unquoted?_eq_some_iff.1 hinner
    obtain ⟨tail, hargument, htail⟩ := Text.exists_blanks_of_trim d.argument
    rw [htrim] at hargument
    exact ⟨_, q, tail, hargument, fun c hc => List.all_eq_true.1 List.all_takeWhile c hc, htail,
      hq, hnot, hholds, rfl, rfl⟩
  · rintro ⟨lead, q, tail, hargument, hlead, htail, hq, hnot, hholds, hstart, hstop⟩
    have hblank := isBlank_of_isQuote hq
    refine ⟨s.text, unquoted?_eq_some_iff.2 ⟨q, hq, ?_, hnot, hholds⟩, ?_⟩
    · rw [hargument, Text.trim_quoted hlead htail hblank]
    · have htake : d.argument.takeWhile Text.isBlank = lead := by
        rw [hargument]
        exact Text.takeWhile_isBlank hlead hblank _
      obtain ⟨text, start, stop⟩ := s
      dsimp only at hstart hstop
      rw [htake, hstop, hstart]

theorem not_isQuote_of_isBlank {c : Char} (h : Text.isBlank c = true) : isQuote c = false := by
  cases hq : isQuote c with
  | false => rfl
  | true =>
    rw [isBlank_of_isQuote hq] at h
    cases h

/-- A single quoted text as the argument of a call stays one. -/
theorem exists_literal? (hall : ∀ p ∈ all, p.Valid)
    (htwins : Twins all d.argumentSpan d'.argumentSpan d.argument d'.argument)
    (h : d.literal? = some s) : ∃ s', d'.literal? = some s' ∧ AlignedSpan all s.span s'.span := by
  obtain ⟨lead, q, tail, hargument, hlead, htail, hq, hnot, hholds, hstart, hstop⟩ :=
    literal?_eq_some_iff.1 h
  obtain ⟨pre, mid, post, hsplit, hpre, hpre', hold, hnew⟩ := htwins
  obtain ⟨y, hy, hnot', hholds', hopening, hclosing⟩ := exists_requoted hall hsplit hq
    (fun c hc => not_isQuote_of_isBlank (hlead c hc))
    (fun c hc => not_isQuote_of_isBlank (htail c hc)) hnot (hold.symm.trans hargument)
  let start := d'.argumentSpan.start + Text.byteLength lead + 1
  refine ⟨⟨y, ⟨start, start + Text.byteLength y⟩⟩, literal?_eq_some_iff.2
    ⟨lead, q, tail, hnew.trans hy, hlead, htail, hq, hnot', fun h => hholds ⟨h.1, hholds' h.2⟩,
      rfl, rfl⟩, ?_, ?_⟩
  · show Aligned all s.span.start (d'.argumentSpan.start + Text.byteLength lead + 1)
    rw [hstart, hpre, hpre']
    exact hopening
  · show Aligned all s.span.stop
      (d'.argumentSpan.start + Text.byteLength lead + 1 + Text.byteLength y)
    rw [hstop, hstart, hpre, hpre']
    exact hclosing

/-- The argument of a call is a single quoted text in both texts or in neither. -/
theorem rel_literal? (hall : ∀ p ∈ all, p.Valid)
    (htwins : Twins all d.argumentSpan d'.argumentSpan d.argument d'.argument) :
    Option.Rel (fun s s' : Specifier => AlignedSpan all s.span s'.span) d.literal? d'.literal? := by
  cases h : d.literal? with
  | some s =>
    obtain ⟨s', h', haligned⟩ := exists_literal? hall htwins h
    rw [h']
    exact .some haligned
  | none =>
    cases h' : d'.literal? with
    | none => exact .none
    | some s' =>
      have hflip : ∀ p ∈ all.map flip, p.Valid := by
        intro p hp
        obtain ⟨p', hp', rfl⟩ := List.mem_map.1 hp
        exact (hall p' hp').flip
      obtain ⟨s, hs, -⟩ := exists_literal? hflip htwins.flip h'
      rw [h] at hs
      cases hs

end DynamicImport

end EsModules
