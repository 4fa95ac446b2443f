import EsModules.Declaration.Shape
import EsModules.Proofs.Pattern.Inside
import Mathlib.Data.List.Forall2

/-!
# Matches in patched texts

Two texts that differ within quotes are matched side by side.  Between the stretches of their
patches a pattern does the same in both, as long as what follows it does, and as long as it does not
stop within a swapped text.  A pattern stays out of swapped texts if no test of it holds of a quote;
a run that goes over quotes and plain texts goes over them whole.

* `Patch.place`, `Patch.opened`, `Abreast`: the places that belong together in the two texts.
* `AgreeAtEdges`, `AgreeAtOpenings`: what follows a pattern gives the same at such places.
* `Avoids`, `Crosses`, `Completes`: patterns that do the same in both texts;
  `avoids_of_avoidsQuotes` finds most of them.
* `Corresponds.select`: the matches in the two texts correspond.
-/

namespace EsModules

namespace Patch

variable {all pre ps : List Patch}

/-! ## Places that belong together -/

/-- The place between two lists of stretches, read as they were or as they become. -/
def place (f : Patch → List Char) (pre ps : List Patch) : Cursor :=
  ⟨(pre.flatMap f).getLast?, Text.byteLength (pre.flatMap f), ps.flatMap f⟩

/-- The place behind the quote in front of a swapped text. -/
def opened (f : Patch → List Char) (pre : List Patch) (q : Char) (text : List Char)
    (ps : List Patch) : Cursor :=
  ⟨some q, Text.byteLength (pre.flatMap f) + q.utf8Size, text ++ q :: ps.flatMap f⟩

theorem place_old_keep (pre ps : List Patch) (c : Char) : place old (pre ++ [keep c]) ps =
    ⟨some c, Text.byteLength (pre.flatMap old) + c.utf8Size, ps.flatMap old⟩ := by
  simp [place, old]

theorem place_new_keep (pre ps : List Patch) (c : Char) : place new (pre ++ [keep c]) ps =
    ⟨some c, Text.byteLength (pre.flatMap new) + c.utf8Size, ps.flatMap new⟩ := by
  simp [place, new]

theorem place_old_swap (pre ps : List Patch) (q : Char) (x y : List Char) :
    place old (pre ++ [swap q x y]) ps = ⟨some q, Text.byteLength (pre.flatMap old) + q.utf8Size
      + Text.byteLength x + q.utf8Size, ps.flatMap old⟩ := by
  simp [place, old, Nat.add_assoc, List.getLast?_append, List.getLast?_cons]

theorem place_new_swap (pre ps : List Patch) (q : Char) (x y : List Char) :
    place new (pre ++ [swap q x y]) ps = ⟨some q, Text.byteLength (pre.flatMap new) + q.utf8Size
      + Text.byteLength y + q.utf8Size, ps.flatMap new⟩ := by
  simp [place, new, Nat.add_assoc, List.getLast?_append, List.getLast?_cons]

theorem place_old_cons_keep (pre ps : List Patch) (c : Char) : place old pre (keep c :: ps) =
    ⟨(pre.flatMap old).getLast?, Text.byteLength (pre.flatMap old), c :: ps.flatMap old⟩ := rfl

theorem place_new_cons_keep (pre ps : List Patch) (c : Char) : place new pre (keep c :: ps) =
    ⟨(pre.flatMap new).getLast?, Text.byteLength (pre.flatMap new), c :: ps.flatMap new⟩ := rfl

theorem place_old_cons_swap (pre ps : List Patch) (q : Char) (x y : List Char) :
    place old pre (swap q x y :: ps) = ⟨(pre.flatMap old).getLast?,
      Text.byteLength (pre.flatMap old), q :: (x ++ q :: ps.flatMap old)⟩ := by
  simp [place, old]

theorem place_new_cons_swap (pre ps : List Patch) (q : Char) (x y : List Char) :
    place new pre (swap q x y :: ps) = ⟨(pre.flatMap new).getLast?,
      Text.byteLength (pre.flatMap new), q :: (y ++ q :: ps.flatMap new)⟩ := by
  simp [place, new]

/-- Of two places between stretches, the one further back has fewer stretches behind it. -/
theorem exists_append_of_lt {pre' ps' : List Patch} (h : all = pre ++ ps) (h' : all = pre' ++ ps')
    (hlt : Text.byteLength (pre.flatMap old) < Text.byteLength (pre'.flatMap old)) :
    ∃ p more, ps = p :: (more ++ ps') := by
  rcases List.append_eq_append_iff.1 (h.symm.trans h') with ⟨more, rfl, rfl⟩ | ⟨more, rfl, -⟩
  · cases more with
    | nil => simp at hlt
    | cons p more => exact ⟨p, more, rfl⟩
  · rw [List.flatMap_append, Text.byteLength_append] at hlt
    omega

/-- A stretch that ends behind a place belongs to what lies behind that. -/
theorem exists_append_swap {pre' ps' : List Patch} {p : Patch} (h : all = pre ++ ps)
    (h' : all = (pre' ++ [p]) ++ ps')
    (hlt : Text.byteLength (pre.flatMap old) < Text.byteLength ((pre' ++ [p]).flatMap old)) :
    ∃ front, ps = front ++ [p] ++ ps' := by
  obtain ⟨d, more, rfl⟩ := exists_append_of_lt h h' hlt
  have hboth : pre ++ (d :: more) = pre' ++ [p] := by
    rw [h] at h'
    exact List.append_cancel_right (by simpa using h')
  rcases List.eq_nil_or_concat (d :: more) with hnil | ⟨front, last, hconcat⟩
  · cases hnil
  · rw [List.concat_eq_append] at hconcat
    rw [hconcat, ← List.append_assoc] at hboth
    obtain ⟨-, hlast⟩ := List.append_inj' hboth rfl
    obtain rfl := List.singleton_inj.1 hlast
    exact ⟨front, by rw [← hconcat]; rfl⟩

end Patch

open Patch

/-- Two places that belong together: between stretches, or behind the quote in front of a swapped
text. -/
inductive Abreast (all : List Patch) : Cursor → Cursor → Prop
  | edge {pre ps : List Patch} : all = pre ++ ps → Abreast all (place old pre ps) (place new pre ps)
  | opening {pre ps : List Patch} {q : Char} {x y : List Char} : all = pre ++ swap q x y :: ps →
      Abreast all (opened old pre q x ps) (opened new pre q y ps)

theorem Abreast.aligned {all : List Patch} {c c' : Cursor} (h : Abreast all c c') :
    Aligned all c.pos c'.pos := by
  cases h with
  | edge hall => exact aligned_edge hall
  | opening hall => exact aligned_opening hall

theorem Abreast.before_eq {all : List Patch} {c c' : Cursor} (h : Abreast all c c') :
    c.before = c'.before := by
  cases h with
  | edge hall => exact getLast?_flatMap _
  | opening hall => rfl

namespace Pattern

/-- Whether a part may start or end within a quoted text. -/
def isLoose : Part → Bool
  | .specifier | .value => true
  | _ => false

/-- The same part at aligned places, which lie between stretches unless it is loose. -/
structure AlignedPart (all : List Patch) (e e' : Part × Span) : Prop where
  label : e.1 = e'.1
  aligned : AlignedSpan all e.2 e'.2
  edges : isLoose e.1 = false →
    AtEdge all e.2.start e'.2.start ∧ AtEdge all e.2.stop e'.2.stop

/-- The same parts are remembered. -/
def AlignedCaptures (all : List Patch) (caps caps' : Captures Part) : Prop :=
  List.Forall₂ (AlignedPart all) caps caps'

section Agreement

variable (all : List Patch) {β β' : Type} (R : β → β' → Prop)

/-- What follows a pattern in the two texts gives the same between stretches. -/
def AgreeAtEdges (k : Follow Part β) (k' : Follow Part β') : Prop :=
  ∀ ⦃pre ps : List Patch⦄ ⦃caps caps' : Captures Part⦄, all = pre ++ ps →
    AlignedCaptures all caps caps' →
      Option.Rel R (k (place old pre ps) caps) (k' (place new pre ps) caps')

/-- What follows a pattern in the two texts gives the same behind the quotes in front of swapped
texts. -/
def AgreeAtOpenings (k : Follow Part β) (k' : Follow Part β') : Prop :=
  ∀ ⦃pre ps : List Patch⦄ ⦃q : Char⦄ ⦃x y : List Char⦄ ⦃caps caps' : Captures Part⦄,
    all = pre ++ swap q x y :: ps → AlignedCaptures all caps caps' →
      Option.Rel R (k (opened old pre q x ps) caps) (k' (opened new pre q y ps) caps')

end Agreement

variable {all : List Patch} {β β' : Type} {R : β → β' → Prop} {k : Follow Part β}
  {k' : Follow Part β'} {p : Pattern Part}

theorem rel_orElse {a b : Option β} {a' b' : Option β'} (h : Option.Rel R a a')
    (h' : Option.Rel R b b') : Option.Rel R (a.orElse fun _ => b) (a'.orElse fun _ => b') := by
  cases h with
  | some h => exact .some h
  | none => exact h'

/-- What fails within swapped texts gives the same behind the quotes in front of them. -/
theorem agreeAtOpenings_of_fails (hall : ∀ p ∈ all, p.Valid)
    (hk : ∀ q, isQuote q = true → FailsInside q k)
    (hk' : ∀ q, isQuote q = true → FailsInside q k') : AgreeAtOpenings all R k k' := by
  intro pre ps q x y caps caps' h _
  obtain ⟨hq, hx, hy⟩ := hall (swap q x y) (by rw [h]; simp)
  rw [hk q hq _ _ ⟨x, _, rfl, hx.2⟩, hk' q hq _ _ ⟨y, _, rfl, hy.2⟩]
  exact .none

/-! ## Patterns that stay out of swapped texts -/

/-- A pattern and what follows it give the same between stretches if what follows it does. -/
structure Avoids (all : List Patch) (p : Pattern Part) : Prop where
  agree : ∀ {β β' : Type} {R : β → β' → Prop} {k : Follow Part β} {k' : Follow Part β'},
    AgreeAtEdges all R k k' → AgreeAtEdges all R (p.followedBy k) (p.followedBy k')

theorem Avoids.append {q : Pattern Part} (hp : Avoids all p) (hq : Avoids all q) :
    Avoids all (p ++ q) :=
  ⟨fun hk => hp.agree (hq.agree hk)⟩

theorem Avoids.alt {q : Pattern Part} (hp : Avoids all p) (hq : Avoids all q) :
    Avoids all (alt p q) :=
  ⟨fun hk _ _ _ _ h hcaps => rel_orElse (hp.agree hk h hcaps) (hq.agree hk h hcaps)⟩

theorem Avoids.empty : Avoids all (empty : Pattern Part) := ⟨fun hk => hk⟩

/-- A part that starts and ends between stretches is remembered at aligned places. -/
theorem agree_remember {label : Part} {pre ps : List Patch} (h : all = pre ++ ps)
    (hk : AgreeAtEdges all R k k') : AgreeAtEdges all R
      (fun c caps => k c ((label, ⟨(place old pre ps).pos, c.pos⟩) :: caps))
      (fun c caps => k' c ((label, ⟨(place new pre ps).pos, c.pos⟩) :: caps)) :=
  fun pre' ps' _ _ h' hcaps => hk h' (.cons ⟨rfl, ⟨aligned_edge h, aligned_edge h'⟩,
    fun _ => ⟨⟨pre, ps, h, rfl, rfl⟩, pre', ps', h', rfl, rfl⟩⟩ hcaps)

theorem Avoids.capture (hp : Avoids all p) (label : Part) : Avoids all (capture label p) :=
  ⟨fun hk _ _ _ _ h hcaps => hp.agree (agree_remember h hk) h hcaps⟩

/-- A character is taken from the next stretch, if no quote is taken. -/
theorem Avoids.char (hall : ∀ p ∈ all, p.Valid) {test : Char → Bool}
    (htest : ∀ q, isQuote q = true → test q = false) :
    Avoids all (char test : Pattern Part) := by
  refine ⟨fun {β β' R k k'} hk pre ps caps caps' h hcaps => ?_⟩
  cases ps with
  | nil => exact .none
  | cons p ps =>
    cases p with
    | keep c =>
      unfold followedBy
      rw [place_old_cons_keep, place_new_cons_keep, attempt_char_cons, attempt_char_cons,
        ← place_old_keep, ← place_new_keep]
      split
      · exact hk (by rw [h]; simp) hcaps
      · exact .none
    | swap q x y =>
      obtain ⟨hq, -⟩ := hall (swap q x y) (by rw [h]; simp)
      unfold followedBy
      rw [place_old_cons_swap, place_new_cons_swap, attempt_char_cons, attempt_char_cons,
        if_neg (by simp [htest q hq]), if_neg (by simp [htest q hq])]
      exact .none

theorem head?_flatMap (ps : List Patch) :
    (ps.flatMap old).head? = (ps.flatMap new).head? := by
  cases ps with
  | nil => rfl
  | cons p ps => cases p <;> rfl

theorem Avoids.wordEdge : Avoids all (wordEdge : Pattern Part) := by
  refine ⟨fun {β β' R k k'} hk pre ps caps caps' h hcaps => ?_⟩
  have hedge : (place old pre ps).isWordEdge = (place new pre ps).isWordEdge := by
    unfold Cursor.isWordEdge place
    rw [getLast?_flatMap, head?_flatMap]
  show Option.Rel R (if _ then _ else none) (if _ then _ else none)
  rw [hedge]
  split
  · exact hk h hcaps
  · exact .none

theorem Avoids.lineStart : Avoids all (lineStart : Pattern Part) := by
  refine ⟨fun {β β' R k k'} hk pre ps caps caps' h hcaps => ?_⟩
  have hstart : (place old pre ps).isLineStart = (place new pre ps).isLineStart := by
    unfold Cursor.isLineStart place
    rw [getLast?_flatMap]
  show Option.Rel R (if _ then _ else none) (if _ then _ else none)
  rw [hstart]
  split
  · exact hk h hcaps
  · exact .none

theorem Avoids.textEnd : Avoids all (textEnd : Pattern Part) := by
  refine ⟨fun {β β' R k k'} hk pre ps caps caps' h hcaps => ?_⟩
  have hend : (place old pre ps).rest.isEmpty = (place new pre ps).rest.isEmpty := by
    cases ps with
    | nil => rfl
    | cons p ps => cases p <;> rfl
  show Option.Rel R (if _ then _ else none) (if _ then _ else none)
  rw [hend]
  split
  · exact hk h hcaps
  · exact .none

/-- What follows gives the same behind a place if it does so where fewer stretches are left. -/
theorem agree_onwards (hall : ∀ p ∈ all, p.Valid) {pre ps : List Patch} (h : all = pre ++ ps)
    (hk : ∀ pre' ps' caps caps', ps'.length < ps.length → all = pre' ++ ps' →
      AlignedCaptures all caps caps' →
        Option.Rel R (k (place old pre' ps') caps) (k' (place new pre' ps') caps')) :
    AgreeAtEdges all R
      (fun c caps => if (place old pre ps).pos < c.pos then k c caps else none)
      (fun c caps => if (place new pre ps).pos < c.pos then k' c caps else none) := by
  intro pre' ps' caps caps' h' hcaps
  have hlt : (place old pre ps).pos < (place old pre' ps').pos ↔
      (place new pre ps).pos < (place new pre' ps').pos :=
    (aligned_edge h).lt_iff hall (aligned_edge h')
  dsimp only
  by_cases hpos : (place old pre ps).pos < (place old pre' ps').pos
  · rw [if_pos hpos, if_pos (hlt.1 hpos)]
    refine hk pre' ps' caps caps' ?_ h' hcaps
    obtain ⟨p, more, rfl⟩ := exists_append_of_lt h h' hpos
    rw [List.length_cons, List.length_append]
    omega
  · rw [if_neg hpos, if_neg (mt hlt.2 hpos)]
    exact .none

/-- Rounds that stay out of swapped texts do so together. -/
theorem Avoids.many (hall : ∀ p ∈ all, p.Valid) (hp : Avoids all p) (greedy : Bool) :
    Avoids all (many greedy p) := by
  refine ⟨fun {β β' R k k'} hk pre ps => ?_⟩
  -- each round leaves fewer stretches behind it
  induction hlength : ps.length using Nat.strongRecOn generalizing pre ps with
  | ind n ih =>
    intro caps caps' h hcaps
    subst hlength
    have hagain := hp.agree (agree_onwards hall h fun pre' ps' caps caps' hlt =>
      @ih ps'.length hlt pre' ps' rfl caps caps') h hcaps
    unfold followedBy at hagain ⊢
    rw [attempt_many, attempt_many]
    dsimp only
    split
    · exact rel_orElse hagain (hk h hcaps)
    · exact rel_orElse (hk h hcaps) hagain

/-- **A pattern that takes no quote** does the same in both texts. -/
theorem avoids_of_avoidsQuotes (hall : ∀ p ∈ all, p.Valid) (h : p.avoidsQuotes = true) :
    Avoids all p := by
  induction p with
  | empty => exact .empty
  | char test => exact .char hall fun q hq => test_eq_false_of_avoidsQuotes h hq
  | seq p q ihp ihq =>
    simp only [avoidsQuotes, Bool.and_eq_true] at h
    exact (ihp h.1).append (ihq h.2)
  | alt p q ihp ihq =>
    simp only [avoidsQuotes, Bool.and_eq_true] at h
    exact (ihp h.1).alt (ihq h.2)
  | many greedy p ih => exact .many hall (ih h) greedy
  | capture label p ih => exact (ih h).capture label
  | wordEdge => exact .wordEdge
  | lineStart => exact .lineStart
  | textEnd => exact .textEnd

/-! ## Characters and runs that take quotes -/

/-- A character that may be a quote leads between stretches or behind the quote in front of a
swapped text. -/
theorem agree_char (hk : AgreeAtEdges all R k k') (hopen : AgreeAtOpenings all R k k')
    (test : Char → Bool) :
    AgreeAtEdges all R ((char test).followedBy k) ((char test).followedBy k') := by
  intro pre ps caps caps' h hcaps
  cases ps with
  | nil => exact .none
  | cons p ps =>
    cases p with
    | keep c =>
      unfold followedBy
      rw [place_old_cons_keep, place_new_cons_keep, attempt_char_cons, attempt_char_cons,
        ← place_old_keep, ← place_new_keep]
      split
      · exact hk (by rw [h]; simp) hcaps
      · exact .none
    | swap q x y =>
      unfold followedBy
      rw [place_old_cons_swap, place_new_cons_swap, attempt_char_cons, attempt_char_cons]
      split
      · exact hopen h hcaps
      · exact .none

variable {greedy : Bool} {test : Char → Bool} {q : Char}

/-- A run does the same at two places in front of the same character if what follows it does and
the run behind that character does. -/
theorem rel_many_char {b b' : Option Char} {n n' : Nat} {c : Char} {r r' : List Char}
    {caps caps' : Captures Part}
    (hhere : Option.Rel R (k ⟨b, n, c :: r⟩ caps) (k' ⟨b', n', c :: r'⟩ caps'))
    (hmore : test c = true → Option.Rel R
      ((many greedy (char test)).followedBy k ⟨some c, n + c.utf8Size, r⟩ caps)
      ((many greedy (char test)).followedBy k' ⟨some c, n' + c.utf8Size, r'⟩ caps')) :
    Option.Rel R ((many greedy (char test)).followedBy k ⟨b, n, c :: r⟩ caps)
      ((many greedy (char test)).followedBy k' ⟨b', n', c :: r'⟩ caps') := by
  have hagain : Option.Rel R
      (if test c then (many greedy (char test)).followedBy k ⟨some c, n + c.utf8Size, r⟩ caps
        else none)
      (if test c then (many greedy (char test)).followedBy k' ⟨some c, n' + c.utf8Size, r'⟩ caps'
        else none) := by
    split
    · rename_i htest
      exact hmore htest
    · exact .none
  unfold followedBy at hagain ⊢
  rw [attempt_many_char_cons, attempt_many_char_cons]
  dsimp only
  split
  · exact rel_orElse hagain hhere
  · exact rel_orElse hhere hagain

/-- A run that takes plain texts does the same in both texts, if it is not stopped within swapped
texts whose quotes it takes. -/
theorem agree_many_char (hall : ∀ p ∈ all, p.Valid)
    (hplain : ∀ a, isPlain a = true → test a = true) (hk : AgreeAtEdges all R k k')
    (hin : ∀ q, isQuote q = true → test q = true → GoesOver greedy q k ∧ GoesOver greedy q k') :
    AgreeAtEdges all R ((many greedy (char test)).followedBy k)
      ((many greedy (char test)).followedBy k') := by
  intro pre ps caps caps' h hcaps
  induction ps generalizing pre with
  | nil => exact hk h hcaps
  | cons p ps ih =>
    have hmore := @ih (pre ++ [p]) (by rw [h]; simp)
    have hhere := hk h hcaps
    cases p with
    | keep c =>
      rw [place_old_keep, place_new_keep] at hmore
      exact rel_many_char hhere fun _ => hmore
    | swap q x y =>
      obtain ⟨hq, hx, hy⟩ := hall (swap q x y) (by rw [h]; simp)
      rw [place_old_swap, place_new_swap] at hmore
      rw [place_old_cons_swap, place_new_cons_swap] at hhere ⊢
      refine rel_many_char hhere fun htest => ?_
      obtain ⟨hold, hnew⟩ := hin q hq htest
      rwa [many_char_over hplain htest hold hx.2, many_char_over hplain htest hnew hy.2]

/-- A run that takes plain texts and all quotes does the same behind the quotes in front of swapped
texts. -/
theorem agreeAtOpenings_many_char (hall : ∀ p ∈ all, p.Valid)
    (hplain : ∀ a, isPlain a = true → test a = true)
    (hquote : ∀ q, isQuote q = true → test q = true) (hk : AgreeAtEdges all R k k')
    (hin : ∀ q, isQuote q = true → GoesOver greedy q k ∧ GoesOver greedy q k') :
    AgreeAtOpenings all R ((many greedy (char test)).followedBy k)
      ((many greedy (char test)).followedBy k') := by
  intro pre ps q x y caps caps' h hcaps
  obtain ⟨hq, hx, hy⟩ := hall (swap q x y) (by rw [h]; simp)
  unfold opened
  rw [many_char_over hplain (hquote q hq) (hin q hq).1 hx.2,
    many_char_over hplain (hquote q hq) (hin q hq).2 hy.2, ← place_old_swap pre ps q x y,
    ← place_new_swap pre ps q x y]
  exact agree_many_char hall hplain hk (fun q hq _ => hin q hq) (by rw [h]; simp) hcaps

theorem agreeAtOpenings_stop (hall : ∀ p ∈ all, p.Valid)
    (hplain : ∀ a, isPlain a = true → test a = false) (hk : AgreeAtOpenings all R k k') :
    AgreeAtOpenings all R ((many greedy (char test)).followedBy k)
      ((many greedy (char test)).followedBy k') := by
  intro pre ps q x y caps caps' h hcaps
  obtain ⟨-, hx, hy⟩ := hall (swap q x y) (by rw [h]; simp)
  unfold opened
  rw [many_char_stop hplain hx, many_char_stop hplain hy]
  exact hk h hcaps

/-- A run that takes no plain character does the same in both texts, if what follows it does between
stretches and behind the quotes in front of swapped texts. -/
theorem agree_stop (hall : ∀ p ∈ all, p.Valid) (hplain : ∀ a, isPlain a = true → test a = false)
    (hk : AgreeAtEdges all R k k') (hopen : AgreeAtOpenings all R k k') :
    AgreeAtEdges all R ((many greedy (char test)).followedBy k)
      ((many greedy (char test)).followedBy k') := by
  intro pre ps caps caps' h hcaps
  induction ps generalizing pre with
  | nil => exact hk h hcaps
  | cons p ps ih =>
    have hhere := hk h hcaps
    cases p with
    | keep c =>
      have hmore := @ih (pre ++ [keep c]) (by rw [h]; simp)
      rw [place_old_keep, place_new_keep] at hmore
      exact rel_many_char hhere fun _ => hmore
    | swap q x y =>
      rw [place_old_cons_swap, place_new_cons_swap] at hhere ⊢
      exact rel_many_char hhere fun _ => agreeAtOpenings_stop hall hplain hopen h hcaps

/-! ## Patterns that go over swapped texts -/

/-- A pattern and what follows it give the same between stretches if what follows it does, and fails
within swapped texts. -/
structure Crosses (all : List Patch) (p : Pattern Part) : Prop where
  agree : ∀ {β β' : Type} {R : β → β' → Prop} {k : Follow Part β} {k' : Follow Part β'},
    AgreeAtEdges all R k k' → (∀ q, isQuote q = true → FailsInside q k) →
      (∀ q, isQuote q = true → FailsInside q k') →
        AgreeAtEdges all R (p.followedBy k) (p.followedBy k')

/-- A pattern and what follows it give the same between stretches if what follows it does, also
behind the quotes in front of swapped texts, and succeeds everywhere. -/
structure Completes (all : List Patch) (p : Pattern Part) : Prop where
  agree : ∀ {β β' : Type} {R : β → β' → Prop} {k : Follow Part β} {k' : Follow Part β'},
    AgreeAtEdges all R k k' → AgreeAtOpenings all R k k' → Succeeds k → Succeeds k' →
      AgreeAtEdges all R (p.followedBy k) (p.followedBy k')

variable {p' : Pattern Part}

theorem Crosses.many_char (hall : ∀ p ∈ all, p.Valid)
    (hplain : ∀ a, isPlain a = true → test a = true) (greedy : Bool) :
    Crosses all (many greedy (char test) : Pattern Part) :=
  ⟨fun hk hin hin' => agree_many_char hall hplain hk fun q hq _ =>
    ⟨.inl (hin q hq), .inl (hin' q hq)⟩⟩

/-- At least one character, and then a run. -/
theorem Crosses.char_many_char (hall : ∀ p ∈ all, p.Valid)
    (hplain : ∀ a, isPlain a = true → test a = true)
    (hquote : ∀ q, isQuote q = true → test q = true) (greedy : Bool) :
    Crosses all (char test ++ many greedy (char test) : Pattern Part) := by
  refine ⟨fun hk hin hin' => ?_⟩
  have hover : ∀ q, isQuote q = true → GoesOver greedy q _ ∧ GoesOver greedy q _ := fun q hq =>
    ⟨.inl (hin q hq), .inl (hin' q hq)⟩
  exact agree_char (agree_many_char hall hplain hk fun q hq _ => hover q hq)
    (agreeAtOpenings_many_char hall hplain hquote hk hover) test

theorem Crosses.capture (hp : Crosses all p) (label : Part) : Crosses all (capture label p) :=
  ⟨fun hk hin hin' _ _ _ _ h hcaps => hp.agree (agree_remember h hk)
    (fun q hq c _ hc => hin q hq c _ hc) (fun q hq c _ hc => hin' q hq c _ hc) h hcaps⟩

/-- What goes over swapped texts stays out of them if what follows fails in them. -/
theorem Crosses.append (hp : Crosses all p) (hp' : Avoids all p') (hbalks : Balks p') :
    Avoids all (p ++ p') :=
  ⟨fun hk => hp.agree (hp'.agree hk) (fun _ hq => hbalks.fails _ hq)
    fun _ hq => hbalks.fails _ hq⟩

theorem Avoids.completes (hp : Avoids all p) : Completes all p := ⟨fun hk _ _ _ => hp.agree hk⟩

theorem Completes.behind (hp' : Completes all p') (hp : Avoids all p) : Completes all (p ++ p') :=
  ⟨fun hk hopen hsome hsome' => hp.agree (hp'.agree hk hopen hsome hsome')⟩

theorem Completes.alt (hp : Completes all p) (hp' : Completes all p') :
    Completes all (alt p p') :=
  ⟨fun hk hopen hsome hsome' _ _ _ _ h hcaps => rel_orElse
    (hp.agree hk hopen hsome hsome' h hcaps) (hp'.agree hk hopen hsome hsome' h hcaps)⟩

theorem Completes.char (test : Char → Bool) : Completes all (char test : Pattern Part) :=
  ⟨fun hk hopen _ _ => agree_char hk hopen test⟩

theorem Completes.run (hall : ∀ p ∈ all, p.Valid)
    (hplain : ∀ a, isPlain a = true → test a = true) : Completes all (run test : Pattern Part) :=
  ⟨fun hk _ hsome hsome' => agree_many_char hall hplain hk fun _ _ _ =>
    ⟨.inr ⟨rfl, hsome⟩, .inr ⟨rfl, hsome'⟩⟩⟩

theorem Completes.capture (hp : Completes all p) {label : Part} (hloose : isLoose label = true) :
    Completes all (capture label p) := by
  refine ⟨fun hk hopen hsome hsome' _ _ _ _ h hcaps => hp.agree (agree_remember h hk)
    (fun _ _ _ _ _ _ _ h' hcaps => hopen h' (.cons ⟨rfl, ⟨aligned_edge h, aligned_opening h'⟩,
      fun htight => ?_⟩ hcaps))
    (fun c _ => hsome c _) (fun c _ => hsome' c _) h hcaps⟩
  rw [hloose] at htight
  cases htight

/-! ## Selections -/

/-- Matches at places that belong together, with the same parts. -/
structure AlignedMatch (all : List Patch) (m m' : Match Part) : Prop where
  front : Abreast all m.front m'.front
  back : Abreast all m.back m'.back
  captures : AlignedCaptures all m.captures m'.captures

/-- A pattern has corresponding matches in the two texts. -/
structure Corresponds (all : List Patch) (p : Pattern Part) (accept : Match Part → Bool) :
    Prop where
  edges : ∀ pre ps, all = pre ++ ps → Option.Rel (AlignedMatch all)
    (p.matchAt? (place old pre ps)) (p.matchAt? (place new pre ps))
  accepts : ∀ m m', AlignedMatch all m m' → accept m = accept m'
  inside : ∀ q c, isQuote q = true → Inside q c → (∃ a, c.before = some a ∧
    (isQuote a = true ∨ isPlain a = true)) → (p.matchAt? c).filter accept = none

variable {accept : Match Part → Bool}

theorem Completes.matchAt? (hp : Completes all p) {pre ps : List Patch} (h : all = pre ++ ps) :
    Option.Rel (AlignedMatch all) (p.matchAt? (place old pre ps))
      (p.matchAt? (place new pre ps)) := by
  have hedges : AgreeAtEdges all (AlignedMatch all)
      (fun back captures => some (⟨place old pre ps, back, captures⟩ : Match Part))
      (fun back captures => some (⟨place new pre ps, back, captures⟩ : Match Part)) :=
    fun _ _ _ _ h' hcaps => .some ⟨.edge h, .edge h', hcaps⟩
  have hopenings : AgreeAtOpenings all (AlignedMatch all)
      (fun back captures => some (⟨place old pre ps, back, captures⟩ : Match Part))
      (fun back captures => some (⟨place new pre ps, back, captures⟩ : Match Part)) :=
    fun _ _ _ _ _ _ _ h' hcaps => .some ⟨.edge h, .opening h', hcaps⟩
  exact hp.agree hedges hopenings (fun _ _ => rfl) (fun _ _ => rfl) h .nil

/-- A pattern that does the same in both texts and fails within swapped texts has corresponding
matches. -/
theorem Completes.corresponds (hp : Completes all p) (hbalks : Balks p) :
    Corresponds all p fun _ => true where
  edges _ _ h := hp.matchAt? h
  accepts _ _ _ := rfl
  inside q c hq hc _ := by
    let k : Follow Part (Match Part) := fun back captures => some ⟨c, back, captures⟩
    have hnone : p.matchAt? c = none := hbalks.fails k hq c [] hc
    rw [hnone]
    rfl

/-- Behind the next character are places that belong together. -/
theorem next?_abreast {pre ps : List Patch} (h : all = pre ++ ps) :
    Option.Rel (fun c c' => Abreast all c c' ∧ (place old pre ps).pos < c.pos)
      (place old pre ps).next? (place new pre ps).next? := by
  cases ps with
  | nil => exact .none
  | cons p ps =>
    cases p with
    | keep c =>
      rw [place_old_cons_keep, place_new_cons_keep]
      refine .some ⟨?_, Nat.lt_add_of_pos_right c.utf8Size_pos⟩
      rw [← place_old_keep, ← place_new_keep]
      exact .edge (by rw [h]; simp)
    | swap q x y =>
      rw [place_old_cons_swap, place_new_cons_swap]
      exact .some ⟨.opening h, Nat.lt_add_of_pos_right q.utf8Size_pos⟩

/-- No accepted match starts within a swapped text. -/
theorem Corresponds.selectFrom_over (hp : Corresponds all p accept) (hq : isQuote q = true)
    {v : List Char} (hv : Text.Inert v) {a : Char} (ha : isQuote a = true ∨ isPlain a = true)
    (pos : Nat) (r : List Char) {n : Nat} (hn : (v ++ q :: r).length < n) :
    p.selectFrom accept n ⟨some a, pos, v ++ q :: r⟩ =
      p.selectFrom accept n ⟨some q, pos + Text.byteLength v + q.utf8Size, r⟩ := by
  have hnone : (p.matchAt? ⟨some a, pos, v ++ q :: r⟩).filter accept = none :=
    hp.inside q _ hq ⟨v, r, rfl, hv⟩ ⟨a, rfl, ha⟩
  rw [selectFrom_eq hn, hnone]
  induction v generalizing a pos with
  | nil =>
    rw [Text.byteLength_nil, Nat.add_zero]
    rfl
  | cons b v ih =>
    have hb : isPlain b = true := hv.1 b List.mem_cons_self
    have hv' := hv.of_suffix (List.suffix_cons b v)
    have hn' : (v ++ q :: r).length < n := by
      rw [List.cons_append, List.length_cons] at hn
      omega
    have hnone' : (p.matchAt? ⟨some b, pos + b.utf8Size, v ++ q :: r⟩).filter accept = none :=
      hp.inside q _ hq ⟨v, r, rfl, hv'⟩ ⟨b, rfl, .inr hb⟩
    show p.selectFrom accept n ⟨some b, pos + b.utf8Size, v ++ q :: r⟩ = _
    rw [selectFrom_eq hn', hnone', Text.byteLength_cons, ← Nat.add_assoc pos]
    exact ih hv' (.inr hb) (pos + b.utf8Size) hn' hnone'

/-- Selections from places that belong together select corresponding matches. -/
theorem Corresponds.selectFrom (hall : ∀ p ∈ all, p.Valid) (hp : Corresponds all p accept)
    {n n' : Nat} {pre ps : List Patch} (h : all = pre ++ ps)
    (hn : (ps.flatMap old).length < n) (hn' : (ps.flatMap new).length < n') :
    List.Forall₂ (AlignedMatch all) (p.selectFrom accept n (place old pre ps))
      (p.selectFrom accept n' (place new pre ps)) := by
  induction hlength : ps.length using Nat.strongRecOn generalizing pre ps with
  | ind size ih =>
    subst hlength
    have hedge : ∀ {pre' ps'}, all = pre' ++ ps' →
        Text.byteLength (pre.flatMap old) < Text.byteLength (pre'.flatMap old) →
        List.Forall₂ (AlignedMatch all) (p.selectFrom accept n (place old pre' ps'))
          (p.selectFrom accept n' (place new pre' ps')) := by
      intro pre' ps' h' hlt
      obtain ⟨p, more, rfl⟩ := exists_append_of_lt h h' hlt
      simp only [List.flatMap_cons, List.flatMap_append, List.length_append] at hn hn'
      refine ih ps'.length ?_ h' (by omega) (by omega) rfl
      rw [List.length_cons, List.length_append]
      omega
    have hbehind : ∀ {c c'}, Abreast all c c' → (place old pre ps).pos < c.pos →
        List.Forall₂ (AlignedMatch all) (p.selectFrom accept n c) (p.selectFrom accept n' c') := by
      intro c c' hc hlt
      cases hc with
      | edge h' => exact hedge h' hlt
      | @opening pre' ps' q x y h' =>
        obtain ⟨hq, hx, hy⟩ := hall (swap q x y) (by rw [h']; simp)
        have hlt' : Text.byteLength (pre.flatMap old) <
            Text.byteLength ((pre' ++ [swap q x y]).flatMap old) := by
          have hpos : Text.byteLength (pre.flatMap old) <
            Text.byteLength (pre'.flatMap old) + q.utf8Size := hlt
          simp only [List.flatMap_append, List.flatMap_cons, List.flatMap_nil, List.append_nil, old,
            Text.byteLength_append, Text.byteLength_cons]
          omega
        have hswap : all = (pre' ++ [swap q x y]) ++ ps' := by rw [h']; simp
        have hmore := hedge hswap hlt'
        rw [place_old_swap, place_new_swap] at hmore
        obtain ⟨front, rfl⟩ := exists_append_swap h hswap hlt'
        simp only [List.flatMap_cons, List.flatMap_append, List.flatMap_nil, List.append_nil, old,
          new, List.length_append, List.length_cons] at hn hn'
        unfold opened
        rw [hp.selectFrom_over hq hx.2 (.inl hq), hp.selectFrom_over hq hy.2 (.inl hq)]
        · exact hmore
        · rw [List.length_append, List.length_cons]
          omega
        · rw [List.length_append, List.length_cons]
          omega
    have hnext : List.Forall₂ (AlignedMatch all)
        (((place old pre ps).next?.map (p.selectFrom accept n)).getD [])
        (((place new pre ps).next?.map (p.selectFrom accept n')).getD []) := by
      generalize hc : (place old pre ps).next? = c?
      generalize hc' : (place new pre ps).next? = c'?
      have hrel := next?_abreast h
      rw [hc, hc'] at hrel
      cases hrel with
      | none => exact .nil
      | some hstep => exact hbehind hstep.1 hstep.2
    have hmatch := hp.edges pre ps h
    rw [selectFrom_eq hn, selectFrom_eq hn']
    cases hm : p.matchAt? (place old pre ps) with
    | none =>
      rw [hm] at hmatch
      generalize p.matchAt? (place new pre ps) = m'? at hmatch ⊢
      cases hmatch
      exact hnext
    | some m =>
      cases hm' : p.matchAt? (place new pre ps) with
      | none =>
        rw [hm, hm'] at hmatch
        cases hmatch
      | some m' =>
        rw [hm, hm'] at hmatch
        cases hmatch with
        | some haligned =>
          have hfront := front_of_matchAt? hm
          have hfront' := front_of_matchAt? hm'
          have hforward := haligned.front.aligned.lt_iff hall haligned.back.aligned
          have haccepts := hp.accepts m m' haligned
          by_cases haccept : accept m' = true
          · have hkept : (some m).filter accept = some m := by
              simp [Option.filter, haccepts, haccept]
            have hkept' : (some m').filter accept = some m' := by simp [Option.filter, haccept]
            rw [hkept, hkept']
            refine .cons haligned ?_
            unfold Match.resume?
            by_cases hlt : m.front.pos < m.back.pos
            · rw [if_pos hlt, if_pos (hforward.1 hlt)]
              exact hbehind haligned.back (hfront ▸ hlt)
            · rw [if_neg hlt, if_neg (mt hforward.2 hlt), hfront, hfront']
              exact hnext
          · have hleft : (some m).filter accept = none := by simp [Option.filter, haccepts, haccept]
            have hleft' : (some m').filter accept = none := by simp [Option.filter, haccept]
            rw [hleft, hleft']
            exact hnext

/-- **A selection** selects corresponding matches in the two texts. -/
theorem Corresponds.select (hall : ∀ p ∈ all, p.Valid) (hp : Corresponds all p accept) :
    List.Forall₂ (AlignedMatch all) (p.select accept (all.flatMap old))
      (p.select accept (all.flatMap new)) := by
  have h : all = [] ++ all := rfl
  exact hp.selectFrom hall h (Nat.lt_succ_self _) (Nat.lt_succ_self _)

end Pattern

end EsModules
