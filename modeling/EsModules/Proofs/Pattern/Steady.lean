import EsModules.Proofs.Pattern.Forward

/-!
# Which attempts succeed

An attempt tries every match of its pattern, so it succeeds exactly if what follows does behind one
of them.  What follows the parts of a shape asks for the place only and never for what was
remembered.  In front of such a continuation a greedy run gives nothing back as long as what
follows it succeeds one character further on, so it is known where the run ends.

* `Pattern.isSome_attempt_iff`: when an attempt succeeds.
* `Pattern.Steady`: continuations whose success depends on the place alone.
* `Pattern.Matches.exists_text`, `Pattern.Matches.of_literal`: what runs and literals take;
  `Pattern.matches_many_char`, `Pattern.matches_literal`: what they match.
* `Pattern.attempt_shortRun_char`, `Pattern.exists_of_attempt_run`: short runs, and runs that give
  nothing back.
* `Pattern.forgets`: patterns that remember nothing under a label.
* `Pattern.matchAt?_of_select`: what is selected is the preferred match at its front.
-/

namespace EsModules

namespace Pattern

variable {Label β : Type} {p q : Pattern Label} {c c' : Cursor} {caps caps' : Captures Label}
  {k : Follow Label β}

/-! ## Success -/

/-- An attempt succeeds if what follows does behind some match. -/
theorem isSome_attempt_of_matches (h : Matches p c caps c' caps')
    (hk : (k c' caps').isSome = true) : (p.attempt c caps k).isSome = true := by
  induction h generalizing k with
  | empty => exact hk
  | char htest =>
    rw [attempt_char_cons, if_pos htest]
    exact hk
  | seq _ _ ih ih' => exact ih (ih' hk)
  | altFirst _ ih =>
    rw [attempt, Option.orElse_eq_or, Option.isSome_or, ih hk, Bool.true_or]
  | altSecond _ ih =>
    rw [attempt, Option.orElse_eq_or, Option.isSome_or, ih hk, Bool.or_true]
  | @manyDone greedy p c caps =>
    rw [attempt_many]
    cases greedy <;> simp [Option.orElse_eq_or, hk]
  | @manyMore greedy p c caps c' caps' c'' caps'' hlt _ _ ih ih' =>
    have hagain : (p.attempt c caps fun c' caps' =>
        if c.pos < c'.pos then (many greedy p).attempt c' caps' k else none).isSome = true := by
      apply ih
      rw [if_pos hlt]
      exact ih' hk
    rw [attempt_many]
    cases greedy <;> simp [Option.orElse_eq_or, hagain]
  | capture _ ih => exact ih hk
  | wordEdge hedge =>
    rw [attempt, if_pos hedge]
    exact hk
  | lineStart hstart =>
    rw [attempt, if_pos hstart]
    exact hk
  | textEnd hend =>
    rw [attempt, if_pos (List.isEmpty_iff.2 hend)]
    exact hk

/-- An attempt succeeds exactly if what follows does behind some match. -/
theorem isSome_attempt_iff : (p.attempt c caps k).isSome = true ↔
    ∃ c' caps', Matches p c caps c' caps' ∧ (k c' caps').isSome = true := by
  constructor
  · intro h
    obtain ⟨b, hb⟩ := Option.isSome_iff_exists.1 h
    obtain ⟨c', caps', hmatch, hk⟩ := exists_matches_of_attempt hb
    exact ⟨c', caps', hmatch, by rw [hk]; rfl⟩
  · rintro ⟨c', caps', hmatch, hk⟩
    exact isSome_attempt_of_matches hmatch hk

/-! ## Steady continuations -/

/-- What was remembered before has no part in what a pattern matches. -/
theorem Matches.exists_of_captures (h : Matches p c caps c' caps') (other : Captures Label) :
    ∃ other', Matches p c other c' other' := by
  induction h generalizing other with
  | empty => exact ⟨other, .empty⟩
  | char htest => exact ⟨other, .char htest⟩
  | seq _ _ ih ih' =>
    obtain ⟨other', hp⟩ := ih other
    obtain ⟨other'', hq⟩ := ih' other'
    exact ⟨other'', .seq hp hq⟩
  | altFirst _ ih =>
    obtain ⟨other', hp⟩ := ih other
    exact ⟨other', .altFirst hp⟩
  | altSecond _ ih =>
    obtain ⟨other', hq⟩ := ih other
    exact ⟨other', .altSecond hq⟩
  | manyDone => exact ⟨other, .manyDone⟩
  | manyMore hlt _ _ ih ih' =>
    obtain ⟨other', hp⟩ := ih other
    obtain ⟨other'', hmany⟩ := ih' other'
    exact ⟨other'', .manyMore hlt hp hmany⟩
  | capture _ ih =>
    obtain ⟨other', hp⟩ := ih other
    exact ⟨_, .capture hp⟩
  | wordEdge hedge => exact ⟨other, .wordEdge hedge⟩
  | lineStart hstart => exact ⟨other, .lineStart hstart⟩
  | textEnd hend => exact ⟨other, .textEnd hend⟩

/-- Whether a continuation succeeds depends on the place alone. -/
def Steady (k : Follow Label β) : Prop :=
  ∀ c caps other, (k c caps).isSome = true → (k c other).isSome = true

/-- A pattern in front of a steady continuation makes one. -/
theorem Steady.followedBy (hk : Steady k) (p : Pattern Label) : Steady (p.followedBy k) := by
  intro c caps other h
  obtain ⟨c', caps', hmatch, hsome⟩ := isSome_attempt_iff.1 h
  obtain ⟨other', hmatch'⟩ := hmatch.exists_of_captures other
  exact isSome_attempt_of_matches hmatch' (hk c' caps' other' hsome)

/-! ## Runs -/

variable {test : Char → Bool} {greedy : Bool}

/-- A repetition of a character takes characters that satisfy its test and remembers nothing. -/
theorem Matches.exists_text (h : Matches (.many greedy (.char test)) c caps c' caps') :
    ∃ text, (∀ a ∈ text, test a = true) ∧ c.rest = text ++ c'.rest ∧
      c' = .past c.before c.pos text c'.rest ∧ caps' = caps := by
  generalize hp : Pattern.many greedy (.char test) = p at h
  induction h with
  | manyDone => exact ⟨[], fun a ha => absurd ha List.not_mem_nil, rfl, rfl, rfl⟩
  | manyMore _ hround _ _ ih' =>
    obtain ⟨rfl, rfl⟩ := Pattern.many.inj hp
    obtain ⟨text, htext, hrest, hend, hcaps⟩ := ih' rfl
    cases hround with
    | @char _ before pos a rest caps ha =>
      refine ⟨a :: text, List.forall_mem_cons.2 ⟨ha, htext⟩, ?_, ?_, hcaps⟩
      · simpa using hrest
      · rw [Cursor.past_cons]
        exact hend
  | _ => cases hp

/-- A literal takes its text and remembers nothing. -/
theorem Matches.of_literal {text : List Char} (h : Matches (literal text) c caps c' caps') :
    c.rest = text ++ c'.rest ∧ c' = .past c.before c.pos text c'.rest ∧ caps' = caps := by
  induction text generalizing c caps with
  | nil =>
    cases h
    exact ⟨rfl, rfl, rfl⟩
  | cons a text ih =>
    cases h with
    | seq hchar htext =>
      cases hchar with
      | char ha =>
        obtain rfl := eq_of_beq ha
        obtain ⟨hrest, hend, hcaps⟩ := ih htext
        refine ⟨congrArg _ hrest, ?_, hcaps⟩
        rw [Cursor.past_cons]
        exact hend

/-- A literal matches its text. -/
theorem matches_literal (before : Option Char) (pos : Nat) (text rest : List Char)
    (caps : Captures Label) : Matches (literal text) ⟨before, pos, text ++ rest⟩ caps
      (.past before pos text rest) caps := by
  induction text generalizing before pos with
  | nil => exact .empty
  | cons a text ih =>
    rw [Cursor.past_cons]
    exact .seq (.char (beq_self_eq_true a)) (ih _ _)

/-- One of several patterns matches if some of them does. -/
theorem matches_oneOf_iff {ps : List (Pattern Label)} :
    Matches (oneOf ps) c caps c' caps' ↔ ∃ p ∈ ps, Matches p c caps c' caps' := by
  induction ps with
  | nil =>
    constructor
    · intro h
      cases h with
      | char hnever => cases hnever
    · rintro ⟨p, hp, -⟩
      cases hp
  | cons p ps ih =>
    cases ps with
    | nil => simp [oneOf]
    | cons q qs =>
      constructor
      · intro h
        cases h with
        | altFirst h => exact ⟨p, List.mem_cons_self, h⟩
        | altSecond h =>
          obtain ⟨r, hr, h⟩ := ih.1 h
          exact ⟨r, List.mem_cons_of_mem p hr, h⟩
      · rintro ⟨r, hr, h⟩
        rcases List.mem_cons.1 hr with rfl | hr
        · exact .altFirst h
        · exact .altSecond (ih.2 ⟨r, hr, h⟩)

theorem matches_oneWord_iff {words : List String} : Matches (oneWord words) c caps c' caps' ↔
    ∃ w ∈ words, Matches (literal w.toList) c caps c' caps' := by
  unfold oneWord
  simp only [matches_oneOf_iff, List.mem_map, exists_exists_and_eq_and]
  rfl

/-- A repetition of a character matches every text that satisfies its test. -/
theorem matches_many_char (greedy : Bool) {text : List Char} (htext : ∀ a ∈ text, test a = true)
    (before : Option Char) (pos : Nat) (rest : List Char) (caps : Captures Label) :
    Matches (.many greedy (.char test)) ⟨before, pos, text ++ rest⟩ caps
      (.past before pos text rest) caps := by
  induction text generalizing before pos with
  | nil => exact .manyDone
  | cons a text ih =>
    obtain ⟨ha, htext⟩ := List.forall_mem_cons.1 htext
    rw [Cursor.past_cons]
    exact .manyMore (Nat.lt_add_of_pos_right a.utf8Size_pos) (.char ha) (ih htext _ _)

/-- A short run goes up to the first occurrence of the character that is asked for behind it. -/
theorem attempt_shortRun_char {before : Option Char} {pos : Nat} {text rest : List Char} {d : Char}
    (htext : ∀ a ∈ text, test a = true) (hd : d ∉ text)
    (hk : (k (.past before pos (text ++ [d]) rest) caps).isSome = true) :
    (shortRun test).attempt ⟨before, pos, text ++ d :: rest⟩ caps
      ((char (· == d) : Pattern Label).followedBy k) =
        k (.past before pos (text ++ [d]) rest) caps := by
  induction text generalizing before pos with
  | nil =>
    have hhere : (char (· == d) : Pattern Label).followedBy k ⟨before, pos, d :: rest⟩ caps =
        k (.past before pos [d] rest) caps := if_pos (by simp)
    unfold shortRun
    rw [List.nil_append, attempt_many_char_cons, hhere]
    exact orElse_eq_left (.inr hk)
  | cons a text ih =>
    obtain ⟨ha, htext⟩ := List.forall_mem_cons.1 htext
    rw [List.mem_cons, not_or] at hd
    have hhere : (char (· == d) : Pattern Label).followedBy k
        ⟨before, pos, a :: (text ++ d :: rest)⟩ caps = none :=
      attempt_char_neg (by exact beq_false_of_ne (Ne.symm hd.1)) _
    have hmore := @ih (some a) (pos + a.utf8Size) htext hd.2 (by rwa [← Cursor.past_cons])
    unfold shortRun at hmore ⊢
    rw [List.cons_append, List.cons_append, Cursor.past_cons, attempt_many_char_cons, hhere,
      if_pos ha, hmore]
    rfl

/-- A short run fails if the character that is asked for behind it does not occur. -/
theorem attempt_shortRun_none {before : Option Char} {pos : Nat} {text : List Char} {d : Char}
    (hd : d ∉ text) : (shortRun test).attempt ⟨before, pos, text⟩ caps
      ((char (· == d) : Pattern Label).followedBy k) = none := by
  refine attempt_eq_none fun c' caps' hmatch => ?_
  obtain ⟨w, -, hrest, -, -⟩ := hmatch.exists_text
  obtain ⟨before', pos', rest'⟩ := c'
  obtain rfl : text = w ++ rest' := hrest
  cases rest' with
  | nil => rfl
  | cons a rest =>
    refine attempt_char_neg ?_ rest
    refine beq_false_of_ne ?_
    rintro rfl
    exact hd (by simp)

/-- A run takes all that it can if what follows it, wherever it succeeds, succeeds one character
further on too. -/
theorem exists_of_attempt_run {before : Option Char} {pos : Nat} {text : List Char} {b : β}
    (hfurther : ∀ before pos a rest, test a = true →
      (k ⟨before, pos, a :: rest⟩ caps).isSome = true →
        (k ⟨some a, pos + a.utf8Size, rest⟩ caps).isSome = true)
    (h : (run test).attempt ⟨before, pos, text⟩ caps k = some b) :
    ∃ lead rest, text = lead ++ rest ∧ (∀ a ∈ lead, test a = true) ∧
      (∀ a ∈ rest.head?, test a = false) ∧ k (.past before pos lead rest) caps = some b := by
  induction text generalizing before pos with
  | nil =>
    rw [attempt_run_nil] at h
    exact ⟨[], [], rfl, fun a ha => absurd ha List.not_mem_nil, fun a ha => (by cases ha), h⟩
  | cons a text ih =>
    rw [attempt_run_cons] at h
    cases ha : test a with
    | false =>
      rw [ha] at h
      refine ⟨[], a :: text, rfl, fun a ha => absurd ha List.not_mem_nil, ?_, h⟩
      intro a' ha'
      obtain rfl := Option.some.inj ha'
      exact ha
    | true =>
      rw [if_pos ha] at h
      rcases Option.or_eq_some_iff.1 h with honwards | ⟨hnone, hhere⟩
      · obtain ⟨lead, rest, rfl, hlead, hrest, hk⟩ := ih honwards
        refine ⟨a :: lead, rest, rfl, List.forall_mem_cons.2 ⟨ha, hlead⟩, hrest, ?_⟩
        rw [Cursor.past_cons]
        exact hk
      · -- what succeeds here succeeds one character further on, where the run could have ended
        have hnext := hfurther before pos a text ha (by rw [hhere]; rfl)
        have hsome : ((run test).attempt ⟨some a, pos + a.utf8Size, text⟩ caps k).isSome = true :=
          isSome_attempt_of_matches .manyDone hnext
        rw [hnone] at hsome
        cases hsome

/-! ## Patterns that remember nothing under a label -/

section Labels

variable [DecidableEq Label] {label : Label}

/-- Whether a pattern remembers nothing under a label. -/
def forgets (label : Label) : Pattern Label → Bool
  | seq p q | alt p q => p.forgets label && q.forgets label
  | many _ p => p.forgets label
  | capture l p => l != label && p.forgets label
  | empty | char _ | wordEdge | lineStart | textEnd => true

/-- What is remembered under a label behind a pattern that forgets it was so in front of it. -/
theorem Matches.mem_of_forgets (h : Matches p c caps c' caps') (hp : p.forgets label = true)
    {s : Span} (hs : (label, s) ∈ caps') : (label, s) ∈ caps := by
  induction h with
  | empty | char | manyDone | wordEdge | lineStart | textEnd => exact hs
  | seq _ _ ih ih' =>
    simp only [forgets, Bool.and_eq_true] at hp
    exact ih hp.1 (ih' hp.2 hs)
  | altFirst _ ih =>
    simp only [forgets, Bool.and_eq_true] at hp
    exact ih hp.1 hs
  | altSecond _ ih =>
    simp only [forgets, Bool.and_eq_true] at hp
    exact ih hp.2 hs
  | manyMore _ _ _ ih ih' => exact ih hp (ih' hp hs)
  | capture _ ih =>
    simp only [forgets, Bool.and_eq_true, bne_iff_ne] at hp
    rcases List.mem_cons.1 hs with heq | hs
    · exact absurd (congrArg Prod.fst heq).symm hp.1
    · exact ih hp.2 hs

/-- Behind a pattern that forgets a label the same is remembered under it as in front. -/
theorem Matches.find?_of_forgets (h : Matches p c caps c' caps') (hp : p.forgets label = true) :
    (caps'.find? fun entry => entry.1 = label) = caps.find? fun entry => entry.1 = label := by
  induction h with
  | empty | char | manyDone | wordEdge | lineStart | textEnd => rfl
  | seq _ _ ih ih' =>
    simp only [forgets, Bool.and_eq_true] at hp
    rw [ih' hp.2, ih hp.1]
  | altFirst _ ih =>
    simp only [forgets, Bool.and_eq_true] at hp
    exact ih hp.1
  | altSecond _ ih =>
    simp only [forgets, Bool.and_eq_true] at hp
    exact ih hp.2
  | manyMore _ _ _ ih ih' => rw [ih' hp, ih hp]
  | capture _ ih =>
    simp only [forgets, Bool.and_eq_true, bne_iff_ne] at hp
    rw [List.find?_cons_of_neg (by simpa using hp.1), ih hp.2]

end Labels

/-! ## Selections -/

theorem matchAt?_of_find? {before : Option Char} {pos : Nat} {rest : List Char} {m : Match Label}
    (h : p.find? before pos rest = some m) : p.matchAt? m.front = some m := by
  induction rest generalizing before pos with
  | nil =>
    have hfront := front_of_matchAt? h
    rwa [hfront]
  | cons a rest ih =>
    unfold find? at h
    rcases Option.or_eq_some_iff.1 (Option.orElse_eq_or ▸ h) with h | ⟨-, h⟩
    · have hfront := front_of_matchAt? h
      rwa [hfront]
    · exact ih h

/-- What a search selects is the match that is preferred where it starts. -/
theorem matchAt?_of_selectFrom {accept : Match Label → Bool} {n : Nat} :
    ∀ m ∈ p.selectFrom accept n c, p.matchAt? m.front = some m := by
  induction n generalizing c with
  | zero =>
    intro m hm
    cases hm
  | succ n ih =>
    intro m hm
    unfold selectFrom at hm
    split at hm
    · cases hm
    · rename_i found hfind
      dsimp only at hm
      split at hm
      · rcases List.mem_cons.1 hm with rfl | hm
        · exact matchAt?_of_find? hfind
        · split at hm
          · exact ih m hm
          · cases hm
      · split at hm
        · exact ih m hm
        · cases hm

theorem matchAt?_of_select {accept : Match Label → Bool} {source : List Char} :
    ∀ m ∈ p.select accept source, p.matchAt? m.front = some m :=
  matchAt?_of_selectFrom

end Pattern

end EsModules
