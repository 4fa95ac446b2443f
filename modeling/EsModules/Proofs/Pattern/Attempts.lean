import EsModules.Proofs.Pattern.Matches

/-!
# How attempts and searches go

An attempt asks what follows a pattern at the ends of the pattern's matches only.  So the bound on
the rounds of a repetition is never met, and a repetition is one round and then the repetition
again.  Neither is the bound on the searches of a selection: it goes through the places of a text
one by one, and behind an accepted match it goes on where the match ends.

* `Pattern.Matches.taken`: what a match takes from the text.
* `Pattern.attempt_congr`, `Pattern.attempt_eq_none`: attempts depend on what follows matches.
* `Pattern.attempt_many`: a repetition is a round and the repetition behind it, or nothing.
* `Pattern.attempt_many_char_cons`: runs go character by character.
* `Pattern.selectFrom_eq`: a selection goes place by place.
* `Pattern.matchesIn_of_matchAt?`: a match at the front of a text is the first.
-/

namespace EsModules

namespace Pattern

variable {Label β : Type} {p : Pattern Label} {c c' : Cursor} {caps caps' : Captures Label}
  {k k' : Cursor → Captures Label → Option β}

/-! ## What a match takes -/

/-- A match takes a text from the front of what lies behind its first place. -/
theorem Matches.taken (h : Matches p c caps c' caps') :
    ∃ text, c.rest = text ++ c'.rest ∧ c'.pos = c.pos + Text.byteLength text := by
  induction h with
  | empty | manyDone | wordEdge | lineStart | textEnd => exact ⟨[], rfl, rfl⟩
  | @char test before pos a rest caps => exact ⟨[a], rfl, rfl⟩
  | altFirst _ ih | altSecond _ ih | capture _ ih => exact ih
  | seq _ _ ih ih' | manyMore _ _ _ ih ih' =>
    obtain ⟨text, hrest, hpos⟩ := ih
    obtain ⟨text', hrest', hpos'⟩ := ih'
    refine ⟨text ++ text', ?_, ?_⟩
    · rw [hrest, hrest', List.append_assoc]
    · rw [hpos', hpos, Text.byteLength_append, Nat.add_assoc]

/-- A match that leads onwards leaves less behind it. -/
theorem Matches.length_lt (h : Matches p c caps c' caps') (hpos : c.pos < c'.pos) :
    c'.rest.length < c.rest.length := by
  obtain ⟨text, hrest, hend⟩ := h.taken
  cases text with
  | nil =>
    rw [Text.byteLength_nil] at hend
    omega
  | cons a text =>
    rw [hrest, List.length_append, List.length_cons]
    omega

/-! ## What an attempt asks -/

/-- An attempt fails if what follows fails behind every match. -/
theorem attempt_eq_none (h : ∀ c' caps', Matches p c caps c' caps' → k c' caps' = none) :
    p.attempt c caps k = none := by
  cases hattempt : p.attempt c caps k with
  | none => rfl
  | some b =>
    obtain ⟨c', caps', hmatch, hk⟩ := exists_matches_of_attempt hattempt
    rw [h c' caps' hmatch] at hk
    cases hk

theorem rounds_congr {greedy : Bool}
    (hbody : ∀ {c : Cursor} {caps : Captures Label} {k k' : Cursor → Captures Label → Option β},
      (∀ c' caps', Matches p c caps c' caps' → k c' caps' = k' c' caps') →
        p.attempt c caps k = p.attempt c caps k')
    {n : Nat} (h : ∀ c' caps', Matches (.many greedy p) c caps c' caps' →
      k c' caps' = k' c' caps') :
    rounds (fun c caps k => p.attempt c caps k) greedy n c caps k =
      rounds (fun c caps k => p.attempt c caps k) greedy n c caps k' := by
  induction n generalizing c caps with
  | zero => exact h c caps .manyDone
  | succ n ih =>
    have hagain : (p.attempt c caps fun c' caps' =>
          if c.pos < c'.pos then
            rounds (fun c caps k => p.attempt c caps k) greedy n c' caps' k else none) =
        p.attempt c caps fun c' caps' =>
          if c.pos < c'.pos then
            rounds (fun c caps k => p.attempt c caps k) greedy n c' caps' k' else none := by
      refine hbody fun c' caps' hmatch => ?_
      split
      · rename_i hlt
        exact ih fun c'' caps'' hmany => h c'' caps'' (.manyMore hlt hmatch hmany)
      · rfl
    unfold rounds
    dsimp only
    rw [hagain, h c caps .manyDone]

/-- An attempt asks what follows behind the matches of its pattern only. -/
theorem attempt_congr (h : ∀ c' caps', Matches p c caps c' caps' → k c' caps' = k' c' caps') :
    p.attempt c caps k = p.attempt c caps k' := by
  induction p generalizing c caps k k' with
  | empty => exact h c caps .empty
  | char test =>
    obtain ⟨before, pos, rest⟩ := c
    cases rest with
    | nil => rfl
    | cons a rest =>
      show (if (some a).any test then _ else none) = if (some a).any test then _ else none
      split
      · rename_i htest
        exact h _ caps (.char htest)
      · rfl
  | seq p q ihp ihq =>
    exact ihp fun c' caps' hp => ihq fun c'' caps'' hq => h c'' caps'' (.seq hp hq)
  | alt p q ihp ihq =>
    unfold attempt
    rw [ihp fun c' caps' hp => h c' caps' (.altFirst hp),
      ihq fun c' caps' hq => h c' caps' (.altSecond hq)]
  | many greedy p ih => exact rounds_congr ih h
  | capture label p ih => exact ih fun c' caps' hp => h c' _ (.capture hp)
  | wordEdge =>
    unfold attempt
    split
    · rename_i hedge
      exact h c caps (.wordEdge hedge)
    · rfl
  | lineStart =>
    unfold attempt
    split
    · rename_i hstart
      exact h c caps (.lineStart hstart)
    · rfl
  | textEnd =>
    unfold attempt
    split
    · rename_i hend
      exact h c caps (.textEnd (List.isEmpty_iff.1 hend))
    · rfl

/-! ## Repetitions -/

/-- A bound on the rounds that is as long as the text behind a place is never met. -/
theorem rounds_eq_of_le {greedy : Bool} {n m : Nat} (hn : c.rest.length ≤ n)
    (hm : c.rest.length ≤ m) :
    rounds (fun c caps k => p.attempt c caps k) greedy n c caps k =
      rounds (fun c caps k => p.attempt c caps k) greedy m c caps k := by
  -- at the end of the text no round leads onwards
  have hend : ∀ {c : Cursor} (n : Nat), c.rest.length ≤ 0 → ∀ caps,
      rounds (fun c caps k => p.attempt c caps k) greedy n c caps k = k c caps := by
    intro c n hrest caps
    cases n with
    | zero => rfl
    | succ n =>
      have hagain : (p.attempt c caps fun c' caps' =>
          if c.pos < c'.pos then
            rounds (fun c caps k => p.attempt c caps k) greedy n c' caps' k else none) = none := by
        refine attempt_eq_none fun c' caps' hmatch => if_neg fun hlt => ?_
        have hshorter := hmatch.length_lt hlt
        omega
      unfold rounds
      dsimp only
      rw [hagain]
      cases greedy with
      | true => rfl
      | false => cases k c caps <;> rfl
  induction n generalizing m c caps with
  | zero => rw [hend 0 hn, hend m hn]
  | succ n ih =>
    cases m with
    | zero => rw [hend _ hm, hend 0 hm]
    | succ m =>
      have hagain : (p.attempt c caps fun c' caps' =>
            if c.pos < c'.pos then
              rounds (fun c caps k => p.attempt c caps k) greedy n c' caps' k else none) =
          p.attempt c caps fun c' caps' =>
            if c.pos < c'.pos then
              rounds (fun c caps k => p.attempt c caps k) greedy m c' caps' k else none := by
        refine attempt_congr fun c' caps' hmatch => ?_
        split
        · rename_i hlt
          have hshorter := hmatch.length_lt hlt
          exact ih (by omega) (by omega)
        · rfl
      unfold rounds
      dsimp only
      rw [hagain]

/-- **A repetition** is a round that leads onwards with the repetition behind it, or nothing. -/
theorem attempt_many (greedy : Bool) (p : Pattern Label) (c : Cursor) (caps : Captures Label)
    (k : Cursor → Captures Label → Option β) :
    (many greedy p).attempt c caps k =
      let again := p.attempt c caps fun c' caps' =>
        if c.pos < c'.pos then (many greedy p).attempt c' caps' k else none
      if greedy then again.orElse fun _ => k c caps else (k c caps).orElse fun _ => again := by
  have hbound : (many greedy p).attempt c caps k =
      rounds (fun c caps k => p.attempt c caps k) greedy (c.rest.length + 1) c caps k :=
    rounds_eq_of_le (Nat.le_refl _) (Nat.le_succ _)
  have hagain : (p.attempt c caps fun c' caps' =>
        if c.pos < c'.pos then
          rounds (fun c caps k => p.attempt c caps k) greedy c.rest.length c' caps' k else none) =
      p.attempt c caps fun c' caps' =>
        if c.pos < c'.pos then (many greedy p).attempt c' caps' k else none := by
    refine attempt_congr fun c' caps' hmatch => ?_
    split
    · rename_i hlt
      exact rounds_eq_of_le (Nat.le_of_lt (hmatch.length_lt hlt)) (Nat.le_refl _)
    · rfl
  rw [hbound]
  unfold rounds
  dsimp only
  rw [hagain]

/-! ## Runs -/

theorem attempt_char_cons (test : Char → Bool) (before : Option Char) (pos : Nat) (a : Char)
    (rest : List Char) (caps : Captures Label) (k : Cursor → Captures Label → Option β) :
    (char test).attempt ⟨before, pos, a :: rest⟩ caps k =
      if test a then k ⟨some a, pos + a.utf8Size, rest⟩ caps else none := rfl

/-- A repetition of a character goes on with the next one if it can. -/
theorem attempt_many_char_cons (greedy : Bool) (test : Char → Bool) (before : Option Char)
    (pos : Nat) (a : Char) (rest : List Char) (caps : Captures Label)
    (k : Cursor → Captures Label → Option β) :
    (many greedy (char test)).attempt ⟨before, pos, a :: rest⟩ caps k =
      let again := if test a then
        (many greedy (char test)).attempt ⟨some a, pos + a.utf8Size, rest⟩ caps k else none
      if greedy then again.orElse fun _ => k ⟨before, pos, a :: rest⟩ caps
      else (k ⟨before, pos, a :: rest⟩ caps).orElse fun _ => again := by
  have hpos : pos < pos + a.utf8Size := Nat.lt_add_of_pos_right a.utf8Size_pos
  rw [attempt_many, attempt_char_cons]
  dsimp only
  rw [if_pos hpos]

/-! ## Selections -/

theorem find?_cursor (p : Pattern Label) (c : Cursor) :
    p.find? c.before c.pos c.rest = (p.matchAt? c).or
      (c.next?.bind fun c' => p.find? c'.before c'.pos c'.rest) := by
  obtain ⟨before, pos, rest⟩ := c
  cases rest with
  | nil => exact (Option.or_none).symm
  | cons a rest =>
    rw [find?, Option.orElse_eq_or]
    rfl

theorem front_of_matchAt? {m : Match Label} (h : p.matchAt? c = some m) : m.front = c := by
  obtain ⟨c', caps', -, hm⟩ := exists_matches_of_attempt h
  exact Option.some.inj hm ▸ rfl

theorem matches_of_matchAt? {m : Match Label} (h : p.matchAt? c = some m) :
    Matches p m.front [] m.back m.captures := by
  obtain ⟨c', caps', hmatch, hm⟩ := exists_matches_of_attempt h
  exact Option.some.inj hm ▸ hmatch

/-- What a search finds starts no further in front than the search. -/
theorem length_front_le_of_find? {rest : List Char} {before : Option Char} {pos : Nat}
    {m : Match Label} (h : p.find? before pos rest = some m) :
    m.front.rest.length ≤ rest.length ∧ Matches p m.front [] m.back m.captures := by
  induction rest generalizing before pos with
  | nil => exact ⟨Nat.le_of_eq (by rw [front_of_matchAt? h]), matches_of_matchAt? h⟩
  | cons a rest ih =>
    unfold find? at h
    rcases Option.or_eq_some_iff.1 (Option.orElse_eq_or ▸ h) with h | ⟨-, h⟩
    · exact ⟨Nat.le_of_eq (by rw [front_of_matchAt? h]), matches_of_matchAt? h⟩
    · obtain ⟨hle, hmatch⟩ := ih h
      exact ⟨Nat.le_succ_of_le hle, hmatch⟩

/-- The search behind a match has less text in front of it. -/
theorem length_resume?_lt {m : Match Label} (hm : Matches p m.front [] m.back m.captures)
    {c : Cursor} (h : m.resume? = some c) : c.rest.length < m.front.rest.length := by
  unfold Match.resume? at h
  split at h
  · rename_i hlt
    exact Option.some.inj h ▸ hm.length_lt hlt
  · exact Cursor.next?_length h

/-- A bound on the searches that is longer than the text is never met. -/
theorem selectFrom_eq_of_lt {accept : Match Label → Bool} {n m : Nat} (hn : c.rest.length < n)
    (hm : c.rest.length < m) : p.selectFrom accept n c = p.selectFrom accept m c := by
  induction n generalizing m c with
  | zero => omega
  | succ n ih =>
    cases m with
    | zero => omega
    | succ m =>
      unfold selectFrom
      cases hfind : p.find? c.before c.pos c.rest with
      | none => rfl
      | some found =>
        obtain ⟨hle, hmatch⟩ := length_front_le_of_find? hfind
        dsimp only
        split
        · cases hresume : found.resume? with
          | none => rfl
          | some c' =>
            have hlt := length_resume?_lt hmatch hresume
            exact congrArg (found :: ·) (ih (by omega) (by omega))
        · cases hnext : found.front.next? with
          | none => rfl
          | some c' =>
            have hlt := Cursor.next?_length hnext
            exact ih (by omega) (by omega)

/-- **A selection goes place by place**: an accepted match is taken, and the selection goes on
behind it; else it goes on behind the next character. -/
theorem selectFrom_eq {accept : Match Label → Bool} {n : Nat} (hn : c.rest.length < n) :
    p.selectFrom accept n c =
      match (p.matchAt? c).filter accept with
      | some m => m :: (m.resume?.map (p.selectFrom accept n)).getD []
      | none => (c.next?.map (p.selectFrom accept n)).getD [] := by
  obtain ⟨n, rfl⟩ := Nat.exists_eq_succ_of_ne_zero (Nat.ne_of_gt (Nat.zero_lt_of_lt hn))
  cases hmatch : p.matchAt? c with
  | none =>
    cases hnext : c.next? with
    | none =>
      unfold selectFrom
      rw [find?_cursor, hmatch, hnext]
      rfl
    | some c' =>
      have hfind : p.find? c.before c.pos c.rest = p.find? c'.before c'.pos c'.rest := by
        rw [find?_cursor, hmatch, hnext]
        rfl
      show p.selectFrom accept (n + 1) c = p.selectFrom accept (n + 1) c'
      unfold selectFrom
      rw [hfind]
  | some m =>
    have hfind : p.find? c.before c.pos c.rest = some m := by
      rw [find?_cursor, hmatch]
      rfl
    have hfront := front_of_matchAt? hmatch
    have hshorter : ∀ c', c'.rest.length < c.rest.length →
        p.selectFrom accept n c' = p.selectFrom accept (n + 1) c' := fun c' hlt =>
      selectFrom_eq_of_lt (by omega) (by omega)
    rw [selectFrom, hfind]
    dsimp only [Option.filter]
    split
    · dsimp only
      cases hresume : m.resume? with
      | none => rfl
      | some c' =>
        have hlt := length_resume?_lt (matches_of_matchAt? hmatch) hresume
        rw [hfront] at hlt
        exact congrArg (m :: ·) (hshorter c' hlt)
    · rw [hfront]
      cases hnext : c.next? with
      | none => rfl
      | some c' => exact hshorter c' (Cursor.next?_length hnext)

/-- What a selection finds starts no further in front than the selection. -/
theorem length_front_le_of_selectFrom {accept : Match Label → Bool} {n : Nat} :
    ∀ m ∈ p.selectFrom accept n c, m.front.rest.length ≤ c.rest.length := by
  induction n generalizing c with
  | zero =>
    intro m hm
    cases hm
  | succ n ih =>
    intro m hm
    unfold selectFrom at hm
    split at hm
    · cases hm
    · rename_i found hfind
      obtain ⟨hle, hmatch⟩ := length_front_le_of_find? hfind
      dsimp only at hm
      split at hm
      · rcases List.mem_cons.1 hm with rfl | hm
        · exact hle
        · split at hm
          · rename_i c' hresume
            have hlt := length_resume?_lt hmatch hresume
            have hrest := ih m hm
            omega
          · cases hm
      · split at hm
        · rename_i c' hnext
          have hlt := Cursor.next?_length hnext
          have hrest := ih m hm
          omega
        · cases hm

/-- Behind a match at the front of a text all others start further on. -/
theorem matchesIn_of_matchAt? {text : List Char} {m : Match Label}
    (h : p.matchAt? (.start text) = some m) : ∃ ms, p.matchesIn text = m :: ms ∧
      ∀ m' ∈ ms, m'.front.rest.length < text.length := by
  have hstart : (Cursor.start text).rest.length < text.length + 1 := Nat.lt_succ_self _
  rw [matchesIn, select, selectFrom_eq hstart, h]
  refine ⟨_, rfl, fun m' hm' => ?_⟩
  cases hresume : m.resume? with
  | none =>
    rw [hresume] at hm'
    cases hm'
  | some c =>
    rw [hresume] at hm'
    have hlt := length_resume?_lt (matches_of_matchAt? h) hresume
    rw [front_of_matchAt? h] at hlt
    exact Nat.lt_of_le_of_lt (length_front_le_of_selectFrom m' hm') hlt

end Pattern

end EsModules
