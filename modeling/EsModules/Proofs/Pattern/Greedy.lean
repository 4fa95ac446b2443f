import EsModules.Declaration.Import
import EsModules.Proofs.Pattern.Leftmost

/-!
# Selections are greedy

A statement starts at the front of a text, or behind a space, a semicolon or a closing brace.  The
selection of the matches that start there looks for matches at all places and drops the others
again; still it gives what one gets by taking the leftmost match that starts a statement, going on
behind it, and so forth.  A match that is dropped takes nothing away.

* `Cursor.StartsStatement`: the places at which a statement can start.
* `Pattern.Greedy`: what taking the leftmost match again and again gives.
* `Pattern.greedy_selectFrom`, `Pattern.Greedy.unique`: a selection gives that, and there is
  nothing else that does.
* `Pattern.select_greedy`: the selection in a text, and what follows for its matches.
-/

namespace EsModules

/-- A statement can start at a place: nothing stands in front of it, or a space, a semicolon or a
closing brace. -/
def Cursor.StartsStatement (c : Cursor) : Prop :=
  ∀ a ∈ c.before, Text.isBlank a = true ∨ a = ';' ∨ a = '\x7d'

/-- The test for declarations asks for the place in front of the match. -/
theorem StaticImport.startsStatement_iff {m : Match Part} :
    startsStatement m = true ↔ m.front.StartsStatement := by
  unfold startsStatement Cursor.StartsStatement
  cases m.front.before <;> simp [or_assoc]

namespace Pattern

variable {Label : Type} {p : Pattern Label} {source : List Char} {c c' : Cursor}
  {accept : Match Label → Bool} {i j n : Nat} {m m' : Match Label} {ms ms' : List (Match Label)}

/-! ## Taking the leftmost match -/

/-- A match of a pattern in a text that starts a statement, at a given position or behind it. -/
structure Eligible (p : Pattern Label) (source : List Char) (i : Nat) (m : Match Label) : Prop where
  front_at : m.front.At source
  le : i ≤ m.front.pos
  matched : p.matchAt? m.front = some m
  starts : m.front.StartsStatement

/-- From a position on, the leftmost match that starts a statement is taken, as long as there is
one.  The next one is looked for from its end on, but at least one byte behind its front; matches
start at places between characters, so a position within a character stands for the place behind
it. -/
inductive Greedy (p : Pattern Label) (source : List Char) : Nat → List (Match Label) → Prop
  | stop {i : Nat} : (∀ m, ¬ Eligible p source i m) → Greedy p source i []
  | take {i : Nat} {m : Match Label} {ms : List (Match Label)} : Eligible p source i m →
      (∀ m', Eligible p source i m' → m.front.pos ≤ m'.front.pos) →
      Greedy p source (max m.back.pos (m.front.pos + 1)) ms → Greedy p source i (m :: ms)

/-- At one place a pattern has one match. -/
theorem Eligible.eq_of_pos_eq (h : Eligible p source i m) (h' : Eligible p source j m')
    (hpos : m.front.pos = m'.front.pos) : m = m' := by
  have hmatch := h.matched
  rw [h.front_at.eq_of_pos_eq h'.front_at hpos, h'.matched] at hmatch
  exact (Option.some.inj hmatch).symm

/-- Positions with the same matches behind them are as good as each other. -/
theorem Greedy.congr (h : Greedy p source i ms)
    (hsame : ∀ m, Eligible p source i m ↔ Eligible p source j m) : Greedy p source j ms := by
  cases h with
  | stop hnone => exact .stop fun m hm => hnone m ((hsame m).2 hm)
  | take hm hleast hrest =>
    exact .take ((hsame _).1 hm) (fun m' hm' => hleast m' ((hsame m').2 hm')) hrest

/-- **There is one way to take the leftmost match** again and again. -/
theorem Greedy.unique (h : Greedy p source i ms) (h' : Greedy p source i ms') : ms = ms' := by
  induction h generalizing ms' with
  | stop hnone =>
    cases h' with
    | stop _ => rfl
    | take hm' _ _ => exact absurd hm' (hnone _)
  | take hm hleast _ ih =>
    cases h' with
    | stop hnone' => exact absurd hm (hnone' _)
    | take hm' hleast' hrest' =>
      obtain rfl := hm.eq_of_pos_eq hm' (Nat.le_antisymm (hleast _ hm') (hleast' _ hm))
      rw [ih hrest']

/-! ## What is taken, and what is not -/

theorem Greedy.le_pos (h : Greedy p source i ms) : ∀ m ∈ ms, i ≤ m.front.pos := by
  induction h with
  | stop _ => exact fun m hm => absurd hm List.not_mem_nil
  | take hm _ _ ih =>
    intro m' hm'
    rcases List.mem_cons.1 hm' with rfl | hm'
    · exact hm.le
    · have hle := ih m' hm'
      have hfront := hm.le
      omega

/-- The matches stand one behind the other and do not overlap. -/
theorem Greedy.pairwise (h : Greedy p source i ms) :
    ms.Pairwise fun m m' => m.front.pos < m'.front.pos ∧ m.back.pos ≤ m'.front.pos := by
  induction h with
  | stop _ => exact .nil
  | take _ _ hrest ih =>
    refine List.pairwise_cons.2 ⟨fun m' hm' => ?_, ih⟩
    have hle := hrest.le_pos m' hm'
    omega

/-- A match that is not taken starts within one that is. -/
theorem Greedy.mem_or_inside (h : Greedy p source i ms) (hm : Eligible p source i m) :
    m ∈ ms ∨ ∃ m' ∈ ms, m'.front.pos < m.front.pos ∧ m.front.pos < m'.back.pos := by
  induction h with
  | stop hnone => exact absurd hm (hnone m)
  | @take i first ms hfirst hleast _ ih =>
    rcases Nat.eq_or_lt_of_le (hleast m hm) with hsame | hlt
    · exact .inl (hfirst.eq_of_pos_eq hm hsame ▸ List.mem_cons_self)
    by_cases hinside : m.front.pos < first.back.pos
    · exact .inr ⟨first, List.mem_cons_self, hlt, hinside⟩
    rcases ih ⟨hm.front_at, by omega, hm.matched, hm.starts⟩ with hmem | ⟨m', hmem, hpos⟩
    · exact .inl (List.mem_cons_of_mem _ hmem)
    · exact .inr ⟨m', List.mem_cons_of_mem _ hmem, hpos⟩

/-! ## Selections -/

/-- Behind the end of a text there is no match. -/
theorem not_eligible_of_end (hc : c.At source) (hend : c.next? = none) :
    ¬ Eligible p source (c.pos + 1) m := by
  intro hm
  obtain ⟨next, hnext, -⟩ := hc.exists_next? hm.front_at hm.le
  rw [hend] at hnext
  cases hnext

/-- The first place behind a place is the one behind the next character. -/
theorem eligible_next_iff (hc : c.At source) (hnext : c.next? = some c') :
    Eligible p source c'.pos m ↔ Eligible p source (c.pos + 1) m := by
  have hlt : c.pos < c'.pos := by
    obtain ⟨before, pos, rest⟩ := c
    cases rest with
    | nil => cases hnext
    | cons a rest =>
      obtain rfl := Option.some.inj hnext
      exact Nat.lt_add_of_pos_right a.utf8Size_pos
  constructor
  · intro hm
    exact ⟨hm.front_at, Nat.le_trans hlt hm.le, hm.matched, hm.starts⟩
  · intro hm
    obtain ⟨next, hnext', -, hle⟩ := hc.exists_next? hm.front_at hm.le
    obtain rfl := Option.some.inj (hnext.symm.trans hnext')
    exact ⟨hm.front_at, hle, hm.matched, hm.starts⟩

/-- A selection that goes place by place takes the leftmost match again and again. -/
theorem greedy_selectFrom (haccept : ∀ m, accept m = true ↔ m.front.StartsStatement)
    (hc : c.At source) (hn : c.rest.length < n) :
    Greedy p source c.pos (p.selectFrom accept n c) := by
  induction hlength : c.rest.length using Nat.strongRecOn generalizing c with
  | ind length ih =>
    have hbehind : Greedy p source (c.pos + 1)
        ((c.next?.map (p.selectFrom accept n)).getD []) := by
      cases hnext : c.next? with
      | none => exact .stop fun m => not_eligible_of_end hc hnext
      | some c' =>
        have hshorter := Cursor.next?_length hnext
        have hrest := ih _ (hlength ▸ hshorter) (hc.next? hnext) (by omega) rfl
        exact hrest.congr fun m => eligible_next_iff hc hnext
    rw [selectFrom_eq hn]
    cases hmatch : (p.matchAt? c).filter accept with
    | some m =>
      obtain ⟨hm, haccepted⟩ := Option.filter_eq_some_iff.1 hmatch
      obtain rfl := front_of_matchAt? hm
      refine .take ⟨hc, Nat.le_refl _, hm, (haccept m).1 haccepted⟩ (fun m' hm' => hm'.le) ?_
      by_cases hlt : m.front.pos < m.back.pos
      · have hmatches := matches_of_matchAt? hm
        have hshorter := hmatches.length_lt hlt
        have hresume : m.resume? = some m.back := if_pos hlt
        rw [hresume, Nat.max_eq_left hlt]
        exact ih _ (hlength ▸ hshorter) (hmatches.at hc).1 (by omega) rfl
      · have hresume : m.resume? = m.front.next? := if_neg hlt
        rw [hresume, Nat.max_eq_right (by omega)]
        exact hbehind
    | none =>
      -- nothing starts a statement here, so that the next place is as good
      refine hbehind.congr fun m => ⟨fun hm => ?_, fun hm => ?_⟩
      · exact ⟨hm.front_at, Nat.le_of_succ_le hm.le, hm.matched, hm.starts⟩
      · refine ⟨hm.front_at, Nat.lt_of_le_of_ne hm.le fun hsame => ?_, hm.matched, hm.starts⟩
        have hfilter : (p.matchAt? c).filter accept = some m := by
          rw [hc.eq_of_pos_eq hm.front_at hsame]
          exact Option.filter_eq_some_iff.2 ⟨hm.matched, (haccept m).2 hm.starts⟩
        rw [hmatch] at hfilter
        cases hfilter

/-- **The matches that start a statement.**  What a selection finds in a text is what taking the
leftmost of these matches again and again gives, and nothing else is.  So the matches stand one
behind the other and do not overlap, and one that starts a statement is found unless it starts
within another that is found: matches that start no statement take nothing away.  The search comes
to its end by itself, however many rounds more it is given. -/
theorem select_greedy (p : Pattern Label) (source : List Char)
    (haccept : ∀ m, accept m = true ↔ m.front.StartsStatement) :
    (∀ ms, Greedy p source 0 ms ↔ ms = p.select accept source) ∧
    (p.select accept source).Pairwise
      (fun m m' => m.front.pos < m'.front.pos ∧ m.back.pos ≤ m'.front.pos) ∧
    (∀ m, Eligible p source 0 m → m ∈ p.select accept source ∨
      ∃ m' ∈ p.select accept source, m'.front.pos < m.front.pos ∧ m.front.pos < m'.back.pos) ∧
    ∀ n, source.length < n → p.selectFrom accept n (.start source) = p.select accept source := by
  have hgreedy : Greedy p source 0 (p.select accept source) :=
    greedy_selectFrom haccept (Cursor.at_start source) (Nat.lt_succ_self _)
  refine ⟨fun ms => ⟨fun h => h.unique hgreedy, fun h => h ▸ hgreedy⟩, hgreedy.pairwise,
    fun m hm => hgreedy.mem_or_inside hm, fun n hn => ?_⟩
  exact selectFrom_eq_of_lt hn (Nat.lt_succ_self _)

/-- A text that is quoted by chance looks like an import in front of another one. -/
def quotedByChance : List Char := "\"import\"===x;import a from \"b\";\x7dimport \"c\"".toList

/-- The match that starts within the quotes runs on into the first import, which is found all the
same. -/
theorem select_greedy_quoted :
    (∀ m : Match Part, StaticImport.startsStatement m = true ↔ m.front.StartsStatement) ∧
    (∃ m, Shape.staticImport.first? quotedByChance = some m ∧ m.span = ⟨1, 28⟩) ∧
    ∃ ms, Greedy Shape.staticImport quotedByChance 0 ms ∧
      ms.map Match.span = [⟨13, 31⟩, ⟨32, 42⟩] := by
  have haccept : ∀ m : Match Part,
      StaticImport.startsStatement m = true ↔ m.front.StartsStatement :=
    fun m => StaticImport.startsStatement_iff
  have hgreedy := (select_greedy Shape.staticImport quotedByChance haccept).1
  exact ⟨haccept, by decide +kernel, _, (hgreedy _).2 rfl, by decide +kernel⟩

end Pattern

end EsModules
