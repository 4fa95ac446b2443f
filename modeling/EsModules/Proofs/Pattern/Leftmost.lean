import EsModules.Proofs.Pattern.Steady

/-!
# Searches go from left to right

The matches in a text stand one behind the other, and the search leaves out a place at which there
is a match only if the place lies within a match that starts further in front.

* `Cursor.At.eq_of_pos_eq`: a place of a text is given by the bytes in front of it.
* `Pattern.Advances`: patterns whose matches take some text.
* `Pattern.pairwise_matchesIn`: matches do not overlap.
* `Pattern.mem_matchesIn_or_inside`: the leftmost match is taken.
-/

namespace EsModules

/-! ## Places of one text -/

namespace Cursor

variable {source : List Char} {c c' : Cursor}

/-- Between two places of a text there lies a text. -/
theorem At.exists_between (hc : c.At source) (hc' : c'.At source) (hle : c.pos ≤ c'.pos) :
    ∃ text, c.rest = text ++ c'.rest ∧ c'.pos = c.pos + Text.byteLength text := by
  obtain ⟨front, hsource, hpos, -⟩ := hc
  obtain ⟨front', hsource', hpos', -⟩ := hc'
  obtain ⟨text, rfl, hrest⟩ := Text.exists_append_of_byteLength_le
    (hsource.symm.trans hsource') (by omega)
  refine ⟨text, hrest, ?_⟩
  rw [hpos', hpos, Text.byteLength_append]

/-- A place of a text is given by the number of bytes in front of it. -/
theorem At.eq_of_pos_eq (hc : c.At source) (hc' : c'.At source) (hpos : c.pos = c'.pos) :
    c = c' := by
  obtain ⟨front, hsource, hfront, hbefore⟩ := hc
  obtain ⟨front', hsource', hfront', hbefore'⟩ := hc'
  obtain ⟨rfl, hrest⟩ := Patch.append_inj_of_byteLength (hsource.symm.trans hsource')
    (hfront.symm.trans (hpos.trans hfront'))
  obtain ⟨before, pos, rest⟩ := c
  obtain ⟨before', pos', rest'⟩ := c'
  rw [Cursor.mk.injEq]
  exact ⟨hbefore.trans hbefore'.symm, hpos, hrest⟩

/-- The place behind the next character lies in front of all that lie further on. -/
theorem At.exists_next? (hc : c.At source) (hc' : c'.At source) (hlt : c.pos < c'.pos) :
    ∃ next, c.next? = some next ∧ next.At source ∧ next.pos ≤ c'.pos := by
  obtain ⟨text, hrest, hpos⟩ := hc.exists_between hc' (Nat.le_of_lt hlt)
  cases text with
  | nil =>
    rw [Text.byteLength_nil] at hpos
    omega
  | cons a text =>
    have hnext : c.next? = some ⟨some a, c.pos + a.utf8Size, text ++ c'.rest⟩ := by
      unfold Cursor.next?
      rw [hrest]
      rfl
    refine ⟨_, hnext, hc.next? hnext, ?_⟩
    rw [Text.byteLength_cons] at hpos
    dsimp only
    omega

end Cursor

namespace Pattern

variable {Label : Type} {p : Pattern Label} {source : List Char} {c : Cursor}
  {accept : Match Label → Bool} {n : Nat}

/-! ## Selections -/

/-- Every match of a pattern takes some text. -/
def Advances (p : Pattern Label) : Prop :=
  ∀ c caps c' caps', Matches p c caps c' caps' → c.pos < c'.pos

/-- Behind a match that takes some text the search goes on where the match ends. -/
theorem Advances.resume?_eq (hp : Advances p) {m : Match Label} (hm : p.matchAt? m.front = some m) :
    m.resume? = some m.back :=
  if_pos (hp _ _ _ _ (matches_of_matchAt? hm))

/-- What a selection finds does not start in front of it. -/
theorem pos_le_of_selectFrom (hc : c.At source) :
    ∀ m ∈ p.selectFrom accept n c, c.pos ≤ m.front.pos := by
  intro m hm
  have hfront := (found_of_selectFrom hc m hm).1.front_at
  have hlength := length_front_le_of_selectFrom m hm
  by_contra hlt
  obtain ⟨text, hrest, hpos⟩ := hfront.exists_between hc (by omega)
  have hnil : text = [] := by
    refine List.length_eq_zero_iff.1 ?_
    rw [hrest, List.length_append] at hlength
    omega
  rw [hnil, Text.byteLength_nil] at hpos
  omega

/-- The matches of a selection do not overlap. -/
theorem pairwise_selectFrom (hp : Advances p) (hc : c.At source) (hn : c.rest.length < n) :
    (p.selectFrom accept n c).Pairwise fun m m' => m.back.pos ≤ m'.front.pos := by
  induction hlength : c.rest.length using Nat.strongRecOn generalizing c with
  | ind length ih =>
    rw [selectFrom_eq hn]
    cases hmatch : (p.matchAt? c).filter accept with
    | some m =>
      obtain ⟨hm, -⟩ := Option.filter_eq_some_iff.1 hmatch
      obtain rfl := front_of_matchAt? hm
      have hmatches := matches_of_matchAt? hm
      have hshorter := hmatches.length_lt (hp _ _ _ _ hmatches)
      have hback := (hmatches.at hc).1
      dsimp only
      rw [hp.resume?_eq hm]
      refine List.pairwise_cons.2 ⟨pos_le_of_selectFrom hback, ?_⟩
      exact ih _ (hlength ▸ hshorter) hback (by omega) rfl
    | none =>
      cases hnext : c.next? with
      | none => exact .nil
      | some next =>
        have hshorter := Cursor.next?_length hnext
        exact ih _ (hlength ▸ hshorter) (hc.next? hnext) (by omega) rfl

/-- A match is selected where no selected match that starts in front of it goes on. -/
theorem mem_selectFrom_or_inside (hp : Advances p) (hc : c.At source) (hn : c.rest.length < n)
    {m : Match Label} (hfront : m.front.At source) (hle : c.pos ≤ m.front.pos)
    (hm : p.matchAt? m.front = some m) :
    m ∈ p.selectFrom (fun _ => true) n c ∨ ∃ m' ∈ p.selectFrom (fun _ => true) n c,
      m'.front.pos < m.front.pos ∧ m.front.pos < m'.back.pos := by
  induction hlength : c.rest.length using Nat.strongRecOn generalizing c with
  | ind length ih =>
    rw [selectFrom_eq hn]
    cases hmatch : (p.matchAt? c).filter fun _ => true with
    | some first =>
      obtain ⟨hfirst, -⟩ := Option.filter_eq_some_iff.1 hmatch
      obtain rfl := front_of_matchAt? hfirst
      have hmatches := matches_of_matchAt? hfirst
      have hshorter := hmatches.length_lt (hp _ _ _ _ hmatches)
      dsimp only
      rw [hp.resume?_eq hfirst]
      -- the match is the first one, or starts within it, or behind it
      by_cases hsame : first.front.pos = m.front.pos
      · rw [hc.eq_of_pos_eq hfront hsame, hm] at hfirst
        obtain rfl := Option.some.inj hfirst
        exact .inl List.mem_cons_self
      by_cases hinside : m.front.pos < first.back.pos
      · exact .inr ⟨first, List.mem_cons_self, by omega, hinside⟩
      rcases ih _ (hlength ▸ hshorter) (hmatches.at hc).1 (by omega) (by omega) rfl with
        hmem | ⟨m', hmem, hpos⟩
      · exact .inl (List.mem_cons_of_mem _ hmem)
      · exact .inr ⟨m', List.mem_cons_of_mem _ hmem, hpos⟩
    | none =>
      have hlt : c.pos < m.front.pos := by
        refine Nat.lt_of_le_of_ne hle fun hsame => ?_
        rw [hc.eq_of_pos_eq hfront hsame, hm] at hmatch
        cases hmatch
      obtain ⟨next, hnext, hat, hnextPos⟩ := hc.exists_next? hfront hlt
      have hshorter := Cursor.next?_length hnext
      dsimp only
      rw [hnext]
      exact ih _ (hlength ▸ hshorter) hat (by omega) hnextPos rfl

/-- The matches in a text do not overlap. -/
theorem pairwise_matchesIn (hp : Advances p) (source : List Char) :
    (p.matchesIn source).Pairwise fun m m' => m.back.pos ≤ m'.front.pos :=
  pairwise_selectFrom hp (Cursor.at_start source) (Nat.lt_succ_self _)

/-- **The leftmost match is taken**: every match is one of those in the text, or starts within one
of them that starts in front of it. -/
theorem mem_matchesIn_or_inside (hp : Advances p) {m : Match Label} (hfront : m.front.At source)
    (hm : p.matchAt? m.front = some m) :
    m ∈ p.matchesIn source ∨ ∃ m' ∈ p.matchesIn source,
      m'.front.pos < m.front.pos ∧ m.front.pos < m'.back.pos :=
  mem_selectFrom_or_inside hp (Cursor.at_start source) (Nat.lt_succ_self _) hfront (Nat.zero_le _)
    hm

end Pattern

end EsModules
