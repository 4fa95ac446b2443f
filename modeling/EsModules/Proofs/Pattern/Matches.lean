import EsModules.Pattern.Search

/-!
# What patterns match

`Pattern.Matches` says which stretches of a text a pattern describes, with the parts remembered on
the way, and nothing about the order in which the ways to match are tried.  Searching is sound for
it: what a search finds is a stretch of the text that the pattern describes.

* `Pattern.exists_matches_of_attempt`: one match.
* `Pattern.found_of_select`, `Pattern.found_of_matchesIn`: several matches.
* `Pattern.Begins`: every stretch that a pattern describes begins with a given text.
-/

namespace EsModules

/-! ## Places of a text -/

/-- A cursor stands at a place of a text. -/
def Cursor.At (source : List Char) (c : Cursor) : Prop :=
  ∃ front, source = front ++ c.rest ∧ c.pos = Text.byteLength front ∧ c.before = front.getLast?

theorem Cursor.at_start (source : List Char) : (Cursor.start source).At source :=
  ⟨[], rfl, rfl, rfl⟩

/-- The place behind the next character is a place of the same text. -/
theorem Cursor.At.cons {source rest : List Char} {before : Option Char} {pos : Nat} {a : Char}
    (h : Cursor.At source ⟨before, pos, a :: rest⟩) :
    Cursor.At source ⟨some a, pos + a.utf8Size, rest⟩ := by
  obtain ⟨front, hs, hpos, -⟩ := h
  refine ⟨front ++ [a], by simpa using hs, ?_, by simp⟩
  dsimp only at hpos ⊢
  rw [hpos, Text.byteLength_append]
  rfl

theorem Cursor.At.next? {source : List Char} {c c' : Cursor} (h : c.At source)
    (hnext : c.next? = some c') : c'.At source := by
  obtain ⟨before, pos, rest⟩ := c
  cases rest with
  | nil => cases hnext
  | cons a rest =>
    obtain rfl := Option.some.inj hnext
    exact h.cons

namespace Pattern

variable {Label β : Type}

/-! ## Matches -/

/-- A pattern describes the text between two cursors; the captures grow by the parts of it. -/
inductive Matches : Pattern Label → Cursor → Captures Label → Cursor → Captures Label → Prop
  | empty {c caps} : Matches .empty c caps c caps
  | char {test before pos a rest caps} : test a = true →
      Matches (.char test) ⟨before, pos, a :: rest⟩ caps ⟨some a, pos + a.utf8Size, rest⟩ caps
  | seq {p q c caps c' caps' c'' caps''} : Matches p c caps c' caps' →
      Matches q c' caps' c'' caps'' → Matches (.seq p q) c caps c'' caps''
  | altFirst {p q c caps c' caps'} : Matches p c caps c' caps' →
      Matches (.alt p q) c caps c' caps'
  | altSecond {p q c caps c' caps'} : Matches q c caps c' caps' →
      Matches (.alt p q) c caps c' caps'
  | manyDone {greedy p c caps} : Matches (.many greedy p) c caps c caps
  | manyMore {greedy p c caps c' caps' c'' caps''} : c.pos < c'.pos → Matches p c caps c' caps' →
      Matches (.many greedy p) c' caps' c'' caps'' → Matches (.many greedy p) c caps c'' caps''
  | capture {label p c caps c' caps'} : Matches p c caps c' caps' →
      Matches (.capture label p) c caps c' ((label, ⟨c.pos, c'.pos⟩) :: caps')
  | wordEdge {c caps} : c.isWordEdge = true → Matches .wordEdge c caps c caps
  | lineStart {c caps} : c.isLineStart = true → Matches .lineStart c caps c caps
  | textEnd {c caps} : c.rest = [] → Matches .textEnd c caps c caps

/-- A pattern matches towards another place of the same text, in front of which the first lies. -/
theorem Matches.at {p : Pattern Label} {c c' : Cursor} {caps caps' : Captures Label}
    (h : Matches p c caps c' caps') {source : List Char} (hat : c.At source) :
    c'.At source ∧ c.pos ≤ c'.pos := by
  induction h with
  | empty | manyDone | wordEdge | lineStart | textEnd => exact ⟨hat, Nat.le_refl _⟩
  | char => exact ⟨hat.cons, Nat.le_add_right _ _⟩
  | seq _ _ ih ih' =>
    obtain ⟨hat', hle⟩ := ih hat
    obtain ⟨hat'', hle'⟩ := ih' hat'
    exact ⟨hat'', Nat.le_trans hle hle'⟩
  | altFirst _ ih | altSecond _ ih | capture _ ih => exact ih hat
  | manyMore _ _ _ ih ih' =>
    obtain ⟨hat', hle⟩ := ih hat
    obtain ⟨hat'', hle'⟩ := ih' hat'
    exact ⟨hat'', Nat.le_trans hle hle'⟩

/-! ## Attempts are sound -/

/-- Rounds of a body that is sound are repetitions of its pattern. -/
theorem exists_matches_of_rounds {p : Pattern Label} {body : Matcher Label β}
    {b : β} (hbody : ∀ {c caps k}, body c caps k = some b →
      ∃ c' caps', Matches p c caps c' caps' ∧ k c' caps' = some b)
    {greedy : Bool} {n : Nat} {c : Cursor} {caps : Captures Label}
    {k : Cursor → Captures Label → Option β}
    (h : rounds body greedy n c caps k = some b) :
    ∃ c' caps', Matches (.many greedy p) c caps c' caps' ∧ k c' caps' = some b := by
  induction n generalizing c caps with
  | zero => exact ⟨c, caps, .manyDone, h⟩
  | succ n ih =>
    have again {c caps} (h : (body c caps fun c' caps' =>
        if c.pos < c'.pos then rounds body greedy n c' caps' k else none) = some b) :
        ∃ c' caps', Matches (.many greedy p) c caps c' caps' ∧ k c' caps' = some b := by
      obtain ⟨c', caps', hmatch, hrest⟩ := hbody h
      obtain ⟨hlt, hrest⟩ := Option.ite_none_right_eq_some.1 hrest
      obtain ⟨c'', caps'', hmany, hk⟩ := ih hrest
      exact ⟨c'', caps'', .manyMore hlt hmatch hmany, hk⟩
    unfold rounds at h
    dsimp only at h
    split at h
    · rcases Option.or_eq_some_iff.1 (Option.orElse_eq_or ▸ h) with h | ⟨-, h⟩
      · exact again h
      · exact ⟨c, caps, .manyDone, h⟩
    · rcases Option.or_eq_some_iff.1 (Option.orElse_eq_or ▸ h) with h | ⟨-, h⟩
      · exact ⟨c, caps, .manyDone, h⟩
      · exact again h

/-- An attempt that succeeds has matched the pattern, and what follows succeeds behind it. -/
theorem exists_matches_of_attempt {p : Pattern Label} {c : Cursor} {caps : Captures Label}
    {k : Cursor → Captures Label → Option β} {b : β} (h : p.attempt c caps k = some b) :
    ∃ c' caps', Matches p c caps c' caps' ∧ k c' caps' = some b := by
  induction p generalizing c caps k with
  | empty => exact ⟨c, caps, .empty, h⟩
  | char test =>
    obtain ⟨before, pos, rest⟩ := c
    cases rest with
    | nil => cases h
    | cons a rest =>
      obtain ⟨htest, hk⟩ := Option.ite_none_right_eq_some.1 h
      exact ⟨_, caps, .char (by simpa using htest), hk⟩
  | seq p q ihp ihq =>
    obtain ⟨c', caps', hp, hrest⟩ := ihp h
    obtain ⟨c'', caps'', hq, hk⟩ := ihq hrest
    exact ⟨c'', caps'', .seq hp hq, hk⟩
  | alt p q ihp ihq =>
    unfold attempt at h
    rcases Option.or_eq_some_iff.1 (Option.orElse_eq_or ▸ h) with h | ⟨-, h⟩
    · obtain ⟨c', caps', hp, hk⟩ := ihp h
      exact ⟨c', caps', .altFirst hp, hk⟩
    · obtain ⟨c', caps', hq, hk⟩ := ihq h
      exact ⟨c', caps', .altSecond hq, hk⟩
  | many greedy p ih => exact exists_matches_of_rounds ih h
  | capture label p ih =>
    obtain ⟨c', caps', hp, hk⟩ := ih h
    exact ⟨c', _, .capture hp, hk⟩
  | wordEdge =>
    obtain ⟨hedge, hk⟩ := Option.ite_none_right_eq_some.1 h
    exact ⟨c, caps, .wordEdge hedge, hk⟩
  | lineStart =>
    obtain ⟨hstart, hk⟩ := Option.ite_none_right_eq_some.1 h
    exact ⟨c, caps, .lineStart hstart, hk⟩
  | textEnd =>
    obtain ⟨hend, hk⟩ := Option.ite_none_right_eq_some.1 h
    exact ⟨c, caps, .textEnd (by simpa using hend), hk⟩

/-! ## Searches are sound -/

/-- A match lies in a text, and is one of a pattern. -/
structure Found (p : Pattern Label) (source : List Char) (m : Match Label) : Prop where
  front_at : m.front.At source
  matched : Matches p m.front [] m.back m.captures

theorem found_of_matchAt? {p : Pattern Label} {source : List Char} {c : Cursor}
    {m : Match Label} (hat : c.At source) (h : p.matchAt? c = some m) : Found p source m := by
  obtain ⟨c', caps', hmatch, hm⟩ := exists_matches_of_attempt h
  obtain rfl := Option.some.inj hm
  exact ⟨hat, hmatch⟩

theorem found_of_find? {p : Pattern Label} {source rest : List Char} {before : Option Char}
    {pos : Nat} {m : Match Label} (hat : Cursor.At source ⟨before, pos, rest⟩)
    (h : p.find? before pos rest = some m) : Found p source m := by
  induction rest generalizing before pos with
  | nil => exact found_of_matchAt? hat h
  | cons a rest ih =>
    unfold find? at h
    rcases Option.or_eq_some_iff.1 (Option.orElse_eq_or ▸ h) with h | ⟨-, h⟩
    · exact found_of_matchAt? hat h
    · exact ih hat.cons h

theorem Found.resume?_at {p : Pattern Label} {source : List Char} {m : Match Label} {c : Cursor}
    (h : Found p source m) (hc : m.resume? = some c) : c.At source := by
  unfold Match.resume? at hc
  split at hc
  · exact Option.some.inj hc ▸ (h.matched.at h.front_at).1
  · exact h.front_at.next? hc

theorem found_of_selectFrom {p : Pattern Label} {source : List Char} {accept : Match Label → Bool}
    {n : Nat} {c : Cursor} (hat : c.At source) :
    ∀ m ∈ p.selectFrom accept n c, Found p source m ∧ accept m = true := by
  induction n generalizing c with
  | zero => intro m hm; cases hm
  | succ n ih =>
    intro m hm
    unfold selectFrom at hm
    split at hm
    · cases hm
    · rename_i found hfind
      have hfound := found_of_find? hat hfind
      dsimp only at hm
      split at hm
      · rename_i haccept
        rcases List.mem_cons.1 hm with rfl | hm
        · exact ⟨hfound, haccept⟩
        · split at hm
          · rename_i hc'
            exact ih (hfound.resume?_at hc') m hm
          · cases hm
      · split at hm
        · rename_i hc'
          exact ih (hfound.front_at.next? hc') m hm
        · cases hm

/-- What a search selects is a match, and accepted. -/
theorem found_of_select {p : Pattern Label} {source : List Char} {accept : Match Label → Bool} :
    ∀ m ∈ p.select accept source, Found p source m ∧ accept m = true :=
  found_of_selectFrom (Cursor.at_start source)

theorem found_of_matchesIn {p : Pattern Label} {source : List Char} :
    ∀ m ∈ p.matchesIn source, Found p source m :=
  fun m hm => (found_of_select m hm).1

/-! ## What matches begin with -/

/-- All that a pattern describes begins with a given text. -/
def Begins (text : List Char) (p : Pattern Label) : Prop :=
  ∀ c caps c' caps', Matches p c caps c' caps' → text <+: c.rest

theorem begins_literal (text : List Char) : Begins text (literal text : Pattern Label) := by
  induction text with
  | nil => exact fun _ _ _ _ _ => List.nil_prefix
  | cons a text ih =>
    intro c caps c' caps' h
    cases h with
    | seq hchar hrest =>
      cases hchar with
      | char ha =>
        obtain rfl := eq_of_beq ha
        exact List.cons_prefix_cons.2 ⟨rfl, ih _ _ _ _ hrest⟩

variable {text : List Char} {p q : Pattern Label}

/-- What follows has no part in how a match begins. -/
theorem Begins.append (h : Begins text p) (q : Pattern Label) : Begins text (p ++ q) := by
  intro c caps c' caps' hmatch
  cases hmatch with
  | seq hp _ => exact h _ _ _ _ hp

/-- The edge of a word takes no text. -/
theorem Begins.wordEdge_append (h : Begins text p) : Begins text (wordEdge ++ p) := by
  intro c caps c' caps' hmatch
  cases hmatch with
  | seq hedge hp =>
    cases hedge
    exact h _ _ _ _ hp

theorem Begins.alt (hp : Begins text p) (hq : Begins text q) : Begins text (alt p q) := by
  intro c caps c' caps' hmatch
  cases hmatch with
  | altFirst h => exact hp _ _ _ _ h
  | altSecond h => exact hq _ _ _ _ h

/-- Where a match of a pattern starts, the source reads the text that the pattern begins with. -/
theorem Found.exists_append {source : List Char} {m : Match Label} (h : Found p source m)
    (hp : Begins text p) :
    ∃ a b, source = a ++ (text ++ b) ∧ m.span.start = Text.byteLength a := by
  obtain ⟨a, hs, hpos, -⟩ := h.front_at
  obtain ⟨b, hb⟩ := hp _ _ _ _ h.matched
  exact ⟨a, b, by rw [hs, hb], hpos⟩

end Pattern

end EsModules
