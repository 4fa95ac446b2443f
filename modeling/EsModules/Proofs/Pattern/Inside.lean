import EsModules.Proofs.Pattern.Attempts
import EsModules.Proofs.Text.Patch

/-!
# Matches within plain texts

What a pattern does behind a place in a plain text that a quote ends.  A pattern that takes no quote
stays within the text, so it fails there if what follows it does.  A run that takes plain characters
and the quote goes over the text whole.

* `Pattern.avoidsQuotes`, `Matches.inside`: patterns that take no quote.
* `Pattern.keepsQuotesOut`, `quoteless_of_part?`: parts of matches that have no quote in them.
* `FailsInside`, `Balks`: what fails within plain texts.
* `many_char_over`, `many_char_stop`: runs that go over plain texts, and runs that stop in front of
  them.
-/

namespace EsModules

namespace Pattern

variable {Label : Type}

/-! ## What follows a pattern -/

/-- What follows a pattern. -/
abbrev Follow (Label β : Type) := Cursor → Captures Label → Option β

/-- A pattern and what follows it. -/
def followedBy {β : Type} (p : Pattern Label) (k : Follow Label β) : Follow Label β :=
  fun c caps => p.attempt c caps k

/-! ## Patterns that take no quote -/

variable {p : Pattern Label}

/-- Whether no test of a pattern holds of a quote. -/
def avoidsQuotes : Pattern Label → Bool
  | char test => !test '"' && !test '\'' && !test '\x60'
  | seq p q | alt p q => p.avoidsQuotes && q.avoidsQuotes
  | many _ p | capture _ p => p.avoidsQuotes
  | empty | wordEdge | lineStart | textEnd => true

theorem test_eq_false_of_avoidsQuotes {test : Char → Bool}
    (h : (char test : Pattern Label).avoidsQuotes = true) {q : Char} (hq : isQuote q = true) :
    test q = false := by
  simp only [avoidsQuotes, Bool.and_eq_true, Bool.not_eq_true'] at h
  rcases eq_of_isQuote hq with rfl | rfl | rfl
  · exact h.1.1
  · exact h.1.2
  · exact h.2

/-- A pattern that takes no quote stays in front of the next one. -/
theorem Matches.inside {c c' : Cursor} {caps caps' : Captures Label}
    (h : Matches p c caps c' caps') (hp : p.avoidsQuotes = true) {q : Char}
    (hq : isQuote q = true) {v r : List Char} (hc : c.rest = v ++ q :: r) :
    ∃ v', c'.rest = v' ++ q :: r ∧ v' <:+ v := by
  induction h generalizing v with
  | empty | manyDone | wordEdge | lineStart | textEnd => exact ⟨v, hc, List.suffix_rfl⟩
  | @char test before pos a rest caps ha =>
    cases v with
    | nil =>
      obtain ⟨rfl, -⟩ := List.cons.inj hc
      rw [test_eq_false_of_avoidsQuotes hp hq] at ha
      cases ha
    | cons b v =>
      obtain ⟨rfl, hrest⟩ := List.cons.inj hc
      exact ⟨v, hrest, List.suffix_cons a v⟩
  | seq _ _ ih ih' =>
    simp only [avoidsQuotes, Bool.and_eq_true] at hp
    obtain ⟨v', hc', hv'⟩ := ih hp.1 hc
    obtain ⟨v'', hc'', hv''⟩ := ih' hp.2 hc'
    exact ⟨v'', hc'', hv''.trans hv'⟩
  | altFirst _ ih =>
    simp only [avoidsQuotes, Bool.and_eq_true] at hp
    exact ih hp.1 hc
  | altSecond _ ih =>
    simp only [avoidsQuotes, Bool.and_eq_true] at hp
    exact ih hp.2 hc
  | manyMore _ _ _ ih ih' =>
    obtain ⟨v', hc', hv'⟩ := ih hp hc
    obtain ⟨v'', hc'', hv''⟩ := ih' hp hc'
    exact ⟨v'', hc'', hv''.trans hv'⟩
  | capture _ ih => exact ih hp hc

/-! ## Parts without quotes -/

/-- From one place to another a text without quotes is taken. -/
def TakesNoQuote (c c' : Cursor) : Prop :=
  ∃ text, c.rest = text ++ c'.rest ∧ c'.pos = c.pos + Text.byteLength text ∧
    ∀ a ∈ text, isQuote a = false

theorem TakesNoQuote.refl (c : Cursor) : TakesNoQuote c c :=
  ⟨[], rfl, rfl, fun _ ha => absurd ha List.not_mem_nil⟩

theorem TakesNoQuote.trans {c c' c'' : Cursor} (h : TakesNoQuote c c') (h' : TakesNoQuote c' c'') :
    TakesNoQuote c c'' := by
  obtain ⟨text, hrest, hpos, hquotes⟩ := h
  obtain ⟨text', hrest', hpos', hquotes'⟩ := h'
  refine ⟨text ++ text', ?_, ?_, fun a ha => ?_⟩
  · rw [hrest, hrest', List.append_assoc]
  · rw [hpos', hpos, Text.byteLength_append, Nat.add_assoc]
  · exact (List.mem_append.1 ha).elim (hquotes a) (hquotes' a)

/-- A pattern that takes no quote takes a text without quotes. -/
theorem Matches.takesNoQuote {c c' : Cursor} {caps caps' : Captures Label}
    (h : Matches p c caps c' caps') (hp : p.avoidsQuotes = true) : TakesNoQuote c c' := by
  induction h with
  | empty | manyDone | wordEdge | lineStart | textEnd => exact .refl _
  | @char test before pos a rest caps ha =>
    refine ⟨[a], rfl, rfl, fun b hb => ?_⟩
    obtain rfl := List.mem_singleton.1 hb
    cases hq : isQuote b with
    | false => rfl
    | true =>
      rw [test_eq_false_of_avoidsQuotes hp hq] at ha
      cases ha
  | altFirst _ ih =>
    simp only [avoidsQuotes, Bool.and_eq_true] at hp
    exact ih hp.1
  | altSecond _ ih =>
    simp only [avoidsQuotes, Bool.and_eq_true] at hp
    exact ih hp.2
  | capture _ ih => exact ih hp
  | seq _ _ ih ih' =>
    simp only [avoidsQuotes, Bool.and_eq_true] at hp
    exact (ih hp.1).trans (ih' hp.2)
  | manyMore _ _ _ ih ih' => exact (ih hp).trans (ih' hp)

section Parts

variable [DecidableEq Label] {label : Label} {source : List Char}

/-- Whether no part under a label takes a quote. -/
def keepsQuotesOut (label : Label) : Pattern Label → Bool
  | seq p q | alt p q => p.keepsQuotesOut label && q.keepsQuotesOut label
  | many _ p => p.keepsQuotesOut label
  | capture l p => (l != label || p.avoidsQuotes) && p.keepsQuotesOut label
  | empty | char _ | wordEdge | lineStart | textEnd => true

/-- A text of the source without quotes. -/
def Quoteless (source : List Char) (s : Span) : Prop :=
  ∃ text, s.Covers source text ∧ ∀ a ∈ text, isQuote a = false

theorem Matches.quoteless {c c' : Cursor} {caps caps' : Captures Label}
    (h : Matches p c caps c' caps') (hp : p.keepsQuotesOut label = true) (hat : c.At source)
    (hcaps : ∀ part ∈ caps, part.1 = label → Quoteless source part.2) :
    ∀ part ∈ caps', part.1 = label → Quoteless source part.2 := by
  induction h with
  | empty | char | manyDone | wordEdge | lineStart | textEnd => exact hcaps
  | seq hfirst _ ih ih' =>
    simp only [keepsQuotesOut, Bool.and_eq_true] at hp
    exact ih' hp.2 (hfirst.at hat).1 (ih hp.1 hat hcaps)
  | altFirst _ ih =>
    simp only [keepsQuotesOut, Bool.and_eq_true] at hp
    exact ih hp.1 hat hcaps
  | altSecond _ ih =>
    simp only [keepsQuotesOut, Bool.and_eq_true] at hp
    exact ih hp.2 hat hcaps
  | manyMore _ hround _ ih ih' => exact ih' hp (hround.at hat).1 (ih hp hat hcaps)
  | @capture l p c caps c' caps' hbody ih =>
    simp only [keepsQuotesOut, Bool.and_eq_true, Bool.or_eq_true, bne_iff_ne] at hp
    intro part hpart hlabel
    rcases List.mem_cons.1 hpart with rfl | hpart
    · obtain ⟨text, hrest, hpos, hquotes⟩ :=
        hbody.takesNoQuote (hp.1.resolve_left fun hne => hne hlabel)
      obtain ⟨front, hsource, hfront, -⟩ := hat
      refine ⟨text, ⟨front, c'.rest, ?_, hfront, ?_⟩, hquotes⟩
      · rw [hsource, hrest]
      · rw [hpos, hfront]
    · exact ih hp.2 hat hcaps part hpart hlabel

/-- The part of a match under a label that keeps quotes out has none. -/
theorem quoteless_of_part? {m : Match Label} {s : Span} (h : Found p source m)
    (hp : p.keepsQuotesOut label = true) (hpart : m.part? label = some s) :
    ∀ a ∈ s.text source, isQuote a = false := by
  obtain ⟨part, hfind, rfl⟩ := Option.map_eq_some_iff.1 hpart
  obtain ⟨text, hcovers, hquotes⟩ := h.matched.quoteless hp h.front_at
    (fun part hpart => absurd hpart List.not_mem_nil) part (List.mem_of_find?_eq_some hfind)
    (by simpa using List.find?_some hfind)
  rwa [hcovers.text_eq]

end Parts

/-! ## Failing within plain texts -/

/-- A place in front of the rest of a plain text and the quote that ends it. -/
def Inside (q : Char) (c : Cursor) : Prop :=
  ∃ v r, c.rest = v ++ q :: r ∧ Text.Inert v

/-- What follows a pattern fails within plain texts that a given quote ends. -/
def FailsInside {β : Type} (q : Char) (k : Follow Label β) : Prop :=
  ∀ c caps, Inside q c → k c caps = none

variable {β : Type} {k : Follow Label β}

/-- A pattern that takes no quote stays within a plain text, so what follows it fails there. -/
theorem FailsInside.of_avoidsQuotes {q : Char} (hk : FailsInside q k) (hp : p.avoidsQuotes = true)
    (hq : isQuote q = true) : FailsInside q (p.followedBy k) := by
  intro c caps hc
  obtain ⟨v, r, hrest, hv⟩ := hc
  refine attempt_eq_none fun c' caps' hmatch => ?_
  obtain ⟨v', hrest', hsuffix⟩ := hmatch.inside hp hq hrest
  exact hk c' caps' ⟨v', r, hrest', hv.of_suffix hsuffix⟩

/-- A character that is neither plain nor the quote is not found within a plain text. -/
theorem failsInside_char {test : Char → Bool} {q : Char}
    (hplain : ∀ a, isPlain a = true → test a = false) (hq : test q = false)
    (k : Follow Label β) : FailsInside q ((char test).followedBy k) := by
  rintro ⟨before, pos, rest⟩ caps ⟨v, r, hrest, hv⟩
  obtain rfl : rest = v ++ q :: r := hrest
  cases v with
  | nil => exact if_neg (by simp [hq])
  | cons a v =>
    have ha := hplain a (hv.1 a List.mem_cons_self)
    exact if_neg (by simp [ha])

/-- Within plain texts a pattern fails, whatever follows it. -/
structure Balks (p : Pattern Label) : Prop where
  fails : ∀ {β : Type} (k : Follow Label β) {q : Char}, isQuote q = true →
    FailsInside q (p.followedBy k)

variable {p' : Pattern Label} {test : Char → Bool}

theorem Balks.char (hplain : ∀ a, isPlain a = true → test a = false)
    (hquote : ∀ q, isQuote q = true → test q = false) : Balks (char test : Pattern Label) :=
  ⟨fun k _ hq => failsInside_char hplain (hquote _ hq) k⟩

theorem Balks.append (hp : Balks p) (p' : Pattern Label) : Balks (p ++ p') :=
  ⟨fun k _ hq => hp.fails (p'.followedBy k) hq⟩

theorem Balks.behind (hp' : Balks p') (hp : p.avoidsQuotes = true) : Balks (p ++ p') :=
  ⟨fun k _ hq => (hp'.fails k hq).of_avoidsQuotes hp hq⟩

theorem Balks.alt (hp : Balks p) (hp' : Balks p') : Balks (alt p p') := by
  refine ⟨fun k q hq c caps hc => ?_⟩
  show (p.attempt c caps k).orElse _ = none
  have hfirst : p.attempt c caps k = none := hp.fails k hq c caps hc
  rw [hfirst]
  exact hp'.fails k hq c caps hc

/-! ## Runs -/

theorem orElse_eq_left {a b : Option β} (h : b = none ∨ a.isSome = true) :
    (a.orElse fun _ => b) = a := by
  rcases h with rfl | h
  · cases a <;> rfl
  · obtain ⟨x, rfl⟩ := Option.isSome_iff_exists.1 h
    rfl

/-- What follows a pattern succeeds everywhere. -/
def Succeeds (k : Follow Label β) : Prop := ∀ c caps, (k c caps).isSome = true

theorem Succeeds.run (hk : Succeeds k) (test : Char → Bool) :
    Succeeds ((run test).followedBy k) := by
  intro c caps
  unfold followedBy Pattern.run
  rw [attempt_many]
  dsimp only
  rw [if_pos rfl, Option.orElse_eq_or, Option.isSome_or, hk c caps, Bool.or_true]

/-- A run is not stopped within plain texts that a given quote ends: what follows it fails there, or
it takes all it can and what follows it succeeds everywhere. -/
def GoesOver (greedy : Bool) (q : Char) (k : Follow Label β) : Prop :=
  FailsInside q k ∨ greedy = true ∧ Succeeds k

variable {greedy : Bool} {q : Char}

theorem GoesOver.attempt_eq (hk : GoesOver greedy q k) {c : Cursor} (hc : Inside q c)
    {again : Option β} (hagain : greedy = true → Succeeds k → again.isSome = true)
    (caps : Captures Label) :
    (if greedy then again.orElse fun _ => k c caps
      else (k c caps).orElse fun _ => again) = again := by
  rcases hk with hk | ⟨rfl, hk⟩
  · rw [hk c caps hc]
    split
    · exact orElse_eq_left (.inl rfl)
    · rfl
  · exact orElse_eq_left (.inr (hagain rfl hk))

/-- A run that takes plain texts and a quote goes over a text that the quote ends. -/
theorem many_char_over (hplain : ∀ a, isPlain a = true → test a = true) (hq : test q = true)
    (hk : GoesOver greedy q k) {v : List Char} (hv : Text.Inert v) (before : Option Char)
    (pos : Nat) (r : List Char) (caps : Captures Label) :
    (many greedy (char test)).followedBy k ⟨before, pos, v ++ q :: r⟩ caps =
      (many greedy (char test)).followedBy k
        ⟨some q, pos + Text.byteLength v + q.utf8Size, r⟩ caps := by
  have hsome : greedy = true → Succeeds k → ∀ c,
      ((many greedy (char test)).attempt c caps k).isSome = true := by
    rintro rfl hk c
    exact hk.run test c caps
  unfold followedBy
  induction v generalizing before pos with
  | nil =>
    rw [List.nil_append, attempt_many_char_cons, if_pos hq, Text.byteLength_nil, Nat.add_zero]
    exact hk.attempt_eq ⟨[], r, rfl, hv⟩ (fun hgreedy h => hsome hgreedy h _) caps
  | cons a v ih =>
    have hrest := ih (hv.of_suffix (List.suffix_cons a v)) (some a) (pos + a.utf8Size)
    rw [Text.byteLength_cons, ← Nat.add_assoc pos, ← hrest, List.cons_append,
      attempt_many_char_cons, if_pos (hplain a (hv.1 a List.mem_cons_self))]
    exact hk.attempt_eq ⟨a :: v, r, rfl, hv⟩ (fun hgreedy h => hsome hgreedy h _) caps


/-- A run ends where the next character is none of its own. -/
theorem many_char_neg {a : Char} (ha : test a = false) (before : Option Char) (pos : Nat)
    (r : List Char) (caps : Captures Label) :
    (many greedy (char test)).followedBy k ⟨before, pos, a :: r⟩ caps =
      k ⟨before, pos, a :: r⟩ caps := by
  have hneg : ¬ test a = true := by
    rw [ha]
    exact Bool.false_ne_true
  unfold followedBy
  rw [attempt_many_char_cons, if_neg hneg]
  dsimp only
  split
  · rfl
  · exact orElse_eq_left (.inl rfl)

/-- A run that takes no plain character ends where a plain text starts. -/
theorem many_char_stop (hplain : ∀ a, isPlain a = true → test a = false) {x : List Char}
    (hx : Text.Plain x) (before : Option Char) (pos : Nat) (r : List Char)
    (caps : Captures Label) :
    (many greedy (char test)).followedBy k ⟨before, pos, x ++ r⟩ caps =
      k ⟨before, pos, x ++ r⟩ caps := by
  obtain ⟨a, v, rfl⟩ := List.exists_cons_of_ne_nil hx.1
  exact many_char_neg (hplain a (hx.2.1 a List.mem_cons_self)) before pos (v ++ r) caps

end Pattern

end EsModules
