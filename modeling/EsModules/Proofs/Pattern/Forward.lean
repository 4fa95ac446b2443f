import EsModules.Proofs.Pattern.Inside

/-!
# Attempts on known texts

What a pattern does in front of a text of which the characters are known: a literal takes its own
text, and a run takes all the characters that satisfy its test, or gives back those behind which
nothing follows.

* `Cursor.past`: the place behind a text.
* `Pattern.attempt_literal`, `Pattern.attempt_literal_ne`: literals.
* `Pattern.attempt_run`, `Pattern.attempt_run_back`: greedy runs.
* `Pattern.find?_past`: searches go over characters that start no match.
* `Pattern.replaceAll_eq_self`: replacements that change nothing.
* `Pattern.Replaces`: what becomes of a text, match by match.
-/

namespace EsModules

/-- The place behind a text and in front of another. -/
def Cursor.past (before : Option Char) (pos : Nat) (text rest : List Char) : Cursor :=
  ⟨text.getLast?.or before, pos + Text.byteLength text, rest⟩

theorem Cursor.past_nil (before : Option Char) (pos : Nat) (rest : List Char) :
    past before pos [] rest = ⟨before, pos, rest⟩ := rfl

theorem Cursor.past_cons (before : Option Char) (pos : Nat) (a : Char) (text rest : List Char) :
    past before pos (a :: text) rest = past (some a) (pos + a.utf8Size) text rest := by
  unfold past
  rw [List.getLast?_cons, Text.byteLength_cons, ← Nat.add_assoc]
  cases text.getLast? <;> rfl

theorem Cursor.past_append (before : Option Char) (pos : Nat) (x text rest : List Char) :
    past before pos (x ++ text) rest =
      past (x.getLast?.or before) (pos + Text.byteLength x) text rest := by
  induction x generalizing before pos with
  | nil => rfl
  | cons a x ih =>
    have hpast := past_cons before pos a x rest
    obtain ⟨hbefore, hpos, -⟩ := Cursor.mk.inj hpast
    rw [List.cons_append, past_cons, ih, hbefore, hpos]

namespace Pattern

variable {Label β : Type} {p : Pattern Label} {test : Char → Bool} {before : Option Char} {pos : Nat}
  {caps : Captures Label} {k : Follow Label β}

/-! ## Literals -/

/-- A character fails where its test does. -/
theorem attempt_char_neg {a : Char} (ha : test a = false) (rest : List Char) :
    (char test).attempt ⟨before, pos, a :: rest⟩ caps k = none :=
  if_neg (by simp [ha])

/-- A literal takes its text. -/
theorem attempt_literal (text rest : List Char) :
    (literal text).attempt ⟨before, pos, text ++ rest⟩ caps k =
      k (.past before pos text rest) caps := by
  induction text generalizing before pos with
  | nil => rfl
  | cons a text ih =>
    rw [Cursor.past_cons, ← ih]
    exact if_pos (by simp)

/-- A literal fails where another text stands. -/
theorem attempt_literal_not {text rest : List Char} (h : ¬ text <+: rest) :
    (literal text).attempt ⟨before, pos, rest⟩ caps k = none := by
  induction text generalizing before pos rest with
  | nil => exact absurd List.nil_prefix h
  | cons a text ih =>
    cases rest with
    | nil => rfl
    | cons b rest =>
      show (if (b == a) = true then
        (literal text).attempt ⟨some b, pos + b.utf8Size, rest⟩ caps k else none) = none
      split
      · rename_i hab
        exact ih fun hbegins => h (List.cons_prefix_cons.2 ⟨(eq_of_beq hab).symm, hbegins⟩)
      · rfl

/-- A literal fails where another character stands. -/
theorem attempt_literal_ne {a : Char} {text rest : List Char} (h : rest.head? ≠ some a) :
    (literal (a :: text)).attempt ⟨before, pos, rest⟩ caps k = none := by
  refine attempt_literal_not ?_
  rintro ⟨behind, rfl⟩
  exact h rfl

/-! ## Runs -/

theorem attempt_run_nil : (run test).attempt ⟨before, pos, []⟩ caps k = k ⟨before, pos, []⟩ caps := by
  unfold run
  rw [attempt_many]
  rfl

/-- A run goes on with the next character if it can, and else ends. -/
theorem attempt_run_cons (a : Char) (rest : List Char) :
    (run test).attempt ⟨before, pos, a :: rest⟩ caps k =
      (if test a then (run test).attempt ⟨some a, pos + a.utf8Size, rest⟩ caps k else none).or
        (k ⟨before, pos, a :: rest⟩ caps) := by
  unfold run
  rw [attempt_many_char_cons]
  exact Option.orElse_eq_or

/-- A run fails if what follows it fails wherever the run can end. -/
theorem attempt_run_none {rest : List Char}
    (h : ∀ w w', rest = w ++ w' → (∀ a ∈ w, test a = true) →
      k (.past before pos w w') caps = none) :
    (run test).attempt ⟨before, pos, rest⟩ caps k = none := by
  have hhere := h [] rest rfl fun a ha => absurd ha List.not_mem_nil
  rw [Cursor.past_nil] at hhere
  induction rest generalizing before pos with
  | nil => rw [attempt_run_nil, hhere]
  | cons a rest ih =>
    rw [attempt_run_cons, hhere, Option.or_none]
    split
    · rename_i ha
      have hrest : ∀ w w', rest = w ++ w' → (∀ b ∈ w, test b = true) →
          k (.past (some a) (pos + a.utf8Size) w w') caps = none := by
        intro w w' hw htest
        rw [← Cursor.past_cons]
        exact h (a :: w) w' (by rw [hw]; rfl) (List.forall_mem_cons.2 ⟨ha, htest⟩)
      exact ih hrest (hrest [] rest rfl fun b hb => absurd hb List.not_mem_nil)
    · rfl

/-- A run gives back what it has taken up to the last place at which what follows it succeeds. -/
theorem attempt_run_back {text rest : List Char} (htext : ∀ a ∈ text, test a = true)
    (hstop : ∀ w w', rest = w ++ w' → w ≠ [] → (∀ a ∈ w, test a = true) →
      k (.past before pos (text ++ w) w') caps = none)
    (hk : (k (.past before pos text rest) caps).isSome = true) :
    (run test).attempt ⟨before, pos, text ++ rest⟩ caps k = k (.past before pos text rest) caps := by
  induction text generalizing before pos with
  | nil =>
    cases rest with
    | nil => exact attempt_run_nil
    | cons a rest =>
      rw [List.nil_append, attempt_run_cons, Cursor.past_nil]
      split
      · rename_i ha
        rw [attempt_run_none fun w w' hw htest => ?_, Option.none_or]
        rw [← Cursor.past_cons]
        exact hstop (a :: w) w' (by rw [hw]; rfl) (List.cons_ne_nil _ _)
          (List.forall_mem_cons.2 ⟨ha, htest⟩)
      · exact Option.none_or
  | cons a text ih =>
    obtain ⟨ha, htext⟩ := List.forall_mem_cons.1 htext
    rw [Cursor.past_cons] at hk
    have hrest := ih htext (fun w w' hw hne htest => by
      rw [← Cursor.past_cons]
      exact hstop w w' hw hne htest) hk
    obtain ⟨b, hb⟩ := Option.isSome_iff_exists.1 hk
    rw [List.cons_append, attempt_run_cons, if_pos ha, hrest, Cursor.past_cons, hb]
    rfl

/-- A run takes all that it can if what follows it succeeds there. -/
theorem attempt_run {text rest : List Char} (htext : ∀ a ∈ text, test a = true)
    (hrest : ∀ a ∈ rest.head?, test a = false)
    (hk : (k (.past before pos text rest) caps).isSome = true) :
    (run test).attempt ⟨before, pos, text ++ rest⟩ caps k = k (.past before pos text rest) caps := by
  refine attempt_run_back htext (fun w w' hw hne htest => ?_) hk
  obtain ⟨a, w, rfl⟩ := List.exists_cons_of_ne_nil hne
  have ha := hrest a (by rw [hw]; rfl)
  rw [htest a List.mem_cons_self] at ha
  cases ha

/-! ## Searches -/

/-- A search goes over characters at which there is no match. -/
theorem find?_past {text : List Char}
    (h : ∀ a ∈ text, ∀ before pos rest, p.matchAt? ⟨before, pos, a :: rest⟩ = none)
    (before : Option Char) (pos : Nat) (rest : List Char) :
    p.find? before pos (text ++ rest) =
      p.find? (text.getLast?.or before) (pos + Text.byteLength text) rest := by
  induction text generalizing before pos with
  | nil => rfl
  | cons a text ih =>
    obtain ⟨ha, htext⟩ := List.forall_mem_cons.1 h
    have hpast := Cursor.past_cons before pos a text rest
    obtain ⟨hbefore, hpos, -⟩ := Cursor.mk.inj hpast
    rw [List.cons_append, find?, ha, hbefore, hpos]
    exact ih htext _ _

theorem first?_eq_none {text : List Char}
    (hnil : p.matchAt? ⟨text.getLast?, Text.byteLength text, []⟩ = none)
    (h : ∀ a ∈ text, ∀ before pos rest, p.matchAt? ⟨before, pos, a :: rest⟩ = none) :
    p.first? text = none := by
  have hpast := find?_past h none 0 []
  rw [List.append_nil, Option.or_none, Nat.zero_add] at hpast
  rw [first?, hpast]
  exact hnil

/-! ## Replacements -/

theorem replaceFirst_of_first? {new text : List Char} (h : p.first? text = none) :
    p.replaceFirst new text = text := by
  rw [replaceFirst, h]
  rfl

theorem replaceAll_of_first? {new text : List Char} (h : p.first? text = none) :
    p.replaceAll new text = text := by
  have hnone : p.matchesIn text = [] := by
    have hfind : p.find? (Cursor.start text).before (Cursor.start text).pos
        (Cursor.start text).rest = none := h
    rw [matchesIn, select, selectFrom, hfind]
  rw [replaceAll, hnone]
  rfl

/-- The edits of matches that take the new text change nothing. -/
theorem splices_edits {new text : List Char} (hnew : new ≠ [])
    (h : ∀ c m, c.rest <:+ text → p.matchAt? c = some m →
      c.rest = new ++ m.back.rest ∧ m.back.pos = c.pos + Text.byteLength new)
    {accept : Match Label → Bool} {n : Nat} {c : Cursor} (hc : c.rest <:+ text)
    (hn : c.rest.length < n) :
    Edit.Splices c.pos (edits new (p.selectFrom accept n c)) c.rest c.rest := by
  induction hlength : c.rest.length using Nat.strongRecOn generalizing c with
  | ind length ih =>
    rw [selectFrom_eq hn]
    cases hmatch : (p.matchAt? c).filter accept with
    | some m =>
      obtain ⟨hm, -⟩ := Option.filter_eq_some_iff.1 hmatch
      obtain ⟨hrest, hpos⟩ := h c m hc hm
      have hfront := front_of_matchAt? hm
      have hsize := Text.byteLength_pos hnew
      have hresume : m.resume? = some m.back := by
        rw [Match.resume?, hfront, if_pos (by omega)]
      have hshorter : m.back.rest.length < c.rest.length := by
        have hpos := List.length_pos_iff.2 hnew
        rw [hrest, List.length_append]
        omega
      have hbehind : m.back.rest <:+ text := List.IsSuffix.trans ⟨new, hrest.symm⟩ hc
      have hmore := ih m.back.rest.length (hlength ▸ hshorter) hbehind (by omega) rfl
      dsimp only
      rw [hresume]
      have hedit : Edit.Splices c.pos (⟨m.span, new⟩ :: edits new (p.selectFrom accept n m.back))
          ([] ++ (new ++ m.back.rest)) ([] ++ (new ++ m.back.rest)) :=
        .edit (congrArg Cursor.pos hfront) (by rw [Match.span, hfront, hpos]) hmore
      rw [List.nil_append, ← hrest] at hedit
      exact hedit
    | none =>
      obtain ⟨before, pos, rest⟩ := c
      cases rest with
      | nil => exact .done
      | cons a rest =>
        have hbehind : rest <:+ text := (List.suffix_cons a rest).trans hc
        have hmore := @ih rest.length (by rw [← hlength]; exact Nat.lt_succ_self _)
          ⟨some a, pos + a.utf8Size, rest⟩ hbehind (Nat.lt_of_succ_lt hn) rfl
        have hgap : Edit.Splices pos [] [a] [a] := .done
        exact hgap.append hmore

/-- A replacement of matches by the text that they take changes nothing. -/
theorem replaceAll_eq_self {new text : List Char} (hnew : new ≠ [])
    (h : ∀ c m, c.rest <:+ text → p.matchAt? c = some m →
      c.rest = new ++ m.back.rest ∧ m.back.pos = c.pos + Text.byteLength new) :
    p.replaceAll new text = text :=
  (splices_edits hnew h (c := .start text) List.suffix_rfl (Nat.lt_succ_self _)).applyFrom_eq

/-- What becomes of a text when the matches of a pattern are replaced: a character at which there is
no match stays, and a text that a match takes is replaced. -/
inductive Replaces (p : Pattern Label) (new : List Char) : List Char → List Char → Prop
  | done (h : ∀ before pos, p.matchAt? ⟨before, pos, []⟩ = none) : Replaces p new [] []
  | keep {a : Char} {rest out : List Char}
      (h : ∀ before pos, p.matchAt? ⟨before, pos, a :: rest⟩ = none)
      (more : Replaces p new rest out) : Replaces p new (a :: rest) (a :: out)
  | swap {text rest out : List Char} (hne : text ≠ [])
      (h : ∀ before pos, ∃ caps, p.matchAt? ⟨before, pos, text ++ rest⟩ =
        some ⟨⟨before, pos, text ++ rest⟩, .past before pos text rest, caps⟩)
      (more : Replaces p new rest out) : Replaces p new (text ++ rest) (new ++ out)

/-- Characters at which there is no match, whatever follows them, stay. -/
theorem Replaces.keep_all {new text rest out : List Char}
    (h : ∀ a ∈ text, ∀ before pos rest, p.matchAt? ⟨before, pos, a :: rest⟩ = none)
    (more : Replaces p new rest out) : Replaces p new (text ++ rest) (text ++ out) := by
  induction text with
  | nil => exact more
  | cons a text ih =>
    obtain ⟨ha, htext⟩ := List.forall_mem_cons.1 h
    exact .keep (fun before pos => ha before pos _) (ih htext)

theorem Replaces.splices {new text out : List Char} (h : Replaces p new text out) {n : Nat}
    {c : Cursor} (hc : c.rest = text) (hn : text.length < n) :
    Edit.Splices c.pos (edits new (p.selectFrom (fun _ => true) n c)) text out := by
  induction h generalizing c with
  | done h =>
    obtain ⟨before, pos, rest⟩ := c
    subst hc
    rw [selectFrom_eq hn, h]
    exact .done
  | @keep a rest out h more ih =>
    obtain ⟨before, pos, rest⟩ := c
    subst hc
    rw [selectFrom_eq hn, h]
    have hmore := @ih ⟨some a, pos + a.utf8Size, rest⟩ rfl (Nat.lt_of_succ_lt hn)
    have hgap : Edit.Splices pos [] [a] [a] := .done
    exact hgap.append hmore
  | @swap text rest out hne h more ih =>
    obtain ⟨before, pos, rest⟩ := c
    subst hc
    obtain ⟨caps, hmatch⟩ := h before pos
    have hsize := Text.byteLength_pos hne
    let m : Match Label := ⟨⟨before, pos, text ++ rest⟩, .past before pos text rest, caps⟩
    have hresume : m.resume? = some (.past before pos text rest) :=
      if_pos (Nat.lt_add_of_pos_right hsize)
    have hselect : p.selectFrom (fun _ => true) n ⟨before, pos, text ++ rest⟩ =
        m :: p.selectFrom (fun _ => true) n (.past before pos text rest) := by
      rw [selectFrom_eq hn, hmatch]
      show m :: (m.resume?.map _).getD [] = _
      rw [hresume]
      rfl
    have hshorter : rest.length < n := by
      rw [List.length_append] at hn
      omega
    have hmore := @ih (.past before pos text rest) rfl hshorter
    rw [hselect]
    have hedit : Edit.Splices pos (⟨m.span, new⟩ :: edits new (p.selectFrom (fun _ => true) n m.back))
        ([] ++ (text ++ rest)) ([] ++ (new ++ out)) := .edit rfl rfl hmore
    exact hedit

/-- Replacing all matches gives what becomes of the text. -/
theorem Replaces.replaceAll_eq {new text out : List Char} (h : Replaces p new text out) :
    p.replaceAll new text = out :=
  (h.splices (c := .start text) rfl (Nat.lt_succ_self _)).applyFrom_eq

/-- A replacement of the first match. -/
theorem replaceFirst_of_span {new front old back : List Char} {m : Match Label}
    (h : p.first? (front ++ (old ++ back)) = some m)
    (hspan : m.span = ⟨Text.byteLength front, Text.byteLength front + Text.byteLength old⟩) :
    p.replaceFirst new (front ++ (old ++ back)) = front ++ (new ++ back) := by
  rw [replaceFirst, h]
  refine Edit.Splices.applyFrom_eq (.edit ?_ ?_ .done)
  · exact (congrArg Span.start hspan).trans (Nat.zero_add _).symm
  · show m.span.stop = m.span.start + Text.byteLength old
    rw [hspan]

end Pattern

end EsModules
