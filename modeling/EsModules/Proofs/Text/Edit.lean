import EsModules.Text.Edit

/-!
# Edits of covered texts

An edit replaces a text that its span covers.  Edits that follow one another are applied by leaving
what stands between the covered texts as it is and putting each replacement in the place of its
text.

* `Span.Covers`: a span lies between two characters of a source, with a text between them.
* `Edit.areOrdered_iff`: edits follow one another if each ends where or before the next starts.
* `Edit.Splices`, `Edit.splices_applyAll`: what ordered edits make of a source.
* `Edit.Moves`: where a place of a source lies once the source is edited.
-/

namespace EsModules

/-! ## Cuts between characters -/

namespace Text

theorem takeBytes_append (a b : List Char) : takeBytes (byteLength a) (a ++ b) = a := by
  induction a with
  | nil => cases b <;> rfl
  | cons c a ih =>
    obtain ⟨n, hn⟩ := Nat.exists_eq_succ_of_ne_zero (Nat.ne_of_gt c.utf8Size_pos)
    have hstep : byteLength (c :: a) = (byteLength a + n) + 1 := by
      rw [byteLength_cons, hn]
      omega
    have hback : byteLength a + n + 1 - c.utf8Size = byteLength a := by omega
    rw [hstep, List.cons_append, takeBytes, hback, ih]

theorem dropBytes_append (a b : List Char) : dropBytes (byteLength a) (a ++ b) = b := by
  induction a with
  | nil => cases b <;> rfl
  | cons c a ih =>
    obtain ⟨n, hn⟩ := Nat.exists_eq_succ_of_ne_zero (Nat.ne_of_gt c.utf8Size_pos)
    have hstep : byteLength (c :: a) = (byteLength a + n) + 1 := by
      rw [byteLength_cons, hn]
      omega
    have hback : byteLength a + n + 1 - c.utf8Size = byteLength a := by omega
    rw [hstep, List.cons_append, dropBytes, hback, ih]

/-- A text cannot be cut within the bytes of a character. -/
theorem not_inside {source front back a b : List Char} {c : Char} (hs : source = front ++ c :: back)
    (hcut : source = a ++ b) (hlt : byteLength front < byteLength a) :
    ¬ byteLength a < byteLength front + c.utf8Size := by
  intro hin
  obtain ⟨m, rfl, -⟩ := exists_append_of_byteLength_lt (hs.symm.trans hcut) hlt
  simp only [byteLength_append, byteLength_cons] at hin
  omega

end Text

/-! ## Covered texts -/

/-- A span covers a text of a source. -/
def Span.Covers (source text : List Char) (s : Span) : Prop :=
  ∃ front back, source = front ++ (text ++ back) ∧ s.start = Text.byteLength front ∧
    s.stop = Text.byteLength front + Text.byteLength text

variable {source text : List Char}

theorem Span.Covers.start_le {s : Span} (h : s.Covers source text) : s.start ≤ s.stop := by
  obtain ⟨front, back, -, hstart, hstop⟩ := h
  omega

/-- What a span at the start covers is where a source starts. -/
theorem Span.Covers.head?_eq {c : Char} {stop : Nat} (h : (⟨0, stop⟩ : Span).Covers source text)
    (hc : text.head? = some c) : source.head? = some c := by
  obtain ⟨front, back, rfl, hstart, -⟩ := h
  cases front with
  | nil => rw [List.nil_append, List.head?_append, hc, Option.some_or]
  | cons d front =>
    have hpos := d.utf8Size_pos
    rw [Text.byteLength_cons] at hstart
    dsimp only at hstart
    omega

theorem Span.Covers.text_eq {s : Span} (h : s.Covers source text) : s.text source = text := by
  obtain ⟨front, back, rfl, hstart, hstop⟩ := h
  have hlength : s.stop - s.start = Text.byteLength text := by omega
  unfold Span.text Text.slice
  rw [hlength, hstart, Text.dropBytes_append, Text.takeBytes_append]

/-- What can be cut out of a source between two offsets is what lies there. -/
theorem Text.slice?_eq_some_iff {s : Span} :
    Text.slice? s.start s.stop source = some text ↔ s.Covers source text := by
  unfold Text.slice?
  split
  · rename_i hle
    simp only [Option.bind_eq_some_iff, Option.map_eq_some_iff, Prod.exists,
      Text.splitAt?_eq_some_iff]
    constructor
    · rintro ⟨front, _, ⟨rfl, hstart⟩, _, back, ⟨rfl, hstop⟩, rfl⟩
      exact ⟨front, back, rfl, hstart, by omega⟩
    · rintro ⟨front, back, rfl, hstart, hstop⟩
      exact ⟨front, text ++ back, ⟨rfl, hstart⟩, text, back, ⟨rfl, by omega⟩, rfl⟩
  · rename_i hlt
    exact iff_of_false nofun fun h => hlt h.start_le

/-- A text covered behind a front of the source lies in the rest. -/
theorem Span.Covers.exists_append {s : Span} (h : s.Covers source text) {front rest : List Char}
    (hsource : source = front ++ rest) (hle : Text.byteLength front ≤ s.start) :
    ∃ gap back, rest = gap ++ (text ++ back) ∧
      s.start = Text.byteLength front + Text.byteLength gap := by
  obtain ⟨before, back, hsplit, hstart, -⟩ := h
  obtain ⟨gap, rfl, hrest⟩ := Text.exists_append_of_byteLength_le
    (hsource.symm.trans hsplit) (hstart ▸ hle)
  exact ⟨gap, back, hrest, by rw [hstart, Text.byteLength_append]⟩

namespace Edit

/-! ## Order -/

/-- Edits follow one another from an offset on if none starts in front of it and each ends where or
before the next starts. -/
theorem areOrdered_iff {es : List Edit} (h : ∀ e ∈ es, e.span.start ≤ e.span.stop)
    {offset : Nat} : areOrdered offset es = true ↔
      (∀ e ∈ es, offset ≤ e.span.start) ∧
        es.Pairwise fun a b => a.span.stop ≤ b.span.start := by
  induction es generalizing offset with
  | nil => exact iff_of_true rfl ⟨fun e he => absurd he List.not_mem_nil, .nil⟩
  | cons e es ih =>
    have hfirst : e.span.start ≤ e.span.stop := h e List.mem_cons_self
    rw [areOrdered, Bool.and_eq_true, decide_eq_true_eq,
      ih fun d hd => h d (List.mem_cons_of_mem e hd), List.pairwise_cons]
    constructor
    · rintro ⟨hoffset, hbehind, hpairs⟩
      refine ⟨fun d hd => ?_, hbehind, hpairs⟩
      rcases List.mem_cons.1 hd with rfl | hd
      · exact hoffset
      · have hstart := hbehind d hd
        omega
    · rintro ⟨hoffset, hbehind, hpairs⟩
      exact ⟨hoffset e List.mem_cons_self, hbehind, hpairs⟩

/-! ## Splicing -/

/-- What edits make of the text that follows an offset: what stands in front of an edit stays, and
the replacement takes the place of the text that the edit covers. -/
inductive Splices : Nat → List Edit → List Char → List Char → Prop
  | done {offset : Nat} {rest : List Char} : Splices offset [] rest rest
  | edit {offset : Nat} {e : Edit} {es : List Edit} {gap old rest out : List Char}
      (start : e.span.start = offset + Text.byteLength gap)
      (stop : e.span.stop = e.span.start + Text.byteLength old)
      (more : Splices e.span.stop es rest out) :
      Splices offset (e :: es) (gap ++ (old ++ rest)) (gap ++ (e.replacement ++ out))

/-- Every edit lies within the text, and none ends in front of its start. -/
theorem Splices.bounds {offset : Nat} {es : List Edit} {rest out : List Char}
    (h : Splices offset es rest out) : ∀ e ∈ es, offset ≤ e.span.start ∧
      e.span.start ≤ e.span.stop ∧ e.span.stop ≤ offset + Text.byteLength rest := by
  induction h with
  | done => exact fun e he => absurd he List.not_mem_nil
  | edit start stop more ih =>
    intro d hd
    simp only [Text.byteLength_append]
    rcases List.mem_cons.1 hd with rfl | hd
    · omega
    · obtain ⟨hstart, hle, hstop⟩ := ih d hd
      omega

/-- What edits make of a text is what applying them gives. -/
theorem Splices.applyFrom_eq {offset : Nat} {es : List Edit} {rest out : List Char}
    (h : Splices offset es rest out) : applyFrom offset es rest = out := by
  induction h with
  | done => rfl
  | @edit offset e es gap old rest out start stop more ih =>
    have hgap : e.span.start - offset = Text.byteLength gap := by omega
    have hboth : e.span.stop - offset = Text.byteLength (gap ++ old) := by
      rw [Text.byteLength_append]
      omega
    rw [applyFrom, hgap, hboth, Text.takeBytes_append, ← List.append_assoc gap old rest,
      Text.dropBytes_append, ih, List.append_assoc]

/-- Edits of a text and edits of what follows it are edits of both. -/
theorem Splices.append {offset : Nat} {es fs : List Edit} {a a' b b' : List Char}
    (h : Splices offset es a a') (h' : Splices (offset + Text.byteLength a) fs b b') :
    Splices offset (es ++ fs) (a ++ b) (a' ++ b') := by
  induction h with
  | @done offset rest =>
    cases h' with
    | done => exact .done
    | @edit _ e fs gap old behind out start stop more =>
      rw [List.nil_append, ← List.append_assoc, ← List.append_assoc rest]
      refine .edit ?_ stop more
      rw [Text.byteLength_append]
      omega
  | @edit offset e es gap old rest out start stop more ih =>
    have hoffset : offset + Text.byteLength (gap ++ (old ++ rest)) =
        e.span.stop + Text.byteLength rest := by
      simp only [Text.byteLength_append]
      omega
    simp only [List.cons_append, List.append_assoc]
    exact .edit start stop (ih (hoffset ▸ h'))

/-- Text in front of all edits stays. -/
theorem Splices.exists_append {offset : Nat} {es : List Edit} {a b out : List Char}
    (h : Splices offset es (a ++ b) out)
    (hstart : ∀ e ∈ es, offset + Text.byteLength a ≤ e.span.start) :
    ∃ b', out = a ++ b' ∧ Splices (offset + Text.byteLength a) es b b' := by
  generalize hinput : a ++ b = input at h
  cases h with
  | done => exact ⟨b, hinput.symm, .done⟩
  | @edit _ e es gap old rest out start stop more =>
    have hle := hstart e List.mem_cons_self
    obtain ⟨gap, rfl, rfl⟩ := Text.exists_append_of_byteLength_le hinput (by omega)
    rw [Text.byteLength_append] at start
    exact ⟨gap ++ (e.replacement ++ out), List.append_assoc _ _ _, .edit (by omega) stop more⟩

/-- Edits none of which goes across the end of a front are those of the front and those of what
follows it. -/
theorem Splices.split {offset : Nat} {es : List Edit} {a b out : List Char}
    (h : Splices offset es (a ++ b) out)
    (hsides : ∀ e ∈ es, e.span.stop ≤ offset + Text.byteLength a ∨
      offset + Text.byteLength a ≤ e.span.start) :
    ∃ front back a' b', es = front ++ back ∧ out = a' ++ b' ∧ Splices offset front a a' ∧
      Splices (offset + Text.byteLength a) back b b' := by
  generalize hinput : a ++ b = input at h
  induction h generalizing a with
  | done => exact ⟨[], [], a, b, rfl, hinput.symm, .done, .done⟩
  | @edit offset e es gap old rest out start stop more ih =>
    rcases hsides e List.mem_cons_self with hle | hle
    · have hback : (gap ++ old) ++ rest = a ++ b := by rw [hinput, List.append_assoc]
      have hlength : Text.byteLength (gap ++ old) ≤ Text.byteLength a := by
        rw [Text.byteLength_append]
        omega
      obtain ⟨a, rfl, hrest⟩ := Text.exists_append_of_byteLength_le hback hlength
      simp only [Text.byteLength_append] at hsides ⊢
      have hoffset : offset + (Text.byteLength gap + Text.byteLength old + Text.byteLength a) =
          e.span.stop + Text.byteLength a := by omega
      rw [hoffset] at hsides ⊢
      obtain ⟨front, back, a', b', rfl, rfl, hfront, hback⟩ :=
        ih (fun d hd => hsides d (List.mem_cons_of_mem e hd)) hrest.symm
      refine ⟨e :: front, back, gap ++ (e.replacement ++ a'), b', rfl, by simp, ?_, hback⟩
      rw [List.append_assoc]
      exact .edit start stop hfront
    · have hlength : Text.byteLength a ≤ Text.byteLength gap := by omega
      obtain ⟨gap, rfl, rfl⟩ := Text.exists_append_of_byteLength_le hinput hlength
      rw [Text.byteLength_append] at start
      refine ⟨[], e :: es, a, gap ++ (e.replacement ++ out), rfl, List.append_assoc _ _ _, .done,
        .edit (by omega) stop more⟩

theorem splices_applyFrom {es : List Edit} (h : ∀ e ∈ es, ∃ text, e.span.Covers source text)
    {front rest : List Char} (hsource : source = front ++ rest)
    (hordered : areOrdered (Text.byteLength front) es = true) :
    Splices (Text.byteLength front) es rest (applyFrom (Text.byteLength front) es rest) := by
  induction es generalizing front rest with
  | nil => exact .done
  | cons e es ih =>
    rw [areOrdered, Bool.and_eq_true, decide_eq_true_eq] at hordered
    obtain ⟨old, hold⟩ := h e List.mem_cons_self
    obtain ⟨gap, back, rfl, hstart⟩ := hold.exists_append hsource hordered.1
    have hstop : e.span.stop = e.span.start + Text.byteLength old := by
      obtain ⟨before, -, -, hs, hstop⟩ := hold
      omega
    have hgap : e.span.start - Text.byteLength front = Text.byteLength gap := by omega
    have hboth : e.span.stop - Text.byteLength front = Text.byteLength (gap ++ old) := by
      rw [Text.byteLength_append]
      omega
    have hfront : e.span.stop = Text.byteLength (front ++ (gap ++ old)) := by
      simp only [Text.byteLength_append]
      omega
    have hbehind : source = (front ++ (gap ++ old)) ++ back := by
      rw [hsource]
      simp
    have hmore := ih (fun d hd => h d (List.mem_cons_of_mem e hd)) hbehind (hfront ▸ hordered.2)
    rw [applyFrom, hgap, hboth, Text.takeBytes_append, ← List.append_assoc gap old back,
      Text.dropBytes_append, List.append_assoc, List.append_assoc]
    rw [← hfront] at hmore
    exact .edit hstart hstop hmore

/-- **Ordered edits** leave what stands between the texts that they cover as it is. -/
theorem splices_applyAll {es : List Edit} (h : ∀ e ∈ es, ∃ text, e.span.Covers source text)
    (hordered : areOrdered 0 es = true) : Splices 0 es source (applyAll es source) := by
  have hsource : source = [] ++ source := rfl
  exact splices_applyFrom h hsource hordered

/-! ## Places in both texts -/

/-- A place of a source that no edit goes across, and where it lies once the source is edited. -/
def Moves (source : List Char) (edits : List Edit) (place place' : Nat) : Prop :=
  ∃ front back a a' b, edits = front ++ back ∧ source = a ++ b ∧ Splices 0 front a a' ∧
    (∀ e ∈ back, place ≤ e.span.start) ∧ place = Text.byteLength a ∧ place' = Text.byteLength a'

end Edit

end EsModules
