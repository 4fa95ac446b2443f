import EsModules.Proofs.Text.Edit
import EsModules.Proofs.Text.Pieces
import EsModules.Proofs.Token.Joint
import EsModules.Span

/-!
# Patched texts

A text in which some quoted texts are replaced by others, as a list of patches: characters that are
kept, and quoted texts with what replaces them.  Offsets that belong together in the text before and
in the text after are aligned; they stand in the same order in both.

* `Text.Plain`: texts that hold nothing that has a meaning to a reader of declarations.
* `Patch`, `Patch.old`, `Patch.new`: the stretches of a text, before and after.
* `Patch.Aligned`, `Patch.Aligned.le_iff`: offsets that belong together, and their order.
* `Patch.Weaves`: patches that put the replacements of edits in their places; `exists_weaves` finds
  them for edits between quotes.
-/

namespace EsModules

/-! ## Plain texts -/

/-- The characters that are no blank, no quote, no bracket and no mark that ends or separates
something. -/
def isPlain (c : Char) : Bool :=
  !Text.isBlank c && !"\"'\x60\\;,*()[]\x7b\x7d".toList.contains c

/-- A text of plain characters that does not end in the word in front of a specifier. -/
def Text.Inert (x : List Char) : Prop := (∀ c ∈ x, isPlain c = true) ∧ ¬ "from".toList <:+ x

/-- A text that can stand between quotes without being taken for anything else. -/
def Text.Plain (x : List Char) : Prop := x ≠ [] ∧ Text.Inert x

instance (x : List Char) : Decidable (Text.Plain x) :=
  decidable_of_iff (x ≠ [] ∧ x.all isPlain = true ∧ ¬ "from".toList <:+ x)
    (by rw [Text.Plain, Text.Inert, List.all_eq_true])

theorem Text.Inert.of_suffix {x v : List Char} (h : Text.Inert x) (hv : v <:+ x) :
    Text.Inert v :=
  ⟨fun c hc => h.1 c (hv.subset hc), fun hfrom => h.2 (hfrom.trans hv)⟩

theorem ne_of_isPlain {c d : Char} (hc : isPlain c = true) (hd : isPlain d = false) : c ≠ d := by
  rintro rfl
  rw [hc] at hd
  cases hd

theorem isSpace_of_isPlain {c : Char} (h : isPlain c = true) : Ascii.isSpace c = false := by
  cases hspace : Ascii.isSpace c with
  | false => rfl
  | true =>
    simp only [Ascii.isSpace, Ascii.isLineEnd, Bool.or_eq_true, beq_iff_eq] at hspace
    rcases hspace with (((rfl | rfl) | rfl) | rfl) | rfl | rfl <;> exact absurd h (by decide)

theorem isBlank_of_isPlain {c : Char} (h : isPlain c = true) : Text.isBlank c = false := by
  simp only [isPlain, Bool.and_eq_true, Bool.not_eq_true'] at h
  exact h.1

theorem isPlain_of_isQuote {q : Char} (h : isQuote q = true) : isPlain q = false := by
  rcases eq_of_isQuote h with rfl | rfl | rfl <;> rfl

/-- A quote does not stand in a plain text. -/
theorem Text.Inert.not_mem {x : List Char} (h : Text.Inert x) {q : Char} (hq : isQuote q = true) :
    q ∉ x := by
  intro hmem
  have hplain := h.1 q hmem
  rw [isPlain_of_isQuote hq] at hplain
  cases hplain

/-! ## Patches -/

/-- A stretch of a text: a character that is kept, or a quoted text with what replaces it. -/
inductive Patch
  | keep (c : Char)
  | swap (quote : Char) (old new : List Char)

namespace Patch

/-- A stretch as it was. -/
def old : Patch → List Char
  | keep c => [c]
  | swap q x _ => q :: (x ++ [q])

/-- A stretch as it becomes. -/
def new : Patch → List Char
  | keep c => [c]
  | swap q _ y => q :: (y ++ [q])

/-- Whether a patch swaps plain texts between quotes. -/
def Valid : Patch → Prop
  | keep _ => True
  | swap q x y => isQuote q = true ∧ Text.Plain x ∧ Text.Plain y

/-- The parts of a stretch, each before and after. -/
def cells : Patch → List (List Char × List Char)
  | keep c => [([c], [c])]
  | swap q x y => [([q], [q]), (x, y), ([q], [q])]

variable {all : List Patch}

theorem cells_fst (ps : List Patch) : (ps.flatMap cells).flatMap Prod.fst = ps.flatMap old := by
  induction ps with
  | nil => rfl
  | cons p ps ih =>
    rw [List.flatMap_cons, List.flatMap_append, ih, List.flatMap_cons]
    cases p <;> rfl

theorem cells_snd (ps : List Patch) : (ps.flatMap cells).flatMap Prod.snd = ps.flatMap new := by
  induction ps with
  | nil => rfl
  | cons p ps ih =>
    rw [List.flatMap_cons, List.flatMap_append, ih, List.flatMap_cons]
    cases p <;> rfl

/-- No part of a valid patch is empty, before or after. -/
theorem cells_ne_nil (hall : ∀ p ∈ all, p.Valid) :
    ∀ cell ∈ all.flatMap cells, cell.1 ≠ [] ∧ cell.2 ≠ [] := by
  intro cell hcell
  obtain ⟨p, hp, hcell⟩ := List.mem_flatMap.1 hcell
  cases p with
  | keep c =>
    obtain rfl := List.mem_singleton.1 hcell
    exact ⟨List.cons_ne_nil c [], List.cons_ne_nil c []⟩
  | swap q x y =>
    obtain ⟨-, hx, hy⟩ := hall _ hp
    simp only [cells, List.mem_cons, List.not_mem_nil, or_false] at hcell
    rcases hcell with rfl | rfl | rfl
    · exact ⟨List.cons_ne_nil q [], List.cons_ne_nil q []⟩
    · exact ⟨hx.1, hy.1⟩
    · exact ⟨List.cons_ne_nil q [], List.cons_ne_nil q []⟩

/-- The last character of a stretch stays. -/
theorem getLast?_flatMap (ps : List Patch) :
    (ps.flatMap old).getLast? = (ps.flatMap new).getLast? := by
  rcases List.eq_nil_or_concat ps with rfl | ⟨front, p, rfl⟩
  · rfl
  · simp only [List.concat_eq_append, List.flatMap_append, List.flatMap_cons, List.flatMap_nil,
      List.append_nil]
    cases p with
    | keep c => rw [old, new, List.getLast?_concat, List.getLast?_concat]
    | swap q x y =>
      rw [old, new, ← List.cons_append, ← List.cons_append, ← List.append_assoc,
        ← List.append_assoc, List.getLast?_concat, List.getLast?_concat]

/-! ## Aligned offsets -/

/-- An offset into the text before and one into the text after, in front of the same part. -/
def Aligned (all : List Patch) (a a' : Nat) : Prop :=
  ∃ front back, all.flatMap cells = front ++ back ∧
    a = Text.byteLength (front.flatMap Prod.fst) ∧ a' = Text.byteLength (front.flatMap Prod.snd)

/-- Two spans whose ends are aligned. -/
def AlignedSpan (all : List Patch) (s s' : Span) : Prop :=
  Aligned all s.start s'.start ∧ Aligned all s.stop s'.stop

/-- An offset into the text before and one into the text after, between the same stretches. -/
def AtEdge (all : List Patch) (a a' : Nat) : Prop :=
  ∃ pre ps, all = pre ++ ps ∧ a = Text.byteLength (pre.flatMap old) ∧
    a' = Text.byteLength (pre.flatMap new)

theorem aligned_edge {pre ps : List Patch} (h : all = pre ++ ps) :
    Aligned all (Text.byteLength (pre.flatMap old)) (Text.byteLength (pre.flatMap new)) := by
  refine ⟨pre.flatMap cells, ps.flatMap cells, ?_, ?_, ?_⟩
  · rw [h, List.flatMap_append]
  · rw [cells_fst]
  · rw [cells_snd]

variable {pre ps : List Patch} {q : Char} {x y : List Char}

theorem aligned_opening (h : all = pre ++ swap q x y :: ps) :
    Aligned all (Text.byteLength (pre.flatMap old) + q.utf8Size)
      (Text.byteLength (pre.flatMap new) + q.utf8Size) := by
  refine ⟨pre.flatMap cells ++ [([q], [q])], [(x, y), ([q], [q])] ++ ps.flatMap cells, ?_, ?_, ?_⟩
  · rw [h, List.flatMap_append, List.flatMap_cons]
    simp [cells]
  · simp [cells_fst]
  · simp [cells_snd]

theorem aligned_closing (h : all = pre ++ swap q x y :: ps) :
    Aligned all (Text.byteLength (pre.flatMap old) + q.utf8Size + Text.byteLength x)
      (Text.byteLength (pre.flatMap new) + q.utf8Size + Text.byteLength y) := by
  refine ⟨pre.flatMap cells ++ [([q], [q]), (x, y)], [([q], [q])] ++ ps.flatMap cells, ?_, ?_, ?_⟩
  · rw [h, List.flatMap_append, List.flatMap_cons]
    simp [cells]
  · simp [cells_fst, Nat.add_assoc]
  · simp [cells_snd, Nat.add_assoc]

/-- **Aligned offsets** stand in the same order before and after. -/
theorem Aligned.le_iff (hall : ∀ p ∈ all, p.Valid) {a a' b b' : Nat} (ha : Aligned all a a')
    (hb : Aligned all b b') : a ≤ b ↔ a' ≤ b' := by
  obtain ⟨front, back, hfront, rfl, rfl⟩ := ha
  obtain ⟨front', back', hfront', rfl, rfl⟩ := hb
  rcases List.append_eq_append_iff.1 (hfront.symm.trans hfront') with
    ⟨more, rfl, -⟩ | ⟨more, rfl, -⟩
  · simp only [List.flatMap_append, Text.byteLength_append]
    exact iff_of_true (Nat.le_add_right _ _) (Nat.le_add_right _ _)
  · cases more with
    | nil => simp
    | cons cell more =>
      have hcell : cell ∈ all.flatMap cells := by
        rw [hfront]
        simp
      obtain ⟨hfst, hsnd⟩ := cells_ne_nil hall cell hcell
      have hpos := Text.byteLength_pos hfst
      have hpos' := Text.byteLength_pos hsnd
      simp only [List.flatMap_append, List.flatMap_cons, Text.byteLength_append]
      exact iff_of_false (by omega) (by omega)

theorem Aligned.lt_iff (hall : ∀ p ∈ all, p.Valid) {a a' b b' : Nat} (ha : Aligned all a a')
    (hb : Aligned all b b') : a < b ↔ a' < b' := by
  have hle := hb.le_iff hall ha
  omega

theorem Aligned.eq_iff (hall : ∀ p ∈ all, p.Valid) {a a' b b' : Nat} (ha : Aligned all a a')
    (hb : Aligned all b b') : a = b ↔ a' = b' := by
  have hle := ha.le_iff hall hb
  have hge := hb.le_iff hall ha
  omega

theorem eq_nil_of_byteLength_eq_zero {x : List Char} (h : Text.byteLength x = 0) : x = [] := by
  cases x with
  | nil => rfl
  | cons c x =>
    have hpos := Text.byteLength_pos (List.cons_ne_nil c x)
    omega

/-- Two ways to cut a text at one offset are one. -/
theorem append_inj_of_byteLength {a b c d : List Char} (h : a ++ b = c ++ d)
    (hlength : Text.byteLength a = Text.byteLength c) : a = c ∧ b = d := by
  obtain ⟨m, rfl, rfl⟩ := Text.exists_append_of_byteLength_le h (Nat.le_of_eq hlength)
  rw [Text.byteLength_append] at hlength
  obtain rfl := eq_nil_of_byteLength_eq_zero (x := m) (by omega)
  exact ⟨(List.append_nil a).symm, rfl⟩

theorem Aligned.cons {n n' : Nat} (h : Aligned ps n n') (p : Patch) :
    Aligned (p :: ps) (Text.byteLength p.old + n) (Text.byteLength p.new + n') := by
  obtain ⟨front, back, hcells, rfl, rfl⟩ := h
  have hold : p.cells.flatMap Prod.fst = p.old := by
    have h := cells_fst [p]
    simpa using h
  have hnew : p.cells.flatMap Prod.snd = p.new := by
    have h := cells_snd [p]
    simpa using h
  refine ⟨p.cells ++ front, back, ?_, ?_, ?_⟩
  · rw [List.flatMap_cons, hcells, List.append_assoc]
  · rw [List.flatMap_append, Text.byteLength_append, hold]
  · rw [List.flatMap_append, Text.byteLength_append, hnew]

theorem aligned_front (all : List Patch) : Aligned all 0 0 := ⟨[], _, rfl, rfl, rfl⟩

/-! ## Patches of edits -/

/-- From an offset on, patches put the replacements of edits in the places of what these cover. -/
inductive Weaves : Nat → List Edit → List Patch → Prop
  | done {offset : Nat} : Weaves offset [] []
  | keep {offset : Nat} {c : Char} {es : List Edit} {ps : List Patch} :
      Weaves (offset + c.utf8Size) es ps → Weaves offset es (keep c :: ps)
  | swap {offset : Nat} {q : Char} {x : List Char} {e : Edit} {es : List Edit} {ps : List Patch}
      (start : e.span.start = offset + q.utf8Size)
      (stop : e.span.stop = e.span.start + Text.byteLength x)
      (more : Weaves (e.span.stop + q.utf8Size) es ps) :
      Weaves offset (e :: es) (swap q x e.replacement :: ps)

variable {offset : Nat} {es : List Edit}

theorem Weaves.lt_start (h : Weaves offset es ps) : ∀ e ∈ es, offset < e.span.start := by
  induction h with
  | done => exact fun e he => absurd he List.not_mem_nil
  | keep more ih =>
    intro e he
    have hlt := ih e he
    omega
  | @swap offset q x e es ps start stop more ih =>
    have hpos := q.utf8Size_pos
    intro d hd
    rcases List.mem_cons.1 hd with rfl | hd
    · omega
    · have hlt := ih d hd
      omega

theorem flatMap_old_keep (gap : List Char) : (gap.map keep).flatMap old = gap := by
  induction gap with
  | nil => rfl
  | cons c gap ih => rw [List.map_cons, List.flatMap_cons, ih, old, List.singleton_append]

theorem flatMap_new_keep (gap : List Char) : (gap.map keep).flatMap new = gap := by
  induction gap with
  | nil => rfl
  | cons c gap ih => rw [List.map_cons, List.flatMap_cons, ih, new, List.singleton_append]

/-- Text in front of all edits is kept. -/
theorem Weaves.keeps {gap : List Char} (h : Weaves (offset + Text.byteLength gap) es ps) :
    Weaves offset es (gap.map Patch.keep ++ ps) := by
  induction gap generalizing offset with
  | nil => exact h
  | cons c gap ih =>
    refine .keep (ih ?_)
    rwa [Nat.add_assoc]

/-- Every edit has its patch. -/
theorem Weaves.exists_swap (h : Weaves offset es ps) : ∀ e ∈ es, ∃ pre q x post,
    ps = pre ++ Patch.swap q x e.replacement :: post ∧
      e.span.start = offset + Text.byteLength (pre.flatMap old) + q.utf8Size ∧
      e.span.stop = e.span.start + Text.byteLength x := by
  induction h with
  | done => exact fun e he => absurd he List.not_mem_nil
  | @keep offset c es ps more ih =>
    intro e he
    obtain ⟨pre, q, x, post, rfl, hstart, hstop⟩ := ih e he
    refine ⟨Patch.keep c :: pre, q, x, post, rfl, ?_, hstop⟩
    simp only [List.flatMap_cons, old, Text.byteLength_append, Text.byteLength_cons,
      Text.byteLength_nil]
    omega
  | @swap offset q x e es ps start stop more ih =>
    intro d hd
    rcases List.mem_cons.1 hd with rfl | hd
    · exact ⟨[], q, x, ps, rfl, start, stop⟩
    · obtain ⟨pre, q', x', post, rfl, hstart, hstop⟩ := ih d hd
      refine ⟨Patch.swap q x e.replacement :: pre, q', x', post, rfl, ?_, hstop⟩
      simp only [List.flatMap_cons, old, Text.byteLength_append, Text.byteLength_cons,
        Text.byteLength_nil]
      omega

/-- Every patch that swaps something is that of an edit. -/
theorem Weaves.exists_edit (h : Weaves offset es ps) {pre post : List Patch}
    (hps : ps = pre ++ Patch.swap q x y :: post) : ∃ e ∈ es,
      e.span.start = offset + Text.byteLength (pre.flatMap old) + q.utf8Size ∧
      e.span.stop = e.span.start + Text.byteLength x := by
  induction h generalizing pre with
  | done => exact absurd hps (by simp)
  | @keep offset c es ps more ih =>
    cases pre with
    | nil => cases hps
    | cons p pre =>
      obtain ⟨rfl, rfl⟩ := List.cons.inj hps
      obtain ⟨e, he, hstart, hstop⟩ := ih rfl
      refine ⟨e, he, ?_, hstop⟩
      simp only [List.flatMap_cons, old, Text.byteLength_append, Text.byteLength_cons,
        Text.byteLength_nil]
      omega
  | @swap offset q' x' e es ps start stop more ih =>
    cases pre with
    | nil =>
      obtain ⟨hswap, rfl⟩ := List.cons.inj hps
      obtain ⟨rfl, rfl, -⟩ := Patch.swap.inj hswap
      exact ⟨e, List.mem_cons_self, start, stop⟩
    | cons p pre =>
      obtain ⟨rfl, rfl⟩ := List.cons.inj hps
      obtain ⟨d, hd, hstart, hstop⟩ := ih rfl
      refine ⟨d, List.mem_cons_of_mem e hd, ?_, hstop⟩
      simp only [List.flatMap_cons, old, Text.byteLength_append, Text.byteLength_cons,
        Text.byteLength_nil]
      omega

/-- Edits of no text, none at its front, are none. -/
theorem eq_nil_of_splices_nil {a' : List Char} (h : Edit.Splices offset es [] a')
    (hlt : ∀ e ∈ es, offset < e.span.start) : es = [] ∧ a' = [] := by
  cases es with
  | nil =>
    cases h
    exact ⟨rfl, rfl⟩
  | cons e es =>
    have hbounds := h.bounds e List.mem_cons_self
    have hstart := hlt e List.mem_cons_self
    rw [Text.byteLength_nil] at hbounds
    omega

/-- An offset that no edit goes across is aligned with where the text in front of it ends once it
is edited. -/
theorem Weaves.aligned (h : Weaves offset es ps) {front back : List Edit} {a a' b : List Char}
    (hes : es = front ++ back) (hold : ps.flatMap old = a ++ b)
    (hfront : Edit.Splices offset front a a')
    (hback : ∀ e ∈ back, offset + Text.byteLength a ≤ e.span.start) :
    Aligned ps (Text.byteLength a) (Text.byteLength a') := by
  induction h generalizing front a a' with
  | done =>
    obtain ⟨rfl, -⟩ := List.append_eq_nil_iff.1 hold.symm
    obtain ⟨rfl, -⟩ := List.append_eq_nil_iff.1 hes.symm
    cases hfront
    exact aligned_front []
  | @keep offset c es ps more ih =>
    have hlt := (Weaves.keep more).lt_start
    cases a with
    | nil =>
      obtain ⟨-, rfl⟩ := eq_nil_of_splices_nil hfront fun e he =>
        hlt e (hes ▸ List.mem_append_left back he)
      exact aligned_front _
    | cons d a =>
      obtain ⟨rfl, htail⟩ := List.cons.inj hold
      have hstart := more.lt_start
      obtain ⟨a', rfl, hmore⟩ := hfront.exists_append (a := [c]) fun e he => by
        have hlt := hstart e (hes ▸ List.mem_append_left back he)
        simp only [Text.byteLength_cons, Text.byteLength_nil]
        omega
      have haligned := ih hes htail hmore fun e he => by
        have hle := hback e he
        rw [Text.byteLength_cons] at hle
        omega
      exact haligned.cons (Patch.keep c)
  | @swap offset q x e es ps start stop more ih =>
    have hlt := (Weaves.swap start stop more).lt_start
    cases a with
    | nil =>
      obtain ⟨-, rfl⟩ := eq_nil_of_splices_nil hfront fun d hd =>
        hlt d (hes ▸ List.mem_append_left back hd)
      exact aligned_front _
    | cons d a =>
      obtain ⟨rfl, htail⟩ := List.cons.inj hold
      have hstart : ∀ d ∈ e :: es, offset + q.utf8Size ≤ d.span.start := by
        intro d hd
        rcases List.mem_cons.1 hd with rfl | hd
        · omega
        · have hlt := more.lt_start d hd
          omega
      obtain ⟨a', rfl, hmore⟩ := hfront.exists_append (a := [q]) fun d hd =>
        hstart d (hes ▸ List.mem_append_left back hd)
      rw [Text.byteLength_cons, Text.byteLength_nil, Nat.add_zero] at hmore
      cases front with
      | nil =>
        -- the offset lies in front of the swapped text
        obtain rfl : back = e :: es := hes.symm
        have hle := hback e List.mem_cons_self
        rw [Text.byteLength_cons] at hle
        obtain rfl := eq_nil_of_byteLength_eq_zero (x := a) (by omega)
        cases hmore
        have hswap : Patch.swap q x e.replacement :: ps =
            [] ++ Patch.swap q x e.replacement :: ps := rfl
        have haligned := aligned_opening hswap
        simpa using haligned
      | cons e' front =>
        obtain ⟨rfl, hback'⟩ := List.cons.inj hes
        generalize hinput : a = input at hmore
        cases hmore with
        | @edit _ _ _ gap text rest out start' stop' more' =>
          obtain rfl := eq_nil_of_byteLength_eq_zero (x := gap) (by omega)
          have hsplit : x ++ ([q] ++ ps.flatMap old) = text ++ (rest ++ b) := by
            rw [← List.append_assoc, ← List.append_assoc]
            exact hinput ▸ htail
          obtain ⟨rfl, hbehind⟩ := append_inj_of_byteLength hsplit (by omega)
          have hlater : ∀ d ∈ front, e.span.stop + q.utf8Size < d.span.start := fun d hd =>
            more.lt_start d (hback' ▸ List.mem_append_left back hd)
          cases rest with
          | nil =>
            -- the offset lies behind the swapped text
            obtain ⟨-, rfl⟩ := eq_nil_of_splices_nil more' fun d hd => by
              have hlt := hlater d hd
              omega
            have hswap : Patch.swap q x e.replacement :: ps =
                [] ++ Patch.swap q x e.replacement :: ps := rfl
            have haligned := aligned_closing hswap
            simpa [hinput] using haligned
          | cons c rest =>
            obtain ⟨rfl, hrest⟩ := List.cons.inj hbehind
            obtain ⟨out, rfl, hmore'⟩ := more'.exists_append (a := [q]) fun d hd => by
              have hlt := hlater d hd
              simp only [Text.byteLength_cons, Text.byteLength_nil]
              omega
            have haligned := ih hback' hrest hmore' fun d hd => by
              have hle := hback d hd
              simp only [hinput, Text.byteLength_cons, Text.byteLength_append,
                Text.byteLength_nil] at hle
              omega
            have hcons := haligned.cons (Patch.swap q x e.replacement)
            simpa [hinput, old, new, Nat.add_assoc] using hcons

/-- Edits between quotes that leave plain texts plain have patches. -/
structure Quotes (source : List Char) (e : Edit) : Prop where
  covers : ∃ front q x back, source = front ++ q :: (x ++ q :: back) ∧ isQuote q = true ∧
    Text.Plain x ∧ e.span.start = Text.byteLength front + 1 ∧
    e.span.stop = e.span.start + Text.byteLength x
  plain : Text.Plain e.replacement

theorem utf8Size_of_isQuote (h : isQuote q = true) : q.utf8Size = 1 := by
  rcases eq_of_isQuote h with rfl | rfl | rfl <;> rfl

/-- **Edits between quotes**, no two of which share one, are those of patches. -/
theorem exists_weaves {source front rest out : List Char} (hquotes : ∀ e ∈ es, Quotes source e)
    (hapart : es.Pairwise fun d e => d.span.stop + 1 < e.span.start)
    (hsource : source = front ++ rest) (hfirst : ∀ e ∈ es, Text.byteLength front < e.span.start)
    (h : Edit.Splices (Text.byteLength front) es rest out) :
    ∃ ps, Weaves (Text.byteLength front) es ps ∧ (∀ p ∈ ps, p.Valid) ∧ ps.flatMap old = rest ∧
      ps.flatMap new = out := by
  induction es generalizing front rest out with
  | nil =>
    cases h
    have hkeeps : Weaves (Text.byteLength front) [] (rest.map Patch.keep ++ []) := .keeps .done
    refine ⟨_, hkeeps, fun p hp => ?_, ?_, ?_⟩
    · rw [List.append_nil] at hp
      obtain ⟨c, -, rfl⟩ := List.mem_map.1 hp
      trivial
    · rw [List.append_nil, flatMap_old_keep]
    · rw [List.append_nil, flatMap_new_keep]
  | cons e es ih =>
    obtain ⟨⟨before, q, x, back, hcovers, hq, hx, hstart, hstop⟩, hplain⟩ :=
      hquotes e List.mem_cons_self
    have hsize := utf8Size_of_isQuote hq
    have hlt := hfirst e List.mem_cons_self
    obtain ⟨hnear, hapart⟩ := List.pairwise_cons.1 hapart
    cases h with
    | @edit _ _ _ gap text rest out start stop more =>
      obtain ⟨g, rfl, hgap⟩ := Text.exists_append_of_byteLength_le (hsource.symm.trans hcovers)
        (by omega)
      have hsplit : gap ++ (text ++ rest) = (g ++ [q]) ++ (x ++ q :: back) := by
        rw [hgap, List.append_assoc]
        rfl
      have hlength : Text.byteLength gap = Text.byteLength (g ++ [q]) := by
        simp only [Text.byteLength_append, Text.byteLength_cons, Text.byteLength_nil] at hstart ⊢
        omega
      obtain ⟨rfl, hbehind⟩ := append_inj_of_byteLength hsplit hlength
      obtain ⟨rfl, rfl⟩ := append_inj_of_byteLength hbehind (by omega)
      obtain ⟨out, rfl, hmore⟩ := more.exists_append (a := [q]) (b := back) fun d hd => by
        have hlt := hnear d hd
        simp only [Text.byteLength_cons, Text.byteLength_nil]
        omega
      have hend : e.span.stop + Text.byteLength [q] =
          Text.byteLength (front ++ ((g ++ [q]) ++ (text ++ [q]))) := by
        simp only [Text.byteLength_append, Text.byteLength_cons, Text.byteLength_nil] at start ⊢
        omega
      rw [hend] at hmore
      obtain ⟨ps, hps, hvalid, hold, hnew⟩ := ih
        (fun d hd => hquotes d (List.mem_cons_of_mem e hd)) hapart
        (by rw [hsource]; simp) (fun d hd => by
          have hlt := hnear d hd
          rw [← hend, Text.byteLength_cons, Text.byteLength_nil]
          omega) hmore
      refine ⟨g.map Patch.keep ++ Patch.swap q text e.replacement :: ps, .keeps (.swap ?_ stop ?_),
        fun p hp => ?_, ?_, ?_⟩
      · rw [start, Text.byteLength_append, Text.byteLength_cons, Text.byteLength_nil]
        omega
      · rwa [← hend] at hps
      · rcases List.mem_append.1 hp with hp | hp
        · obtain ⟨c, -, rfl⟩ := List.mem_map.1 hp
          trivial
        · rcases List.mem_cons.1 hp with rfl | hp
          · exact ⟨hq, hx, hplain⟩
          · exact hvalid p hp
      · simp [flatMap_old_keep, old, hold]
      · simp [flatMap_new_keep, new, hnew]

end Patch

end EsModules
