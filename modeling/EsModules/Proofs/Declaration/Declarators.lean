import EsModules.Declaration.Export
import EsModules.Proofs.Pattern.Steady
import Mathlib.Data.List.TakeWhile

/-!
# Declarators behind the first

The names of further declarators are read behind commas.  Text in curly and square brackets is left
out, but only up to the first closing bracket of its kind.

* `commaNames`: the names behind the commas of a text; `ExportRecord.declaratorNames_eq`.
* `Sealed`: texts that say nothing about what stands behind them; `Sealed.commaNames_append`.
-/

namespace EsModules

open Pattern

/-! ## Names behind commas -/

/-- The bracket that ends a text in which no names are looked for. -/
def groupEnd? (c : Char) : Option Char :=
  if c = '\x7b' then some '\x7d' else if c = '[' then some ']' else none

/-- The name at the front of a text, behind spaces. -/
def frontName (r : List Char) : List Char := (r.dropWhile Ascii.isSpace).takeWhile Ascii.isWordChar

theorem exists_frontName (r : List Char) : ∃ sp name rest, (∀ c ∈ sp, Ascii.isSpace c = true) ∧
    (∀ c ∈ name, Ascii.isWordChar c = true) ∧ (∀ c ∈ rest.head?, Ascii.isWordChar c = false) ∧
    frontName r = name ∧ (r.dropWhile Ascii.isSpace).dropWhile Ascii.isWordChar = rest ∧
    r = sp ++ (name ++ rest) := by
  refine ⟨r.takeWhile Ascii.isSpace, frontName r, _, fun c hc => List.mem_takeWhile_imp hc,
    fun c hc => List.mem_takeWhile_imp hc, fun c hc => ?_, rfl, rfl, ?_⟩
  · have h := List.head?_dropWhile_not Ascii.isWordChar (r.dropWhile Ascii.isSpace)
    rw [Option.mem_def.1 hc] at h
    simpa using h
  · rw [frontName, List.takeWhile_append_dropWhile, List.takeWhile_append_dropWhile]

/-- The names behind the commas of a text; from an opening bracket on nothing is read up to the
first bracket that closes its kind. -/
def commaNames : List Char → List (List Char)
  | [] => []
  | c :: r =>
    match groupEnd? c with
    | some d => if d ∈ r then commaNames ((r.dropWhile (· != d)).drop 1) else commaNames r
    | none =>
      if c = ',' then
        if frontName r = [] then commaNames r
        else frontName r :: commaNames ((r.dropWhile Ascii.isSpace).dropWhile Ascii.isWordChar)
      else commaNames r
termination_by cs => cs.length
decreasing_by
  · have h := (List.dropWhile_suffix (l := r) (· != d)).length_le
    simp only [List.length_drop, List.length_cons]
    omega
  · exact Nat.lt_succ_self _
  · exact Nat.lt_succ_self _
  · have h := (List.dropWhile_suffix (l := r) Ascii.isSpace).length_le
    have h' := (List.dropWhile_suffix (l := r.dropWhile Ascii.isSpace) Ascii.isWordChar).length_le
    simp only [List.length_cons]
    omega
  · exact Nat.lt_succ_self _

example : commaNames " = f(x, y), b = [1, z], $c = 2, d$e".toList = [['y'], ['b'], ['d']] := by
  decide +kernel

theorem isSpace_of_isWordChar {c : Char} (h : Ascii.isWordChar c = true) :
    Ascii.isSpace c = false := by
  refine Bool.eq_false_iff.2 fun hspace => ?_
  simp only [Ascii.isSpace, Ascii.isLineEnd, Bool.or_eq_true, beq_iff_eq] at hspace
  rcases hspace with (((rfl | rfl) | rfl) | rfl) | rfl | rfl <;> cases h

theorem cases_of_groupEnd? {a d : Char} (h : groupEnd? a = some d) :
    a = '\x7b' ∧ d = '\x7d' ∨ a = '[' ∧ d = ']' := by
  unfold groupEnd? at h
  split at h
  · rename_i ha
    exact .inl ⟨ha, (Option.some.inj h).symm⟩
  · split at h
    · rename_i ha
      exact .inr ⟨ha, (Option.some.inj h).symm⟩
    · cases h

namespace Shape

variable {before : Option Char} {pos : Nat} {w rest : List Char}

/-- A bracket is read up to the first one that closes its kind. -/
theorem matchAt?_group {a d : Char} (ha : groupEnd? a = some d) (hw : ∀ c ∈ w, isInLine c = true)
    (hd : d ∉ w) : declaratorStep.matchAt? ⟨before, pos, a :: (w ++ d :: rest)⟩ =
      some ⟨⟨before, pos, a :: (w ++ d :: rest)⟩,
        .past (some a) (pos + a.utf8Size) (w ++ [d]) rest, []⟩ := by
  let k : Follow Part (Match Part) := fun back captures =>
    some ⟨⟨before, pos, a :: (w ++ d :: rest)⟩, back, captures⟩
  have hrun : (shortRun isInLine).attempt ⟨some a, pos + a.utf8Size, w ++ d :: rest⟩ []
      ((char (· == d) : Pattern Part).followedBy k) = _ := attempt_shortRun_char hw hd rfl
  rcases cases_of_groupEnd? ha with ⟨rfl, rfl⟩ | ⟨rfl, rfl⟩
  · have hfirst : (char (· == '\x7b') ++ shortRun isInLine ++ char (· == '\x7d') :
        Pattern Part).attempt ⟨before, pos, '\x7b' :: (w ++ '\x7d' :: rest)⟩ [] k = _ := hrun
    exact (orElse_eq_left (.inr (by rw [hfirst]; rfl))).trans hfirst
  · have hsecond : (char (· == '[') ++ shortRun isInLine ++ char (· == ']') :
        Pattern Part).attempt ⟨before, pos, '[' :: (w ++ ']' :: rest)⟩ [] k = _ := hrun
    have hother := (orElse_eq_left (b := (char (· == ',') ++ spaces ++ capture .name
      (run1 Ascii.isWordChar) : Pattern Part).attempt ⟨before, pos, '[' :: (w ++ ']' :: rest)⟩ [] k)
        (.inr (by rw [hsecond]; rfl))).trans hsecond
    exact hother

/-- Behind a comma a name is read. -/
theorem matchAt?_name {sp name : List Char} (hsp : ∀ c ∈ sp, Ascii.isSpace c = true)
    (hne : name ≠ []) (hname : ∀ c ∈ name, Ascii.isWordChar c = true)
    (hrest : ∀ c ∈ rest.head?, Ascii.isWordChar c = false) :
    declaratorStep.matchAt? ⟨before, pos, ',' :: (sp ++ (name ++ rest))⟩ =
      some ⟨⟨before, pos, ',' :: (sp ++ (name ++ rest))⟩,
        .past (some ',') (pos + 1) (sp ++ name) rest,
        [(.name, ⟨pos + 1 + Text.byteLength sp,
          pos + 1 + Text.byteLength sp + Text.byteLength name⟩)]⟩ := by
  obtain ⟨a, t, rfl⟩ := List.exists_cons_of_ne_nil hne
  obtain ⟨ha, ht⟩ := List.forall_mem_cons.1 hname
  let k : Follow Part (Match Part) := fun back captures =>
    some ⟨⟨before, pos, ',' :: (sp ++ (a :: t ++ rest))⟩, back, captures⟩
  let naming : Follow Part (Match Part) := fun c caps =>
    (capture .name (run1 Ascii.isWordChar)).attempt c caps k
  let start := pos + 1 + Text.byteLength sp
  have hrun : (run Ascii.isWordChar).attempt ⟨some a, start + a.utf8Size, t ++ rest⟩ []
      (fun c caps => k c ((.name, ⟨start, c.pos⟩) :: caps)) =
        k (.past (some a) (start + a.utf8Size) t rest)
          [(.name, ⟨start, start + a.utf8Size + Text.byteLength t⟩)] :=
    attempt_run ht hrest rfl
  have hnaming : naming (.past (some ',') (pos + 1) sp (a :: t ++ rest)) [] =
      k (.past (some a) (start + a.utf8Size) t rest)
        [(.name, ⟨start, start + a.utf8Size + Text.byteLength t⟩)] :=
    (if_pos ha).trans hrun
  have hspaces : spaces.attempt ⟨some ',', pos + 1, sp ++ (a :: t ++ rest)⟩ [] naming =
      naming (.past (some ',') (pos + 1) sp (a :: t ++ rest)) [] := by
    refine attempt_run hsp (fun c hc => ?_) (by rw [hnaming]; rfl)
    obtain rfl := Option.some.inj hc
    exact isSpace_of_isWordChar ha
  have hpast : Cursor.past (some ',') (pos + 1) (sp ++ a :: t) rest =
      .past (some a) (start + a.utf8Size) t rest := by
    rw [Cursor.past_append, Cursor.past_cons]
  rw [hpast, Text.byteLength_cons, ← Nat.add_assoc]
  exact hspaces.trans hnaming

/-- Elsewhere nothing is read. -/
theorem matchAt?_other {a : Char} {r : List Char} (hgroup : ∀ d, groupEnd? a = some d → d ∉ r)
    (hname : a = ',' → frontName r = []) :
    declaratorStep.matchAt? ⟨before, pos, a :: r⟩ = none := by
  let k : Follow Part (Match Part) := fun back captures =>
    some ⟨⟨before, pos, a :: r⟩, back, captures⟩
  have hshort : ∀ opening closing, groupEnd? opening = some closing →
      (char (· == opening) ++ shortRun isInLine ++ char (· == closing) : Pattern Part).attempt
        ⟨before, pos, a :: r⟩ [] k = none := by
    intro opening closing hopening
    show (if (a == opening) = true then (shortRun isInLine).attempt _ [] _ else none) = none
    split
    · rename_i ha
      exact attempt_shortRun_none (hgroup closing (eq_of_beq ha ▸ hopening))
    · rfl
  have hcomma : (char (· == ',') ++ spaces ++ capture .name (run1 Ascii.isWordChar) :
      Pattern Part).attempt ⟨before, pos, a :: r⟩ [] k = none := by
    show (if (a == ',') = true then spaces.attempt _ [] _ else none) = none
    split
    · rename_i ha
      have hname := hname (eq_of_beq ha)
      refine attempt_run_none fun w w' hw hspaces => ?_
      subst hw
      rw [frontName, List.dropWhile_append_of_pos hspaces] at hname
      cases w' with
      | nil => rfl
      | cons c w' =>
        -- a word behind fewer spaces would be one behind all of them
        refine if_neg fun hc => ?_
        have hc : Ascii.isWordChar c = true := hc
        rw [List.dropWhile_cons_of_neg (by simp [isSpace_of_isWordChar hc]),
          List.takeWhile_cons_of_pos hc] at hname
        cases hname
    · rfl
  have hfirst := hshort '\x7b' '\x7d' rfl
  have hsecond := hshort '[' ']' rfl
  have horElse : ∀ x y z : Option (Match Part), x = none → y = none → z = none →
      (x.orElse fun _ => y.orElse fun _ => z) = none := by
    rintro _ _ _ rfl rfl rfl
    rfl
  exact horElse _ _ _ hfirst hsecond hcomma

end Shape

namespace ExportRecord

/-- Behind a match the names go on where it ends. -/
theorem names_of_match {text : List Char} {n : Nat} {c : Cursor} {m : Match Part}
    (hn : c.rest.length < n) (hm : Shape.declaratorStep.matchAt? c = some m)
    (hlt : c.pos < m.back.pos) :
    ((Shape.declaratorStep.selectFrom (fun _ => true) n c).filterMap fun m =>
        (m.part? .name).map (·.text text)) =
      ((m.part? .name).map (·.text text)).toList ++
        (Shape.declaratorStep.selectFrom (fun _ => true) n m.back).filterMap fun m =>
          (m.part? .name).map (·.text text) := by
  have hresume : m.resume? = some m.back := by
    rw [Match.resume?, front_of_matchAt? hm, if_pos hlt]
  rw [selectFrom_eq hn, hm]
  show List.filterMap _ (m :: (m.resume?.map _).getD []) = _
  rw [hresume, List.filterMap_cons]
  cases m.part? .name <;> rfl

/-- Where there is no match the names go on behind the next character. -/
theorem names_of_none {text r : List Char} {n pos : Nat} {before : Option Char} {a : Char}
    (hn : (a :: r).length < n) (hm : Shape.declaratorStep.matchAt? ⟨before, pos, a :: r⟩ = none) :
    ((Shape.declaratorStep.selectFrom (fun _ => true) n ⟨before, pos, a :: r⟩).filterMap fun m =>
        (m.part? .name).map (·.text text)) =
      (Shape.declaratorStep.selectFrom (fun _ => true) n ⟨some a, pos + a.utf8Size, r⟩).filterMap
        fun m => (m.part? .name).map (·.text text) := by
  rw [selectFrom_eq hn, hm]
  rfl

theorem names_selectFrom {text rest : List Char} (hline : ∀ c ∈ text, isInLine c = true) {n : Nat}
    {before : Option Char} {pos : Nat} (hat : Cursor.At text ⟨before, pos, rest⟩)
    (hn : rest.length < n) :
    ((Shape.declaratorStep.selectFrom (fun _ => true) n ⟨before, pos, rest⟩).filterMap fun m =>
      (m.part? .name).map (·.text text)) = commaNames rest := by
  fun_induction commaNames rest generalizing before pos with
  | case1 =>
    have hnone : Shape.declaratorStep.matchAt? ⟨before, pos, []⟩ = none := rfl
    rw [selectFrom_eq hn, hnone]
    rfl
  | case2 c r d hd hmem ih =>
    obtain ⟨w, rest, rfl, hw⟩ := List.eq_append_cons_of_mem hmem
    have hbehind : ((w ++ d :: rest).dropWhile (· != d)).drop 1 = rest := by
      rw [List.dropWhile_append_of_pos fun c hc => bne_iff_ne.2 (ne_of_mem_of_not_mem hc hw),
        List.dropWhile_cons_of_neg (by simp)]
      rfl
    rw [hbehind] at ih ⊢
    have hw' : ∀ c ∈ w, isInLine c = true := by
      obtain ⟨front, htext, -⟩ := hat
      exact fun a ha => hline a (by rw [htext]; simp [ha])
    have hmatch := @Shape.matchAt?_group before pos w rest c d hd hw' hw
    have hback := ((found_of_matchAt? hat hmatch).matched.at hat).1
    have hlt : pos < pos + c.utf8Size + Text.byteLength (w ++ [d]) := by
      have hsize := c.utf8Size_pos
      omega
    have hshorter : rest.length < n := by
      simp only [List.length_cons, List.length_append] at hn
      omega
    rw [names_of_match hn hmatch hlt]
    exact ih hback hshorter
  | case3 c r d hd hmem ih =>
    have hother : Shape.declaratorStep.matchAt? ⟨before, pos, c :: r⟩ = none := by
      refine Shape.matchAt?_other (fun d' hd' => Option.some.inj (hd.symm.trans hd') ▸ hmem) ?_
      rintro rfl
      cases hd
    rw [names_of_none hn hother]
    exact ih hat.cons (Nat.lt_of_succ_lt hn)
  | case4 r hempty hgroup ih =>
    have hother : Shape.declaratorStep.matchAt? ⟨before, pos, ',' :: r⟩ = none :=
      Shape.matchAt?_other (fun d hd => by cases hd) fun _ => hempty
    rw [names_of_none hn hother]
    exact ih hat.cons (Nat.lt_of_succ_lt hn)
  | case5 r hne hgroup ih =>
    obtain ⟨sp, name, rest, hsp, hname, hrest, hfront, hbehind, rfl⟩ := exists_frontName r
    rw [hfront] at hne ⊢
    rw [hbehind] at ih ⊢
    have hmatch := @Shape.matchAt?_name before pos rest sp name hsp hne hname hrest
    have hback := ((found_of_matchAt? hat hmatch).matched.at hat).1
    have hlt : pos < pos + 1 + Text.byteLength (sp ++ name) := by omega
    have hshorter : rest.length < n := by
      simp only [List.length_cons, List.length_append] at hn
      omega
    have hcovers : Span.Covers text name ⟨pos + 1 + Text.byteLength sp,
        pos + 1 + Text.byteLength sp + Text.byteLength name⟩ := by
      obtain ⟨front, htext, hpos, -⟩ := hat
      have hstart : pos + 1 + Text.byteLength sp = Text.byteLength (front ++ (',' :: sp)) := by
        rw [Text.byteLength_append, Text.byteLength_cons, ← Nat.add_assoc]
        exact congrArg (· + 1 + Text.byteLength sp) hpos
      refine ⟨front ++ (',' :: sp), rest, ?_, hstart, congrArg (· + Text.byteLength name) hstart⟩
      simpa using htext
    rw [names_of_match hn hmatch hlt]
    show [Span.text _ text] ++ _ = _
    rw [hcovers.text_eq]
    exact congrArg (name :: ·) (ih hback hshorter)
  | case6 c r hgroup hcomma ih =>
    have hother : Shape.declaratorStep.matchAt? ⟨before, pos, c :: r⟩ = none := by
      refine Shape.matchAt?_other (fun d hd => ?_) fun h => absurd h hcomma
      rw [hgroup] at hd
      cases hd
    rw [names_of_none hn hother]
    exact ih hat.cons (Nat.lt_of_succ_lt hn)

/-- The names of further declarators are those behind the commas. -/
theorem declaratorNames_eq {text : List Char} (hline : ∀ c ∈ text, isInLine c = true) :
    declaratorNames text = commaNames text :=
  names_selectFrom hline (Cursor.at_start text) (Nat.lt_succ_self _)

end ExportRecord

/-! ## Texts that say nothing about what stands behind them -/

theorem commaNames_group {c d : Char} (hd : groupEnd? c = some d) {r : List Char} (hmem : d ∈ r) :
    commaNames (c :: r) = commaNames ((r.dropWhile (· != d)).drop 1) := by
  rw [commaNames, hd]
  exact if_pos hmem

theorem commaNames_comma (r : List Char) : commaNames (',' :: r) =
    if frontName r = [] then commaNames r
    else frontName r :: commaNames ((r.dropWhile Ascii.isSpace).dropWhile Ascii.isWordChar) := by
  rw [commaNames]
  rfl

theorem commaNames_cons {c : Char} (hgroup : groupEnd? c = none) (hcomma : c ≠ ',') (r : List Char) :
    commaNames (c :: r) = commaNames r := by
  rw [commaNames, hgroup]
  exact if_neg hcomma

/-- Characters that are neither opening brackets nor commas have no part in the names. -/
theorem commaNames_append_of_plain {x : List Char}
    (hx : ∀ c ∈ x, groupEnd? c = none ∧ c ≠ ',') (y : List Char) :
    commaNames (x ++ y) = commaNames y := by
  induction x with
  | nil => rfl
  | cons c x ih =>
    obtain ⟨⟨hgroup, hcomma⟩, hx⟩ := List.forall_mem_cons.1 hx
    rw [List.cons_append, commaNames_cons hgroup hcomma, ih hx]

/-- Every bracket that opens a group is closed in the text, and behind every comma of it stands
something that ends a name. -/
def Sealed (x : List Char) : Prop :=
  ∀ a c b, x = a ++ c :: b → (∀ d, groupEnd? c = some d → d ∈ b) ∧
    (c = ',' → ∃ s ∈ b, Ascii.isSpace s = false ∧ Ascii.isWordChar s = false)

namespace Sealed

variable {x y : List Char}

theorem of_suffix (hx : Sealed x) (hy : y <:+ x) : Sealed y := by
  rintro a c b rfl
  obtain ⟨front, rfl⟩ := hy
  exact hx (front ++ a) c b (List.append_assoc _ _ _).symm

theorem dropWhile_append_of_mem {test : Char → Bool} {s : Char} (hs : s ∈ x) (htest : test s = false)
    (y : List Char) : (x ++ y).dropWhile test = x.dropWhile test ++ y ∧ s ∈ x.dropWhile test := by
  have hmem : s ∈ x.dropWhile test := by
    rw [← List.takeWhile_append_dropWhile (p := test) (l := x)] at hs
    refine (List.mem_append.1 hs).resolve_left fun h => ?_
    rw [List.mem_takeWhile_imp h] at htest
    cases htest
  rw [List.dropWhile_append, if_neg]
  · exact ⟨rfl, hmem⟩
  · rw [List.isEmpty_iff]
    exact List.ne_nil_of_mem hmem

/-- What ends a name in a text ends it whatever stands behind the text. -/
theorem frontName_append {s : Char} (hs : s ∈ x) (hspace : Ascii.isSpace s = false)
    (hword : Ascii.isWordChar s = false) (y : List Char) : frontName (x ++ y) = frontName x ∧
      ((x ++ y).dropWhile Ascii.isSpace).dropWhile Ascii.isWordChar =
        (x.dropWhile Ascii.isSpace).dropWhile Ascii.isWordChar ++ y := by
  obtain ⟨hdrop, hs'⟩ := dropWhile_append_of_mem hs hspace y
  obtain ⟨hdrop', hs''⟩ := dropWhile_append_of_mem hs' hword y
  refine ⟨?_, by rw [hdrop, hdrop']⟩
  have hlonger : ∀ z : List Char, s ∈ z → (z ++ y).takeWhile Ascii.isWordChar =
      z.takeWhile Ascii.isWordChar := by
    intro z hz
    induction z with
    | nil => cases hz
    | cons c z ih =>
      rw [List.cons_append, List.takeWhile_cons, List.takeWhile_cons]
      split
      · rename_i hc
        rcases List.mem_cons.1 hz with rfl | hz
        · rw [hword] at hc
          cases hc
        · rw [ih hz]
      · rfl
  rw [frontName, frontName, hdrop, hlonger _ hs']

/-- **The names of a sealed text** are read without what stands behind it. -/
theorem commaNames_append (hx : Sealed x) (y : List Char) :
    commaNames (x ++ y) = commaNames x ++ commaNames y := by
  fun_induction commaNames x with
  | case1 => rfl
  | case2 c r d hd hmem ih =>
    have hdrop := @dropWhile_append_of_mem r (· != d) d hmem (by simp) y
    have hbehind : ((r ++ y).dropWhile (· != d)).drop 1 = (r.dropWhile (· != d)).drop 1 ++ y := by
      rw [hdrop.1, List.drop_append_of_le_length]
      exact List.length_pos_of_mem hdrop.2
    rw [List.cons_append, commaNames_group hd (List.mem_append_left y hmem), hbehind]
    refine ih (hx.of_suffix ?_)
    exact (List.drop_suffix _ _).trans ((List.dropWhile_suffix _).trans (List.suffix_cons c r))
  | case3 c r d hd hmem => exact absurd ((hx [] c r rfl).1 d hd) hmem
  | case4 r hempty hgroup ih =>
    obtain ⟨s, hs, hspace, hword⟩ := (hx [] ',' r rfl).2 rfl
    rw [List.cons_append, commaNames_comma, (frontName_append hs hspace hword y).1, if_pos hempty]
    exact ih (hx.of_suffix (List.suffix_cons _ r))
  | case5 r hne hgroup ih =>
    obtain ⟨s, hs, hspace, hword⟩ := (hx [] ',' r rfl).2 rfl
    obtain ⟨hfront, hbehind⟩ := frontName_append hs hspace hword y
    rw [List.cons_append, commaNames_comma, hfront, if_neg hne, hbehind, ih]
    · rfl
    · refine hx.of_suffix ?_
      exact (List.dropWhile_suffix _).trans ((List.dropWhile_suffix _).trans (List.suffix_cons _ r))
  | case6 c r hgroup hcomma ih =>
    rw [List.cons_append, commaNames_cons hgroup hcomma]
    exact ih (hx.of_suffix (List.suffix_cons c r))

end Sealed

end EsModules
