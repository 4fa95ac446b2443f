import EsModules.Proofs.Token.Lookahead

/-!
# In front of a barrier

No word, number, punctuator or flag goes on across a quote or the end of a line.  A scanner that
stops by itself does in front of such a character what it does at the end of the input.

* `isBarrier`, `Barred`: quotes and line feeds, and inputs that start with one or are empty.
* `Scan.followedBy`: a scan with more input behind it.
* `scanNumber_followedBy`, `scanPunct_followedBy`: numbers and punctuators in front of a barrier.
* `scanWord_followedBy`, `scanRegex_followedBy`: words and regular expressions that end within the
  input in front of it.
* `scanString_followedBy`, `scanTemplate_followedBy`, `scanBlockComment_followedBy`: closed
  constructs in front of any input.
-/

namespace EsModules

/-! ## Barriers -/

/-- The characters that a string or a template starts with. -/
def isQuote (c : Char) : Bool := c == '"' || c == '\'' || c == '\x60'

theorem eq_of_isQuote {c : Char} (h : isQuote c = true) : c = '"' ∨ c = '\'' ∨ c = '\x60' := by
  simpa [isQuote, or_assoc] using h

/-- The quotes and the line feed. -/
def isBarrier (c : Char) : Bool := isQuote c || c == '\n'

theorem eq_of_isBarrier {c : Char} (h : isBarrier c = true) :
    c = '"' ∨ c = '\'' ∨ c = '\x60' ∨ c = '\n' := by
  rcases Bool.or_eq_true_iff.1 h with h | h
  · rcases eq_of_isQuote h with rfl | rfl | rfl <;> simp
  · exact .inr (.inr (.inr (beq_iff_eq.1 h)))

/-- An input that starts with a barrier, or is empty. -/
def Barred (s : List Char) : Prop := ∀ c r, s = c :: r → isBarrier c = true

theorem barred_nil : Barred [] := fun _ _ h => (nomatch h)

theorem barred_cons {c : Char} {r : List Char} (h : isBarrier c = true) : Barred (c :: r) :=
  fun _ _ heq => (List.cons.inj heq).1 ▸ h

/-- A scan with more input behind it. -/
def Scan.followedBy (x : Scan) (s : List Char) : Scan := ⟨x.text, x.rest ++ s, x.past⟩

@[simp]
theorem Scan.cons_followedBy (c : Char) (x : Scan) (s : List Char) :
    (x.cons c).followedBy s = (x.followedBy s).cons c := rfl

@[simp]
theorem Scan.prepend_followedBy (cs : List Char) (x : Scan) (s : List Char) :
    (x.prepend cs).followedBy s = (x.followedBy s).prepend cs := rfl

@[simp]
theorem Scan.width_followedBy (x : Scan) (s : List Char) : (x.followedBy s).width = x.width := rfl

variable {s : List Char}

/-- A test that no barrier passes fails for what a barred input starts with. -/
theorem Barred.head? (h : Barred s) {p : Char → Bool} (hp : ∀ c, isBarrier c = true → p c = false)
    (u : List Char) : ((u ++ s).head?.map p).getD false = (u.head?.map p).getD false := by
  cases u with
  | cons c u => rfl
  | nil =>
    cases s with
    | nil => rfl
    | cons c r => exact hp c (h c r rfl)

/-- A run of characters of which the one behind it is none. -/
theorem Scan.takeWhile_followedBy {p : Char → Bool} (hp : ∀ c r, s = c :: r → p c = false)
    (u : List Char) : Scan.takeWhile p (u ++ s) = (Scan.takeWhile p u).followedBy s := by
  unfold takeWhile followedBy
  dsimp only
  induction u with
  | nil =>
    cases s with
    | nil => rfl
    | cons c r =>
      have hc : ¬ p c = true := Bool.eq_false_iff.1 (hp c r rfl)
      rw [List.nil_append, List.takeWhile_cons_of_neg hc, List.dropWhile_cons_of_neg hc]
      rfl
  | cons c u ih =>
    obtain ⟨htext, hrest, -⟩ := Scan.mk.inj ih
    by_cases hc : p c = true
    · rw [List.cons_append, List.takeWhile_cons_of_pos hc, List.dropWhile_cons_of_pos hc,
        List.takeWhile_cons_of_pos hc, List.dropWhile_cons_of_pos hc, htext, hrest]
    · rw [List.cons_append, List.takeWhile_cons_of_neg hc, List.dropWhile_cons_of_neg hc,
        List.takeWhile_cons_of_neg hc, List.dropWhile_cons_of_neg hc]
      rfl

/-! ## Numbers -/

theorem isDigit_of_isBarrier (c : Char) (h : isBarrier c = true) : Ascii.isDigit c = false := by
  rcases eq_of_isBarrier h with rfl | rfl | rfl | rfl <;> rfl

theorem scanDigits_followedBy (h : Barred s) (u : List Char) :
    scanDigits (u ++ s) = (scanDigits u).followedBy s := by
  refine Scan.takeWhile_followedBy (fun c r hs => ?_) u
  rcases eq_of_isBarrier (h c r hs) with rfl | rfl | rfl | rfl <;> rfl

theorem scanFraction_of_ne {c : Char} (hc : c ≠ '.') (r : List Char) :
    scanFraction (c :: r) = ⟨[], c :: r, 0⟩ := by
  rw [scanFraction]
  exact fun r' heq => absurd (List.cons.inj heq).1 hc

theorem scanFraction_followedBy (h : Barred s) (u : List Char) :
    scanFraction (u ++ s) = (scanFraction u).followedBy s := by
  cases u with
  | nil =>
    cases s with
    | nil => rfl
    | cons c r =>
      refine scanFraction_of_ne ?_ r
      rintro rfl
      cases h _ _ rfl
  | cons c u =>
    by_cases hc : c = '.'
    · subst hc
      exact congrArg (Scan.cons '.') (scanDigits_followedBy h u)
    · rw [List.cons_append, scanFraction_of_ne hc, scanFraction_of_ne hc]
      rfl

theorem scanBigMark_of_ne {c : Char} (hc : c ≠ 'n') (r : List Char) :
    scanBigMark (c :: r) = ⟨[], c :: r, 0⟩ := by
  rw [scanBigMark]
  exact fun r' heq => absurd (List.cons.inj heq).1 hc

theorem scanBigMark_followedBy (h : Barred s) (u : List Char) :
    scanBigMark (u ++ s) = (scanBigMark u).followedBy s := by
  cases u with
  | nil =>
    cases s with
    | nil => rfl
    | cons c r =>
      refine scanBigMark_of_ne ?_ r
      rintro rfl
      cases h _ _ rfl
  | cons c u =>
    by_cases hc : c = 'n'
    · subst hc
      rfl
    · rw [List.cons_append, scanBigMark_of_ne hc, scanBigMark_of_ne hc]
      rfl

/-- Only the letter of an exponent starts one. -/
theorem scanExponent_of_ne {c : Char} (hc : (c == 'e' || c == 'E') = false) (r : List Char) :
    scanExponent (c :: r) = ⟨[], c :: r, 0⟩ := by
  match r with
  | [] => rfl
  | [d] => simp [scanExponent, hc]
  | d :: d' :: r => simp [scanExponent, hc]

/-- Behind the letter of an exponent stands a sign or a digit. -/
theorem scanExponent_of_ne_digit {d : Char} (hsign : (d == '+' || d == '-') = false)
    (hdigit : Ascii.isDigit d = false) (c : Char) (r : List Char) :
    scanExponent (c :: d :: r) = ⟨[], c :: d :: r, 0⟩ := by
  cases r <;> simp [scanExponent, hsign, hdigit]

theorem scanExponent_followedBy (h : Barred s) (u : List Char) :
    scanExponent (u ++ s) = (scanExponent u).followedBy s := by
  cases s with
  | nil => simp [Scan.followedBy]
  | cons q r =>
    have hq := h q r rfl
    have hdigit := isDigit_of_isBarrier q hq
    have hletter : (q == 'e' || q == 'E') = false := by
      rcases eq_of_isBarrier hq with rfl | rfl | rfl | rfl <;> rfl
    have hsign : (q == '+' || q == '-') = false := by
      rcases eq_of_isBarrier hq with rfl | rfl | rfl | rfl <;> rfl
    match u with
    | [] => exact scanExponent_of_ne hletter r
    | [c] => exact scanExponent_of_ne_digit hsign hdigit c r
    | [c, d] =>
      simp only [List.cons_append, List.nil_append, scanExponent, hdigit, Bool.and_false]
      rw [if_neg Bool.false_ne_true]
      split
      · rename_i hd
        have hone : scanDigits [d] = ⟨[d], [], 0⟩ := by
          simp only [Bool.and_eq_true] at hd
          simp [scanDigits, Scan.takeWhile, hd.2]
        have hdigits := scanDigits_followedBy h [d]
        rw [hone] at hdigits
        exact congrArg (Scan.cons c) hdigits
      · rfl
    | c :: d :: d' :: u =>
      simp only [List.cons_append, scanExponent]
      split
      · exact congrArg (Scan.prepend [c, d]) (scanDigits_followedBy h (d' :: u))
      · split
        · exact congrArg (Scan.cons c) (scanDigits_followedBy h (d :: d' :: u))
        · rfl

theorem scanNumber_decimal_followedBy (h : Barred s) (u : List Char) :
    scanNumber.decimal (u ++ s) = (scanNumber.decimal u).followedBy s := by
  unfold scanNumber.decimal
  simp only [scanDigits_followedBy h, Scan.followedBy, scanFraction_followedBy h,
    scanExponent_followedBy h, scanBigMark_followedBy h, Scan.prepend]

theorem scanNumber_of_ne {input : List Char}
    (h : ∀ x r, input = '0' :: x :: r → isRadixMark x = false) :
    scanNumber input = scanNumber.decimal input := by
  unfold scanNumber
  split
  · rename_i x r
    rw [if_neg (by simp [h x r rfl])]
  · rfl

/-- A number in front of a barrier. -/
theorem scanNumber_followedBy (h : Barred s) (u : List Char) :
    scanNumber (u ++ s) = (scanNumber u).followedBy s := by
  by_cases hradix : ∃ x u', u = '0' :: x :: u' ∧ isRadixMark x = true
  · obtain ⟨x, u', rfl, hx⟩ := hradix
    have hword : ∀ c r, s = c :: r → Ascii.isWordChar c = false := by
      intro c r hs
      rcases eq_of_isBarrier (h c r hs) with rfl | rfl | rfl | rfl <;> rfl
    simp only [List.cons_append, scanNumber, hx, if_true, Scan.prepend_followedBy]
    exact congrArg _ (Scan.takeWhile_followedBy hword u')
  · have hdecimal : ∀ t, Barred t → scanNumber (u ++ t) = scanNumber.decimal (u ++ t) := by
      intro t ht
      refine scanNumber_of_ne fun x r hinput => Bool.eq_false_iff.2 fun hx => ?_
      match u with
      | [] => cases ht _ _ hinput
      | [c] =>
        have hbarrier := ht x r (List.cons.inj hinput).2
        rcases eq_of_isBarrier hbarrier with rfl | rfl | rfl | rfl <;> cases hx
      | c :: d :: u' =>
        obtain ⟨rfl, hrest⟩ := List.cons.inj hinput
        obtain ⟨rfl, -⟩ := List.cons.inj hrest
        exact hradix ⟨d, u', rfl, hx⟩
    have hend := hdecimal [] barred_nil
    rw [List.append_nil] at hend
    rw [hdecimal s h, hend]
    exact scanNumber_decimal_followedBy h u

/-! ## Punctuators -/

/-- No punctuator has a barrier. -/
theorem Punct.isBarrier_of_mem_spellings : ∀ entry ∈ spellings, ∀ c ∈ entry.2.toList,
    isBarrier c = false := by
  have h : (spellings.all fun entry => entry.2.toList.all fun c => !isBarrier c) = true := by
    decide
  simpa only [List.all_eq_true, Bool.not_eq_true'] using h

/-- A text without barriers stands in front of a barrier whenever it stands at the end. -/
theorem Barred.dropPrefix? (h : Barred s) {beginning : List Char}
    (hbarrier : ∀ c ∈ beginning, isBarrier c = false) (u : List Char) :
    Text.dropPrefix? beginning (u ++ s) = (Text.dropPrefix? beginning u).map (· ++ s) := by
  induction beginning generalizing u with
  | nil => rfl
  | cons b bs ih =>
    cases u with
    | nil =>
      cases s with
      | nil => rfl
      | cons c r =>
        have hne : b ≠ c := by
          rintro rfl
          have hb := hbarrier b List.mem_cons_self
          rw [h b r rfl] at hb
          cases hb
        simp [Text.dropPrefix?, hne]
    | cons c u =>
      rw [List.cons_append, Text.dropPrefix?, Text.dropPrefix?]
      split
      · exact ih (fun c hc => hbarrier c (List.mem_cons_of_mem b hc)) u
      · rfl

/-- A punctuator in front of a barrier. -/
theorem scanPunct_followedBy (h : Barred s) (u : List Char) :
    scanPunct (u ++ s) = (scanPunct u).map fun found => (found.1, found.2.followedBy s) := by
  have hbarrier := Punct.isBarrier_of_mem_spellings
  unfold scanPunct
  generalize Punct.spellings = spellings at hbarrier ⊢
  induction spellings with
  | nil => rfl
  | cons entry spellings ih =>
    obtain ⟨mark, spelling⟩ := entry
    have hrest := ih fun e he => hbarrier e (List.mem_cons_of_mem _ he)
    simp only [List.findSome?_cons, h.dropPrefix? (hbarrier _ List.mem_cons_self) u]
    cases Text.dropPrefix? spelling.toList u with
    | none => exact hrest
    | some v =>
      simp only [Option.map_some, h.head? isDigit_of_isBarrier v]
      by_cases hdigit : (mark == .questionDot && (v.head?.map Ascii.isDigit).getD false) = true
      · simp only [hdigit, if_true]
        exact hrest
      · simp only [hdigit]
        rfl

/-! ## Words and closed constructs -/

theorem isWordStart_of_isBarrier (c : Char) (h : isBarrier c = true) : isWordStart c = false := by
  rcases eq_of_isBarrier h with rfl | rfl | rfl | rfl <;> rfl

/-- A word that ends within its input, in front of a barrier. -/
theorem scanWord_followedBy (h : Barred s) {b : Bool} {u : List Char}
    (hpast : (scanWord b u).past = 0) : scanWord b (u ++ s) = (scanWord b u).followedBy s := by
  fun_induction scanWord b u with
  | case1 => cases hpast
  | case2 c input ih =>
    rw [List.cons_append, scanWord, ih hpast]
    rfl
  | case3 input ih =>
    show scanWord false ('\\' :: 'u' :: '\x7b' :: (input ++ s)) = _
    rw [scanWord, ih hpast]
    rfl
  | case4 c input hopen hpart ih =>
    show scanWord false (c :: (input ++ s)) = _
    rw [scanWord, if_pos hpart, ih hpast]
    · rfl
    · -- an escape that opens at the end of the input has no brace there
      intro r hc hr
      rcases input with _ | ⟨d, _ | ⟨d', input⟩⟩
      · have hbarrier := h _ _ hr
        cases hbarrier
      · have hbarrier := h _ _ (List.cons.inj hr).2
        cases hbarrier
      · obtain ⟨rfl, hbrace⟩ := List.cons.inj hr
        obtain ⟨rfl, rfl⟩ := List.cons.inj hbrace
        exact hopen input hc rfl
  | case5 c input hopen hpart =>
    show scanWord false (c :: (input ++ s)) = _
    rw [scanWord, if_neg hpart]
    · rfl
    · intro r' hc
      simp [hc] at hpart
  | case6 =>
    cases s with
    | nil => rfl
    | cons c r =>
      have hpart : ¬ (isWordPart c || c == '\\') = true := by
        rcases eq_of_isBarrier (h c r rfl) with rfl | rfl | rfl | rfl <;> decide
      show scanWord false (c :: r) = _
      rw [scanWord, if_neg hpart]
      · rfl
      · intro r' hc
        simp [hc] at hpart

/-- A closed string in front of any input. -/
theorem scanString_followedBy {quote : Char} {u : List Char} (hquote : quote ≠ '\\')
    (hclosed : (scanString quote u).2 = true) (s : List Char) :
    scanString quote (u ++ s) = ((scanString quote u).1.followedBy s, true) := by
  have hsplit := scanString_text_append_rest quote u
  have happend := scanString_append hquote hclosed ((scanString quote u).1.rest ++ s)
  rw [← List.append_assoc, hsplit] at happend
  rw [happend, Scan.followedBy, scanString_past]

/-- A part of a template that has an end, in front of any input. -/
theorem scanTemplate_followedBy {u : List Char} (hend : (scanTemplate u).2 ≠ .missing)
    (s : List Char) :
    scanTemplate (u ++ s) = ((scanTemplate u).1.followedBy s, (scanTemplate u).2) := by
  have hsplit := scanTemplate_text_append_rest u
  have happend := scanTemplate_append hend ((scanTemplate u).1.rest ++ s)
  rw [← List.append_assoc, hsplit] at happend
  rw [happend, Scan.followedBy, scanTemplate_past]

/-- A closed comment in front of any input. -/
theorem scanBlockComment_followedBy {u : List Char} (hclosed : (scanBlockComment u).2 = true)
    (s : List Char) :
    scanBlockComment (u ++ s) = ((scanBlockComment u).1.followedBy s, true) := by
  have hsplit := scanBlockComment_text_append_rest u
  have happend := scanBlockComment_append hclosed ((scanBlockComment u).1.rest ++ s)
  rw [← List.append_assoc, hsplit] at happend
  rw [happend, Scan.followedBy, scanBlockComment_past]

/-- A closed regular expression with its flags, in front of a barrier. -/
theorem scanRegex_followedBy (h : Barred s) {u : List Char} (hclosed : (scanRegex u).2 = true) :
    scanRegex (u ++ s) = ((scanRegex u).1.followedBy s, true) := by
  have hletter : ∀ c r, s = c :: r → Ascii.isLetter c = false := by
    intro c r hs
    rcases eq_of_isBarrier (h c r hs) with rfl | rfl | rfl | rfl <;> rfl
  have hbody : (scanRegexBody false u).2 = true := hclosed
  have hsplit := scanRegexBody_text_append_rest false u
  have happend := scanRegexBody_append hbody ((scanRegexBody false u).1.rest ++ s)
  rw [← List.append_assoc, hsplit] at happend
  unfold scanRegex
  simp only [happend, hbody, if_true, Scan.takeWhile_followedBy hletter,
    Scan.prepend_followedBy]

end EsModules
