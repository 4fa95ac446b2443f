import EsModules.Proofs.Token.Barrier
import EsModules.Proofs.Token.Gaps

/-!
# Inputs that differ behind a quote

No token but a string or a template goes on across a quote.  Up to a quote, and in front of it, the
lexer therefore does the same whatever stands behind the quote.

* `Joint`: two inputs that start with the same quote, or that are both empty.
* `Scan.Alike`: two scans that take the same text and stop in front of a joint.
* `alike_scanNumber`, `alike_scanPunct`: numbers and punctuators stop there by themselves.
* `alike_scanWord`, `alike_scanString`, `alike_scanTemplate`, `alike_scanRegex`: the others, if they
  stop there with the first input, do with the second.
* `Lexer.trivia_swap`: so do spaces and comments.
-/

namespace EsModules

/-! ## In front of a quote -/

/-- Two inputs that start with the same quote, or that are both empty. -/
inductive Joint : List Char → List Char → Prop
  | nil : Joint [] []
  | quote {q : Char} {r r' : List Char} : isQuote q = true → Joint (q :: r) (q :: r')

variable {s s' : List Char}

theorem Joint.symm (h : Joint s s') : Joint s' s := by
  cases h with
  | nil => exact .nil
  | quote hq => exact .quote hq

/-- Both inputs of a joint start with a barrier, or are empty. -/
theorem Joint.barred (h : Joint s s') : Barred s ∧ Barred s' := by
  cases h with
  | nil => exact ⟨barred_nil, barred_nil⟩
  | @quote q r r' hq =>
    have hbarrier : isBarrier q = true := Bool.or_eq_true_iff.2 (.inl hq)
    exact ⟨barred_cons hbarrier, barred_cons hbarrier⟩

/-- Behind a common text the next character is the same. -/
theorem Joint.head? (h : Joint s s') (u : List Char) : (u ++ s').head? = (u ++ s).head? := by
  cases u with
  | nil => cases h <;> rfl
  | cons c u => rfl

/-- A character that is no quote stands in front of the joint. -/
theorem Joint.exists_cons (h : Joint s s') {c : Char} {u r : List Char} (hc : isQuote c = false)
    (hu : c :: r = u ++ s) : ∃ u', u = c :: u' ∧ r = u' ++ s := by
  cases u with
  | nil =>
    cases h with
    | nil => cases hu
    | quote hq =>
      obtain ⟨rfl, -⟩ := List.cons.inj hu
      rw [hc] at hq
      cases hq
  | cons d u =>
    obtain ⟨rfl, rfl⟩ := List.cons.inj hu
    exact ⟨u, rfl, rfl⟩

/-- Two scans that take the same text and stop in front of the joint of their inputs. -/
def Scan.Alike (s s' : List Char) (x x' : Scan) : Prop :=
  ∃ v, x.rest = v ++ s ∧ x' = ⟨x.text, v ++ s', x.past⟩

namespace Scan.Alike

variable {x x' : Scan}

theorem prepend (h : Alike s s' x x') (cs : List Char) :
    Alike s s' (x.prepend cs) (x'.prepend cs) := by
  obtain ⟨v, hv, rfl⟩ := h
  exact ⟨v, hv, rfl⟩

theorem cons (h : Alike s s' x x') (c : Char) : Alike s s' (x.cons c) (x'.cons c) :=
  h.prepend [c]

/-- One scan with each of the inputs behind it. -/
theorem followedBy (x : Scan) : Alike s s' (x.followedBy s) (x.followedBy s') := ⟨x.rest, rfl, rfl⟩

end Scan.Alike

theorem alike_scanNumber (h : Joint s s') (u : List Char) :
    Scan.Alike s s' (scanNumber (u ++ s)) (scanNumber (u ++ s')) := by
  rw [scanNumber_followedBy h.barred.1, scanNumber_followedBy h.barred.2]
  exact .followedBy _

theorem alike_scanPunct (h : Joint s s') (u : List Char) :
    (scanPunct (u ++ s) = none ∧ scanPunct (u ++ s') = none) ∨
      ∃ m x x', scanPunct (u ++ s) = some (m, x) ∧ scanPunct (u ++ s') = some (m, x') ∧
        Scan.Alike s s' x x' := by
  rw [scanPunct_followedBy h.barred.1, scanPunct_followedBy h.barred.2]
  cases scanPunct u with
  | none => exact .inl ⟨rfl, rfl⟩
  | some found => exact .inr ⟨found.1, _, _, rfl, rfl, .followedBy found.2⟩

/-! ## Constructs that stop in front of the joint -/

/-- What is taken in front of a joint stands in front of both inputs, and what follows it starts the
same way. -/
theorem cut_of_joint (h : Joint s s') {text rest u : List Char} (hsplit : text ++ rest = u ++ s)
    (hs : s <:+ rest) :
    ∃ v, rest = v ++ s ∧ u ++ s' = text ++ (v ++ s') ∧ (v ++ s').head? = rest.head? := by
  obtain ⟨v, rfl⟩ := hs
  rw [← List.append_assoc] at hsplit
  obtain rfl := List.append_cancel_right hsplit
  exact ⟨v, rfl, List.append_assoc _ _ _, h.head? v⟩

theorem alike_scanWord (h : Joint s s') {b : Bool} {u : List Char}
    (hs : s <:+ (scanWord b (u ++ s)).rest) :
    Scan.Alike s s' (scanWord b (u ++ s)) (scanWord b (u ++ s')) := by
  obtain ⟨v, hv, hu, hhead⟩ := cut_of_joint h (scanWord_text_append_rest b (u ++ s)) hs
  refine ⟨v, hv, ?_⟩
  rw [hu]
  exact scanWord_append hhead

theorem alike_scanTemplate (h : Joint s s') {u : List Char}
    (hclosed : (scanTemplate (u ++ s)).2 ≠ .missing) (hs : s <:+ (scanTemplate (u ++ s)).1.rest) :
    Scan.Alike s s' (scanTemplate (u ++ s)).1 (scanTemplate (u ++ s')).1 ∧
      (scanTemplate (u ++ s')).2 = (scanTemplate (u ++ s)).2 := by
  obtain ⟨v, hv, hu, -⟩ := cut_of_joint h (scanTemplate_text_append_rest (u ++ s)) hs
  rw [hu, scanTemplate_append hclosed]
  exact ⟨⟨v, hv, by rw [scanTemplate_past]⟩, rfl⟩

theorem alike_scanString (h : Joint s s') {quote : Char} (hquote : quote ≠ '\\') {u : List Char}
    (hclosed : (scanString quote (u ++ s)).2 = true)
    (hs : s <:+ (scanString quote (u ++ s)).1.rest) :
    Scan.Alike s s' (scanString quote (u ++ s)).1 (scanString quote (u ++ s')).1 ∧
      (scanString quote (u ++ s')).2 = true := by
  obtain ⟨v, hv, hu, -⟩ := cut_of_joint h (scanString_text_append_rest quote (u ++ s)) hs
  rw [hu, scanString_append hquote hclosed]
  exact ⟨⟨v, hv, by rw [scanString_past]⟩, rfl⟩

theorem alike_scanRegex (h : Joint s s') {u : List Char} (hclosed : (scanRegex (u ++ s)).2 = true)
    (hs : s <:+ (scanRegex (u ++ s)).1.rest) :
    Scan.Alike s s' (scanRegex (u ++ s)).1 (scanRegex (u ++ s')).1 ∧
      (scanRegex (u ++ s')).2 = true := by
  obtain ⟨v, hv, hu, hhead⟩ := cut_of_joint h (scanRegex_text_append_rest (u ++ s)) hs
  rw [hu, scanRegex_append hclosed hhead]
  exact ⟨⟨v, hv, by rw [scanRegex_past _ hclosed]⟩, rfl⟩

/-! ## Spaces and comments -/

namespace Lexer

/-- What spaces and comments take, and where they end. -/
theorem trivia_split {pos : Nat} {input : List Char} (h : (trivia pos input).unclosed = none) :
    ∃ gap, input = gap ++ (trivia pos input).rest ∧
      (trivia pos input).pos = pos + Text.byteLength gap := by
  obtain ⟨gap, blanks, hgap, hpos, -⟩ := trivia_gap h
  exact ⟨gap, hgap, hpos⟩

theorem trivia_of_space {c : Char} (hc : isSpace c = true) (pos : Nat) (r : List Char) :
    trivia pos (c :: r) = trivia (pos + c.utf8Size) r := by
  rw [trivia, if_pos hc]
  · rintro r' rfl
    cases hc
  · rintro r' rfl
    cases hc

/-- Neither a space nor a comment stands here. -/
theorem trivia_of_ne {c : Char} {r : List Char} (hspace : isSpace c = false)
    (hcomment : c = '/' → r.head? ≠ some '/' ∧ r.head? ≠ some '*') (pos : Nat) :
    trivia pos (c :: r) = ⟨[], pos, c :: r, none⟩ := by
  rw [trivia, if_neg (by simp [hspace])]
  · intro r' hc hr
    exact (hcomment hc).1 (congrArg List.head? hr)
  · intro r' hc hr
    exact (hcomment hc).2 (congrArg List.head? hr)

theorem trivia_of_quote {c : Char} (hc : isQuote c = true) (pos : Nat) (r : List Char) :
    trivia pos (c :: r) = ⟨[], pos, c :: r, none⟩ := by
  rcases eq_of_isQuote hc with rfl | rfl | rfl <;>
    exact trivia_of_ne (by decide) (fun h => absurd h (by decide)) pos

/-- Spaces and comments in front of a joint are skipped the same way. -/
theorem trivia_swap (h : Joint s s') {pos : Nat} {u : List Char}
    (hclosed : (trivia pos (u ++ s)).unclosed = none)
    (hs : s <:+ (trivia pos (u ++ s)).rest) (pos' : Nat) :
    ∃ v, (trivia pos (u ++ s)).rest = v ++ s ∧ (trivia pos' (u ++ s')).rest = v ++ s' ∧
      (trivia pos' (u ++ s')).unclosed = none := by
  generalize hinput : u ++ s = input at hclosed hs ⊢
  fun_induction trivia pos input generalizing u pos' with
  | case1 pos =>
    obtain ⟨rfl, rfl⟩ := List.append_eq_nil_iff.1 hinput
    cases h
    exact ⟨[], rfl, by rw [List.append_nil, trivia], by rw [List.append_nil, trivia]⟩
  | case2 =>
    rename_i pos r x t ih
    obtain ⟨u, rfl, hu⟩ := h.exists_cons (by decide) hinput.symm
    obtain ⟨u, rfl, rfl⟩ := h.exists_cons (by decide) hu
    obtain ⟨gap, hgap, -⟩ := trivia_split hclosed
    have hsplit := Scan.takeWhile_text_append_rest (fun c => !Ascii.isLineEnd c) (u ++ s)
    obtain ⟨v, hv, hu', hhead⟩ := cut_of_joint h hsplit (hs.trans ⟨gap, hgap.symm⟩)
    have hcomment : scanLineComment (u ++ s') =
        ⟨(scanLineComment (u ++ s)).text, v ++ s', 0⟩ := by
      rw [hu']
      exact Scan.takeWhile_append hhead
    show ∃ v, t.rest = v ++ s ∧ (trivia pos' ('/' :: '/' :: (u ++ s'))).rest = v ++ s' ∧
      (trivia pos' ('/' :: '/' :: (u ++ s'))).unclosed = none
    rw [trivia, hcomment]
    exact ih _ hv.symm hclosed hs
  | case3 =>
    rename_i pos r body x hend t ih
    obtain ⟨u, rfl, hu⟩ := h.exists_cons (by decide) hinput.symm
    obtain ⟨u, rfl, rfl⟩ := h.exists_cons (by decide) hu
    obtain ⟨gap, hgap, -⟩ := trivia_split hclosed
    have hsplit := scanBlockComment_text_append_rest (u ++ s)
    obtain ⟨v, hv, hu', -⟩ := cut_of_joint h hsplit (hs.trans ⟨gap, hgap.symm⟩)
    have hcomment : scanBlockComment (u ++ s') =
        (⟨(scanBlockComment (u ++ s)).1.text, v ++ s', 0⟩, true) := by
      rw [hu']
      exact scanBlockComment_append hend _
    show ∃ v, t.rest = v ++ s ∧ (trivia pos' ('/' :: '*' :: (u ++ s'))).rest = v ++ s' ∧
      (trivia pos' ('/' :: '*' :: (u ++ s'))).unclosed = none
    rw [trivia, hcomment]
    exact ih _ hv.symm hclosed hs
  | case4 => cases hclosed
  | case5 pos c r hline hblock hspace ih =>
    have hc : EsModules.isQuote c = false := Bool.eq_false_iff.2 fun hq => by
      rcases eq_of_isQuote hq with rfl | rfl | rfl <;> cases hspace
    obtain ⟨u, rfl, rfl⟩ := h.exists_cons hc hinput.symm
    rw [List.cons_append, trivia_of_space hspace]
    exact ih _ rfl hclosed hs
  | case6 pos c r hline hblock hspace =>
    refine ⟨u, hinput.symm, ?_⟩
    suffices hstop : trivia pos' (u ++ s') = ⟨[], pos', u ++ s', none⟩ by
      rw [hstop]
      exact ⟨rfl, rfl⟩
    cases u with
    | nil =>
      cases h with
      | nil => cases hinput
      | quote hq => exact trivia_of_quote hq pos' _
    | cons d u =>
      obtain ⟨rfl, rfl⟩ := List.cons.inj hinput
      refine trivia_of_ne (Bool.eq_false_iff.2 hspace) (fun hc => ?_) pos'
      show (u ++ s').head? ≠ some '/' ∧ (u ++ s').head? ≠ some '*'
      rw [h.head? u]
      constructor
      · intro hhead
        obtain ⟨t, ht⟩ := List.head?_eq_some_iff.1 hhead
        exact hline t hc ht
      · intro hhead
        obtain ⟨t, ht⟩ := List.head?_eq_some_iff.1 hhead
        exact hblock t hc ht

end Lexer

end EsModules
