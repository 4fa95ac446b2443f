import EsModules.Token.Lexer

/-!
# How far scanners look

A scanner that has met the end of its construct has looked at nothing behind it: with any other
text there it takes the same characters.  The scanners of words, comments up to the end of a line
and flags look at one character more.

* `scanString_append`, `scanTemplate_append`, `scanBlockComment_append`, `scanRegexBody_append`:
  a closed construct is read the same way whatever follows it.
* `Scan.takeWhile_append`, `scanWord_append`, `scanRegex_append`: so are runs, words and regular
  expressions, if the same character follows them.
-/

namespace EsModules

/-- The first character of an input is that of the text taken from it. -/
theorem exists_cons_of_text {text rest input r r' : List Char} {c : Char} (hne : text ≠ [])
    (hsplit : text ++ rest = input) (hr : text ++ r = c :: r') : ∃ t, input = c :: t := by
  obtain ⟨a, as, rfl⟩ := List.exists_cons_of_ne_nil hne
  obtain ⟨rfl, -⟩ := List.cons.inj hr
  exact ⟨as ++ rest, hsplit.symm⟩

/-! ## Strings, templates and comments -/

theorem scanString_text_ne_nil {quote : Char} {input : List Char}
    (h : (scanString quote input).2 = true) : (scanString quote input).1.text ≠ [] := by
  fun_cases scanString quote input <;> simp_all [scanString, Scan.prepend, Scan.cons]

theorem scanString_cons {quote c : Char} (hc : c ≠ '\\') (r : List Char) :
    scanString quote (c :: r) =
      if Ascii.isLineEnd c then (⟨[], c :: r, 0⟩, false)
      else if c == quote then (⟨[c], r, 0⟩, true)
      else ((scanString quote r).1.cons c, (scanString quote r).2) := by
  rw [scanString]
  · exact fun r' hback => absurd hback hc
  · exact fun c' r' hback => absurd hback hc

/-- A closed string is read the same way whatever follows it. -/
theorem scanString_append {quote : Char} {input : List Char} (hquote : quote ≠ '\\')
    (h : (scanString quote input).2 = true) (r : List Char) :
    scanString quote ((scanString quote input).1.text ++ r) =
      (⟨(scanString quote input).1.text, r, 0⟩, true) := by
  fun_induction scanString quote input with
  | case1 => cases h
  | case2 input x closed hx ih =>
    rw [hx] at ih
    show scanString quote ('\\' :: '\r' :: '\n' :: (x.text ++ r)) = _
    rw [scanString, ih h]
    rfl
  | case3 c input hcr x closed hx ih =>
    have hsplit := scanString_text_append_rest quote input
    have hne := @scanString_text_ne_nil quote input (by rw [hx]; exact h)
    rw [hx] at ih hsplit hne
    show scanString quote ('\\' :: c :: (x.text ++ r)) = _
    rw [scanString, ih h]
    · rfl
    · intro r' hc hr
      obtain ⟨t, rfl⟩ := exists_cons_of_text hne hsplit hr
      exact hcr t hc rfl
  | case4 => cases h
  | case5 c input hcr hback hend heq =>
    have hc : c ≠ '\\' := by
      rw [beq_iff_eq] at heq
      exact heq ▸ hquote
    show scanString quote (c :: r) = _
    rw [scanString_cons hc, if_neg hend, if_pos heq]
  | case6 c input hcr hback hend heq x closed hx ih =>
    have hc : c ≠ '\\' := by
      rintro rfl
      cases input with
      | nil =>
        rw [scanString] at hx
        cases hx
        cases h
      | cons a input => exact hback a input rfl rfl
    rw [hx] at ih
    show scanString quote (c :: (x.text ++ r)) = _
    rw [scanString_cons hc, if_neg hend, if_neg heq, ih h]
    rfl

theorem scanTemplate_text_ne_nil {input : List Char} (h : (scanTemplate input).2 ≠ .missing) :
    (scanTemplate input).1.text ≠ [] := by
  fun_cases scanTemplate input <;> simp_all [scanTemplate, Scan.prepend, Scan.cons]

/-- A part of a template that has an end is read the same way whatever follows it. -/
theorem scanTemplate_append {input : List Char} (h : (scanTemplate input).2 ≠ .missing)
    (r : List Char) :
    scanTemplate ((scanTemplate input).1.text ++ r) =
      (⟨(scanTemplate input).1.text, r, 0⟩, (scanTemplate input).2) := by
  fun_induction scanTemplate input with
  | case1 => exact absurd rfl h
  | case2 c input s e hs ih =>
    rw [hs] at ih
    show scanTemplate ('\\' :: c :: (s.text ++ r)) = _
    rw [scanTemplate, ih h]
    rfl
  | case3 input => rfl
  | case4 c input hback hopen hend =>
    obtain rfl := beq_iff_eq.1 hend
    rfl
  | case5 c input hback hopen hend s e hs ih =>
    have hsplit := scanTemplate_text_append_rest input
    have hne := @scanTemplate_text_ne_nil input (by rw [hs]; exact h)
    rw [hs] at ih hsplit hne
    show scanTemplate (c :: (s.text ++ r)) = _
    rw [scanTemplate, if_neg hend, ih h]
    · rfl
    · intro c' r' hc hr
      obtain ⟨t, rfl⟩ := exists_cons_of_text hne hsplit hr
      exact hback c' t hc rfl
    · intro r' hc hr
      obtain ⟨t, rfl⟩ := exists_cons_of_text hne hsplit hr
      exact hopen t hc rfl

theorem scanBlockComment_text_ne_nil {input : List Char} (h : (scanBlockComment input).2 = true) :
    (scanBlockComment input).1.text ≠ [] := by
  fun_cases scanBlockComment input <;> simp_all [scanBlockComment, Scan.cons]

/-- A closed comment is read the same way whatever follows it. -/
theorem scanBlockComment_append {input : List Char} (h : (scanBlockComment input).2 = true)
    (r : List Char) :
    scanBlockComment ((scanBlockComment input).1.text ++ r) =
      (⟨(scanBlockComment input).1.text, r, 0⟩, true) := by
  fun_induction scanBlockComment input with
  | case1 => cases h
  | case2 input => rfl
  | case3 c input hend s closed hs ih =>
    have hsplit := scanBlockComment_text_append_rest input
    have hne := @scanBlockComment_text_ne_nil input (by rw [hs]; exact h)
    rw [hs] at ih hsplit hne
    show scanBlockComment (c :: (s.text ++ r)) = _
    rw [scanBlockComment, ih h]
    · rfl
    · intro r' hc hr
      obtain ⟨t, rfl⟩ := exists_cons_of_text hne hsplit hr
      exact hend t hc rfl

/-! ## Runs and words -/

/-- A run is the same if the same character follows it. -/
theorem Scan.takeWhile_append {p : Char → Bool} {input r : List Char}
    (h : r.head? = (Scan.takeWhile p input).rest.head?) :
    Scan.takeWhile p ((Scan.takeWhile p input).text ++ r) =
      ⟨(Scan.takeWhile p input).text, r, 0⟩ := by
  unfold Scan.takeWhile at h ⊢
  dsimp only at h ⊢
  induction input with
  | nil =>
    obtain rfl : r = [] := List.head?_eq_none_iff.1 h
    rfl
  | cons c input ih =>
    by_cases hc : p c = true
    · rw [List.dropWhile_cons_of_pos hc] at h
      obtain ⟨htext, hrest, -⟩ := Scan.mk.inj (ih h)
      rw [List.takeWhile_cons_of_pos hc, List.cons_append, List.takeWhile_cons_of_pos hc,
        List.dropWhile_cons_of_pos hc, htext, hrest]
    · rw [List.dropWhile_cons_of_neg hc] at h
      obtain ⟨t, rfl⟩ := List.head?_eq_some_iff.1 h
      rw [List.takeWhile_cons_of_neg hc, List.nil_append, List.takeWhile_cons_of_neg hc,
        List.dropWhile_cons_of_neg hc]

/-- Behind a text that is not empty, the first two characters of an input are known with the one
that follows the text. -/
theorem exists_cons_cons_of_text {text rest r r' : List Char} {c d : Char} (hne : text ≠ [])
    (hhead : r.head? = rest.head?) (hr : text ++ r = c :: d :: r') :
    ∃ t, text ++ rest = c :: d :: t := by
  match text, hne with
  | [a], _ =>
    obtain ⟨rfl, hrest⟩ := List.cons.inj hr
    have hd : r.head? = some d := congrArg List.head? hrest
    obtain ⟨t, rfl⟩ := List.head?_eq_some_iff.1 (hhead.symm.trans hd)
    exact ⟨t, rfl⟩
  | a :: b :: as, _ =>
    obtain ⟨rfl, hrest⟩ := List.cons.inj hr
    obtain ⟨rfl, -⟩ := List.cons.inj hrest
    exact ⟨as ++ rest, rfl⟩

/-- A word is the same if the same character follows it. -/
theorem scanWord_append {b : Bool} {input : List Char} {r : List Char}
    (h : r.head? = (scanWord b input).rest.head?) :
    scanWord b ((scanWord b input).text ++ r) =
      ⟨(scanWord b input).text, r, (scanWord b input).past⟩ := by
  fun_induction scanWord b input with
  | case1 =>
    obtain rfl : r = [] := List.head?_eq_none_iff.1 h
    rfl
  | case2 c input ih =>
    show scanWord true (c :: ((scanWord (c != '\x7d') input).text ++ r)) = _
    rw [scanWord, ih h]
    rfl
  | case3 input ih =>
    show scanWord false ('\\' :: 'u' :: '\x7b' :: ((scanWord true input).text ++ r)) = _
    rw [scanWord, ih h]
    rfl
  | case4 c input hopen hpart ih =>
    have hsplit := scanWord_text_append_rest false input
    show scanWord false (c :: ((scanWord false input).text ++ r)) = _
    rw [scanWord, if_pos hpart, ih h]
    · rfl
    · -- an escape that opens behind the character was there before
      intro r' hc hr
      by_cases hne : (scanWord false input).text = []
      · rw [hne, List.nil_append] at hr hsplit
        have hhead := h
        rw [hr] at hhead
        obtain ⟨t, ht⟩ := List.head?_eq_some_iff.1 hhead.symm
        refine absurd hne ?_
        rw [← hsplit, show (scanWord false input).rest = 'u' :: t from ht]
        exact Lexer.scanWord_text_ne_nil (by decide) (by decide)
      · obtain ⟨t, ht⟩ := exists_cons_cons_of_text hne h hr
        exact hopen t hc (hsplit.symm.trans ht)
  | case5 c input hopen hpart =>
    obtain ⟨t, rfl⟩ := List.head?_eq_some_iff.1 h
    show scanWord false (c :: t) = _
    rw [scanWord, if_neg hpart]
    intro r' hc
    simp [hc] at hpart
  | case6 =>
    obtain rfl : r = [] := List.head?_eq_none_iff.1 h
    rfl

/-! ## Regular expressions -/

theorem scanRegexBody_cons {inClass : Bool} {c : Char} (hc : c ≠ '\\') (r : List Char) :
    scanRegexBody inClass (c :: r) =
      if Ascii.isLineEnd c then (⟨[], c :: r, 0⟩, false)
      else if c == '/' && !inClass then (⟨[c], r, 0⟩, true)
      else ((scanRegexBody (c == '[' || (inClass && c != ']')) r).1.cons c,
        (scanRegexBody (c == '[' || (inClass && c != ']')) r).2) := by
  rw [scanRegexBody]
  · exact fun hback => absurd hback hc
  · exact fun c' r' hback => absurd hback hc

theorem ne_backslash_of_patterns {c : Char} {input : List Char}
    (hlast : c = '\\' → input = [] → False)
    (hback : ∀ c' r', c = '\\' → input = c' :: r' → False) : c ≠ '\\' := by
  intro hc
  cases input with
  | nil => exact hlast hc rfl
  | cons c' r' => exact hback c' r' hc rfl

/-- A closed regular expression is read the same way whatever follows it. -/
theorem scanRegexBody_append {inClass : Bool} {input : List Char}
    (h : (scanRegexBody inClass input).2 = true) (r : List Char) :
    scanRegexBody inClass ((scanRegexBody inClass input).1.text ++ r) =
      (⟨(scanRegexBody inClass input).1.text, r, 0⟩, true) := by
  fun_induction scanRegexBody inClass input with
  | case1 => cases h
  | case2 => cases h
  | case3 => cases h
  | case4 inClass c input hend s closed hs ih =>
    rw [hs] at ih
    show scanRegexBody inClass ('\\' :: c :: (s.text ++ r)) = _
    rw [scanRegexBody, if_neg hend, ih h]
    rfl
  | case5 => cases h
  | case6 inClass c input hlast hback hend hslash =>
    have hc : c ≠ '\\' := ne_backslash_of_patterns hlast hback
    show scanRegexBody inClass (c :: r) = _
    rw [scanRegexBody_cons hc, if_neg hend, if_pos hslash]
  | case7 inClass c input hlast hback hend hslash inClass' s closed hs ih =>
    rw [hs] at ih
    have hc : c ≠ '\\' := ne_backslash_of_patterns hlast hback
    show scanRegexBody inClass (c :: (s.text ++ r)) = _
    rw [scanRegexBody_cons hc, if_neg hend, if_neg hslash, ih h]
    rfl

/-- With its flags it is, if the same character follows them. -/
theorem scanRegex_append {input r : List Char} (h : (scanRegex input).2 = true)
    (hr : r.head? = (scanRegex input).1.rest.head?) :
    scanRegex ((scanRegex input).1.text ++ r) = (⟨(scanRegex input).1.text, r, 0⟩, true) := by
  have hclosed : (scanRegexBody false input).2 = true := h
  unfold scanRegex at hr ⊢
  dsimp only at hr ⊢
  rw [if_pos hclosed] at hr ⊢
  simp only [Scan.prepend, List.append_assoc, scanRegexBody_append hclosed, if_true,
    Scan.takeWhile_append hr]

end EsModules
