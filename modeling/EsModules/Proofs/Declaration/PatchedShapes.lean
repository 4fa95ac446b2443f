import EsModules.Declaration.Import
import EsModules.Proofs.Declaration.Patched

/-!
# Declarations in patched texts

The shapes of declarations do the same in two texts that differ within quotes, and no declaration
starts within a swapped text.

* `Shape.quoted_swap`, `Shape.agree_specifier`: a swapped text between the quotes of a specifier is
  the specifier.
* `Shape.crosses_balanced`: balanced text goes over swapped texts.
* `Shape.corresponds_staticImport`, `Shape.corresponds_dynamicImport`: imports.
* `Shape.corresponds_exportNamed` and its like: exports.
-/

namespace EsModules

open Patch Pattern

namespace Shape

variable {all : List Patch} {β β' : Type} {R : β → β' → Prop} {k : Follow Part β}
  {k' : Follow Part β'}

/-! ## Tests on plain characters and quotes -/

theorem isNoneOf_of_isPlain {text : String} (h : ∀ d ∈ text.toList, isPlain d = false) {a : Char}
    (ha : isPlain a = true) : isNoneOf text a = true := by
  simp only [isNoneOf, Bool.not_eq_true', List.contains_eq_mem, decide_eq_false_iff_not]
  intro hmem
  rw [h a hmem] at ha
  cases ha

theorem isSpace_of_isQuote {q : Char} (h : isQuote q = true) : Ascii.isSpace q = false := by
  rcases eq_of_isQuote h with rfl | rfl | rfl <;> rfl

/-! ## Specifiers -/

/-- The characters between the quotes of a specifier. -/
def isSpecifierChar (quote c : Char) : Bool := c != quote && c != '\n'

/-- The characters that a specifier can end in. -/
def isSpecifierEnd (quote c : Char) : Bool := c != quote && !Ascii.isSpace c

variable {q : Char}

theorem isSpecifierChar_of_isPlain (hq : isQuote q = true) {a : Char} (ha : isPlain a = true) :
    isSpecifierChar q a = true := by
  have hne := ne_of_isPlain ha (isPlain_of_isQuote hq)
  have hline := ne_of_isPlain ha (d := '\n') (by decide)
  simp [isSpecifierChar, hne, hline]

theorem isSpecifierEnd_of_isPlain (hq : isQuote q = true) {a : Char} (ha : isPlain a = true) :
    isSpecifierEnd q a = true := by
  have hne := ne_of_isPlain ha (isPlain_of_isQuote hq)
  simp [isSpecifierEnd, hne, isSpace_of_isPlain ha]

/-- The content of a specifier that is swapped is taken whole: what follows it is asked in front of
the closing quote. -/
theorem content_over (hq : isQuote q = true) {v : List Char} (hv : Text.Plain v)
    (hk : ∀ w before pos r caps, Text.Plain w → k ⟨before, pos, w ++ q :: r⟩ caps = none)
    (before : Option Char) (pos : Nat) (r : List Char) (caps : Captures Part) :
    (run (isSpecifierChar q) ++ char (isSpecifierEnd q)).followedBy k
        ⟨before, pos, v ++ q :: r⟩ caps =
      k ⟨v.getLast?, pos + Text.byteLength v, q :: r⟩ caps := by
  have hquote : isSpecifierChar q q = false := by simp [isSpecifierChar]
  have hend : isSpecifierEnd q q = false := by simp [isSpecifierEnd]
  induction v generalizing before pos with
  | nil => exact absurd rfl hv.1
  | cons a v ih =>
    have ha := hv.2.1 a List.mem_cons_self
    show (many true (char (isSpecifierChar q))).attempt ⟨before, pos, a :: (v ++ q :: r)⟩ caps
      ((char (isSpecifierEnd q)).followedBy k) = _
    have hhere : (char (isSpecifierEnd q)).followedBy k ⟨before, pos, a :: (v ++ q :: r)⟩ caps =
        k ⟨some a, pos + a.utf8Size, v ++ q :: r⟩ caps := by
      unfold followedBy
      rw [attempt_char_cons, if_pos (isSpecifierEnd_of_isPlain hq ha)]
    rw [attempt_many_char_cons, if_pos (isSpecifierChar_of_isPlain hq ha), hhere]
    dsimp only
    rw [if_pos rfl]
    cases v with
    | nil =>
      have hnone : (many true (char (isSpecifierChar q))).attempt
          ⟨some a, pos + a.utf8Size, [] ++ q :: r⟩ caps ((char (isSpecifierEnd q)).followedBy k) =
            none := by
        refine (many_char_neg hquote (some a) (pos + a.utf8Size) r caps).trans ?_
        unfold followedBy
        rw [attempt_char_cons, if_neg (by simp [hend])]
      rw [hnone]
      rfl
    | cons b v =>
      have hplain : Text.Plain (b :: v) :=
        ⟨List.cons_ne_nil b v, hv.2.of_suffix (List.suffix_cons a (b :: v))⟩
      have hmore := ih hplain (some a) (pos + a.utf8Size)
      rw [orElse_eq_left (.inl (hk _ _ _ _ _ hplain)), List.getLast?_cons_cons,
        Text.byteLength_cons a, ← Nat.add_assoc]
      exact hmore

/-- **A swapped text between the quotes of a specifier** is the specifier. -/
theorem quoted_swap (hq : isQuote q = true) {x : List Char} (hx : Text.Plain x)
    (before : Option Char) (pos : Nat) (r : List Char) (caps : Captures Part) :
    (quoted q).followedBy k ⟨before, pos, q :: (x ++ q :: r)⟩ caps =
      k ⟨some q, pos + q.utf8Size + Text.byteLength x + q.utf8Size, r⟩
        ((.specifier, ⟨pos + q.utf8Size, pos + q.utf8Size + Text.byteLength x⟩) :: caps) := by
  have hself : (q == q) = true := beq_self_eq_true q
  -- what is asked behind the content, which starts behind the quote
  let closing : Follow Part β := fun c caps =>
    spaces.followedBy ((char (· == q)).followedBy k) c
      ((.specifier, ⟨pos + q.utf8Size, c.pos⟩) :: caps)
  have hclosing : ∀ w before pos r caps, Text.Plain w →
      closing ⟨before, pos, w ++ q :: r⟩ caps = none := by
    intro w before pos r caps hw
    obtain ⟨a, v, rfl⟩ := List.exists_cons_of_ne_nil hw.1
    have ha := hw.2.1 a List.mem_cons_self
    refine (many_char_neg (isSpace_of_isPlain ha) _ _ _ _).trans (if_neg ?_)
    simpa using ne_of_isPlain ha (isPlain_of_isQuote hq)
  have hfront : (quoted q).followedBy k ⟨before, pos, q :: (x ++ q :: r)⟩ caps =
      spaces.followedBy ((capture Part.specifier
          (run (isSpecifierChar q) ++ char (isSpecifierEnd q)) ++ spaces
        ++ char (· == q)).followedBy k) ⟨some q, pos + q.utf8Size, x ++ q :: r⟩ caps :=
    if_pos hself
  have hback : closing ⟨x.getLast?, pos + q.utf8Size + Text.byteLength x, q :: r⟩ caps =
      k ⟨some q, pos + q.utf8Size + Text.byteLength x + q.utf8Size, r⟩
        ((.specifier, ⟨pos + q.utf8Size, pos + q.utf8Size + Text.byteLength x⟩) :: caps) :=
    (many_char_neg (isSpace_of_isQuote hq) _ _ _ _).trans (if_pos hself)
  rw [hfront, ← hback, ← content_over hq hx hclosing (some q)]
  exact many_char_stop (fun a ha => isSpace_of_isPlain ha) hx _ _ _ _

/-- The content of a specifier goes over a text between other quotes. -/
theorem content_cross {q' : Char} (hq : isQuote q = true) (hq' : isQuote q' = true) (hne : q' ≠ q)
    (hk : FailsInside q' k) {v : List Char} (hv : Text.Inert v) (before : Option Char) (pos : Nat)
    (r : List Char) (caps : Captures Part) :
    (run (isSpecifierChar q) ++ char (isSpecifierEnd q)).followedBy k
        ⟨before, pos, v ++ q' :: r⟩ caps =
      ((run (isSpecifierChar q) ++ char (isSpecifierEnd q)).followedBy k
          ⟨some q', pos + Text.byteLength v + q'.utf8Size, r⟩ caps).orElse
        fun _ => k ⟨some q', pos + Text.byteLength v + q'.utf8Size, r⟩ caps := by
  have hline : q' ≠ '\n' := by
    rintro rfl
    cases hq'
  have htest : isSpecifierChar q q' = true := by simp [isSpecifierChar, hne, hline]
  have htest' : isSpecifierEnd q q' = true := by
    simp [isSpecifierEnd, hne, isSpace_of_isQuote hq']
  induction v generalizing before pos with
  | nil =>
    show (many true (char (isSpecifierChar q))).attempt ⟨before, pos, q' :: r⟩ caps
      ((char (isSpecifierEnd q)).followedBy k) = _
    rw [attempt_many_char_cons, if_pos htest, Text.byteLength_nil, Nat.add_zero]
    unfold followedBy
    rw [attempt_char_cons, if_pos htest']
    rfl
  | cons a v ih =>
    have ha := hv.1 a List.mem_cons_self
    have hv' := hv.of_suffix (List.suffix_cons a v)
    have hhere : (char (isSpecifierEnd q)).attempt ⟨before, pos, a :: (v ++ q' :: r)⟩ caps k =
        none := by
      rw [attempt_char_cons, if_pos (isSpecifierEnd_of_isPlain hq ha)]
      exact hk _ caps ⟨v, r, rfl, hv'⟩
    rw [Text.byteLength_cons, ← Nat.add_assoc pos, ← ih hv' (some a)]
    show (many true (char (isSpecifierChar q))).attempt ⟨before, pos, a :: (v ++ q' :: r)⟩ caps
      ((char (isSpecifierEnd q)).followedBy k) = _
    rw [attempt_many_char_cons, if_pos (isSpecifierChar_of_isPlain hq ha)]
    exact orElse_eq_left (.inl hhere)

/-- The content of a specifier does the same in both texts if what follows it does, and fails within
texts between other quotes. -/
theorem agree_content (hall : ∀ p ∈ all, p.Valid) (hq : isQuote q = true)
    (hk : AgreeAtEdges all R k k')
    (hin : ∀ q', isQuote q' = true → q' ≠ q → FailsInside q' k ∧ FailsInside q' k') :
    AgreeAtEdges all R ((run (isSpecifierChar q) ++ char (isSpecifierEnd q)).followedBy k)
      ((run (isSpecifierChar q) ++ char (isSpecifierEnd q)).followedBy k') := by
  intro pre ps caps caps' h hcaps
  induction ps generalizing pre with
  | nil => exact .none
  | cons p ps ih =>
    have hmore := @ih (pre ++ [p]) (by rw [h]; simp)
    have hbehind := @hk (pre ++ [p]) ps caps caps' (by rw [h]; simp) hcaps
    cases p with
    | keep c =>
      rw [place_old_keep, place_new_keep] at hmore hbehind
      rw [place_old_cons_keep, place_new_cons_keep]
      refine rel_many_char ?_ fun _ => hmore
      rw [attempt_char_cons, attempt_char_cons]
      split
      · exact hbehind
      · exact .none
    | swap q' x y =>
      obtain ⟨hq', hx, hy⟩ := hall (swap q' x y) (by rw [h]; simp)
      rw [place_old_swap, place_new_swap] at hmore hbehind
      rw [place_old_cons_swap, place_new_cons_swap]
      refine rel_many_char ?_ fun htest => ?_
      · rw [attempt_char_cons, attempt_char_cons]
        split
        · rename_i htest
          have hne : q' ≠ q := by
            rintro rfl
            simp [isSpecifierEnd] at htest
          obtain ⟨hold, hnew⟩ := hin q' hq' hne
          rw [hold _ caps ⟨x, _, rfl, hx.2⟩, hnew _ caps' ⟨y, _, rfl, hy.2⟩]
          exact .none
        · exact .none
      · have hne : q' ≠ q := by
          rintro rfl
          simp [isSpecifierChar] at htest
        have hcross := content_cross hq hq' hne (hin q' hq' hne).1 hx.2 (some q')
          (Text.byteLength (pre.flatMap old) + q'.utf8Size) (ps.flatMap old) caps
        have hcross' := content_cross hq hq' hne (hin q' hq' hne).2 hy.2 (some q')
          (Text.byteLength (pre.flatMap new) + q'.utf8Size) (ps.flatMap new) caps'
        have hboth := rel_orElse hmore hbehind
        rwa [← hcross, ← hcross'] at hboth

/-- A quoted specifier does the same in both texts, if what follows it does. -/
theorem agree_quoted (hall : ∀ p ∈ all, p.Valid) (hq : isQuote q = true)
    (hk : AgreeAtEdges all R k k') (hopen : AgreeAtOpenings all R k k') :
    AgreeAtEdges all R ((quoted q).followedBy k) ((quoted q).followedBy k') := by
  have hspaces : Avoids all (spaces : Pattern Part) := avoids_of_avoidsQuotes hall rfl
  have hclosing : AgreeAtEdges all R ((spaces ++ char (· == q)).followedBy k)
      ((spaces ++ char (· == q)).followedBy k') := hspaces.agree (agree_char hk hopen _)
  have hfails : ∀ {β : Type} (k : Follow Part β) q', isQuote q' = true → q' ≠ q →
      FailsInside q' ((spaces ++ char (· == q)).followedBy k) := by
    intro β k q' hq' hne
    have hchar : FailsInside q' ((char (· == q)).followedBy k) :=
      failsInside_char (fun a ha => beq_false_of_ne (ne_of_isPlain ha (isPlain_of_isQuote hq)))
        (beq_false_of_ne hne) k
    have hspaces : (spaces : Pattern Part).avoidsQuotes = true := rfl
    exact hchar.of_avoidsQuotes hspaces hq'
  have hcontent : AgreeAtEdges all R
      ((capture Part.specifier (run (isSpecifierChar q) ++ char (isSpecifierEnd q))
        ++ (spaces ++ char (· == q))).followedBy k)
      ((capture Part.specifier (run (isSpecifierChar q) ++ char (isSpecifierEnd q))
        ++ (spaces ++ char (· == q))).followedBy k') :=
    fun _ _ _ _ h hcaps => agree_content hall hq (agree_remember h hclosing)
      (fun q' hq' hne => ⟨fun c _ hc => hfails k q' hq' hne c _ hc,
        fun c _ hc => hfails k' q' hq' hne c _ hc⟩) h hcaps
  have hbehind := hspaces.agree hcontent
  intro pre ps caps caps' h hcaps
  cases ps with
  | nil => exact .none
  | cons p ps =>
    cases p with
    | keep c =>
      have hstep := @hbehind (pre ++ [keep c]) ps caps caps' (by rw [h]; simp) hcaps
      rw [place_old_keep, place_new_keep] at hstep
      show Option.Rel R (if (some c).any (· == q) then _ else none)
        (if (some c).any (· == q) then _ else none)
      split
      · exact hstep
      · exact .none
    | swap q' x y =>
      obtain ⟨hq', hx, hy⟩ := hall (swap q' x y) (by rw [h]; simp)
      rw [place_old_cons_swap, place_new_cons_swap]
      by_cases hself : q' = q
      · subst hself
        rw [quoted_swap hq hx, quoted_swap hq hy, ← place_old_swap pre ps q' x y,
          ← place_new_swap pre ps q' x y]
        exact hk (by rw [h]; simp)
          (.cons ⟨rfl, ⟨aligned_opening h, aligned_closing h⟩, fun hloose => nomatch hloose⟩ hcaps)
      · show Option.Rel R (if (some q').any (· == q) then _ else none)
          (if (some q').any (· == q) then _ else none)
        rw [if_neg (by simpa using hself), if_neg (by simpa using hself)]
        exact .none

/-- No specifier starts with a plain character. -/
theorem specifier_eq_none {a : Char} (ha : isPlain a = true) (before : Option Char) (pos : Nat)
    (r : List Char) (caps : Captures Part) :
    specifier.followedBy k ⟨before, pos, a :: r⟩ caps = none := by
  have hquoted : ∀ q, isQuote q = true →
      (quoted q).followedBy k ⟨before, pos, a :: r⟩ caps = none := by
    intro q hq
    refine if_neg ?_
    simpa using ne_of_isPlain ha (isPlain_of_isQuote hq)
  have hdouble := hquoted '"' rfl
  have hsingle := hquoted '\'' rfl
  unfold followedBy at hdouble hsingle ⊢
  unfold specifier attempt
  rw [hdouble, hsingle]
  rfl

/-- **A specifier** does the same in both texts, if what follows it does. -/
theorem agree_specifier (hall : ∀ p ∈ all, p.Valid) (hk : AgreeAtEdges all R k k')
    (hopen : AgreeAtOpenings all R k k') :
    AgreeAtEdges all R (specifier.followedBy k) (specifier.followedBy k') :=
  fun _ _ _ _ h hcaps => rel_orElse (agree_quoted hall rfl hk hopen h hcaps)
    (agree_quoted hall rfl hk hopen h hcaps)

/-! ## Balanced text -/

/-- Balanced text goes on with a character that is no bracket. -/
theorem balanced_cons (n : Nat) {a : Char} (ha : isNoParen a = true) (before : Option Char)
    (pos : Nat) (r : List Char) (caps : Captures Part) :
    (balanced n).followedBy k ⟨before, pos, a :: r⟩ caps =
      ((balanced n).followedBy k ⟨some a, pos + a.utf8Size, r⟩ caps).orElse
        fun _ => k ⟨before, pos, a :: r⟩ caps := by
  have hpos : pos < pos + a.utf8Size := Nat.lt_add_of_pos_right a.utf8Size_pos
  cases n with
  | zero =>
    show (many true (char isNoParen)).attempt _ caps k = _
    rw [attempt_many_char_cons, if_pos ha]
    rfl
  | succ n =>
    have hopening : (a == '(') = false := by
      cases hparen : a == '(' with
      | false => rfl
      | true =>
        obtain rfl := eq_of_beq hparen
        cases ha
    show (many true _).attempt _ caps k = _
    rw [attempt_many]
    dsimp only
    rw [if_pos rfl]
    refine congrArg (fun again : Option β => again.orElse fun _ => k ⟨before, pos, a :: r⟩ caps) ?_
    show ((char isNoParen).attempt ⟨before, pos, a :: r⟩ caps _).orElse _ = _
    rw [attempt_char_cons, if_pos ha]
    dsimp only
    rw [if_pos hpos]
    exact orElse_eq_left (.inl (if_neg (by simp [hopening])))

theorem isNoParen_of_isPlain {a : Char} (ha : isPlain a = true) : isNoParen a = true :=
  isNoneOf_of_isPlain (Text.forall_mem_of_all (by decide)) ha

theorem isNoParen_of_isQuote (hq : isQuote q = true) : isNoParen q = true := by
  rcases eq_of_isQuote hq with rfl | rfl | rfl <;> rfl

/-- Balanced text goes over a text that a quote ends, if what follows it fails within that. -/
theorem balanced_over (n : Nat) (hq : isQuote q = true) (hk : FailsInside q k) {v : List Char}
    (hv : Text.Inert v) (before : Option Char) (pos : Nat) (r : List Char)
    (caps : Captures Part) :
    (balanced n).followedBy k ⟨before, pos, v ++ q :: r⟩ caps =
      (balanced n).followedBy k ⟨some q, pos + Text.byteLength v + q.utf8Size, r⟩ caps := by
  induction v generalizing before pos with
  | nil =>
    rw [List.nil_append, balanced_cons n (isNoParen_of_isQuote hq), Text.byteLength_nil,
      Nat.add_zero]
    exact orElse_eq_left (.inl (hk _ caps ⟨[], r, rfl, hv⟩))
  | cons a v ih =>
    have hmore := ih (hv.of_suffix (List.suffix_cons a v)) (some a) (pos + a.utf8Size)
    rw [Text.byteLength_cons, ← Nat.add_assoc pos, ← hmore, List.cons_append,
      balanced_cons n (isNoParen_of_isPlain (hv.1 a List.mem_cons_self))]
    exact orElse_eq_left (.inl (hk _ caps ⟨a :: v, r, rfl, hv⟩))

theorem balks_closing {closing : Char} (h : isPlain closing = false)
    (hquote : isQuote closing = false) : Balks (char (· == closing) : Pattern Part) := by
  refine .char (fun a ha => beq_false_of_ne (ne_of_isPlain ha h)) fun q hq => ?_
  refine beq_false_of_ne ?_
  rintro rfl
  rw [hq] at hquote
  cases hquote

/-- **Balanced text** goes over swapped texts. -/
theorem crosses_balanced (hall : ∀ p ∈ all, p.Valid) (n : Nat) : Crosses all (balanced n) := by
  induction n with
  | zero => exact .many_char hall (fun a ha => isNoParen_of_isPlain ha) true
  | succ n ihn =>
    have hparens : Avoids all
        (char (· == '(') ++ balanced n ++ char (· == ')') : Pattern Part) := by
      have hopening : Avoids all (char (· == '(') : Pattern Part) :=
        avoids_of_avoidsQuotes hall rfl
      have hclosing : Avoids all (char (· == ')') : Pattern Part) :=
        avoids_of_avoidsQuotes hall rfl
      exact ⟨fun hk => hopening.agree ((ihn.append hclosing (balks_closing rfl rfl)).agree hk)⟩
    refine ⟨fun {β β' R k k'} hk hin hin' pre ps => ?_⟩
    -- each round leaves fewer stretches behind it
    induction hlength : ps.length using Nat.strongRecOn generalizing pre ps with
    | ind size ih =>
      intro caps caps' h hcaps
      subst hlength
      have hlater : ∀ pre' ps' caps caps', ps'.length < ps.length → all = pre' ++ ps' →
          AlignedCaptures all caps caps' → Option.Rel R
            ((balanced (n + 1)).followedBy k (place old pre' ps') caps)
            ((balanced (n + 1)).followedBy k' (place new pre' ps') caps') :=
        fun pre' ps' caps caps' hlt => @ih ps'.length hlt pre' ps' rfl caps caps'
      have hedges := agree_onwards hall h hlater
      have hopenings : AgreeAtOpenings all R
          (fun c caps => if (place old pre ps).pos < c.pos then
            (balanced (n + 1)).followedBy k c caps else none)
          (fun c caps => if (place new pre ps).pos < c.pos then
            (balanced (n + 1)).followedBy k' c caps else none) := by
        intro pre' ps' q x y caps caps' h' hcaps
        obtain ⟨hq, hx, hy⟩ := hall (swap q x y) (by rw [h']; simp)
        have hlt : (place old pre ps).pos < (opened old pre' q x ps').pos ↔
            (place new pre ps).pos < (opened new pre' q y ps').pos :=
          (aligned_edge h).lt_iff hall (aligned_opening h')
        have hbehind : all = (pre' ++ [swap q x y]) ++ ps' := by rw [h']; simp
        dsimp only
        by_cases hpos : (place old pre ps).pos < (opened old pre' q x ps').pos
        · rw [if_pos hpos, if_pos (hlt.1 hpos)]
          unfold opened
          rw [balanced_over _ hq (hin q hq) hx.2, balanced_over _ hq (hin' q hq) hy.2,
            ← place_old_swap pre' ps' q x y, ← place_new_swap pre' ps' q x y]
          refine hlater _ ps' caps caps' ?_ hbehind hcaps
          obtain ⟨p, more, rfl⟩ := exists_append_of_lt h hbehind (by
            have hpos' : Text.byteLength (pre.flatMap old) <
              Text.byteLength (pre'.flatMap old) + q.utf8Size := hpos
            simp only [List.flatMap_append, List.flatMap_cons, List.flatMap_nil, List.append_nil,
              old, Text.byteLength_append, Text.byteLength_cons]
            omega)
          rw [List.length_cons, List.length_append]
          omega
        · rw [if_neg hpos, if_neg (mt hlt.2 hpos)]
          exact .none
      have hagain := rel_orElse (agree_char hedges hopenings isNoParen h hcaps)
        (hparens.agree hedges h hcaps)
      show Option.Rel R ((many true _).attempt _ caps k) ((many true _).attempt _ caps' k')
      rw [attempt_many, attempt_many]
      dsimp only
      rw [if_pos rfl, if_pos rfl]
      exact rel_orElse hagain (hk h hcaps)

/-! ## Imports -/

theorem balks_spaces1 : Balks (spaces1 : Pattern Part) :=
  (Balks.char (fun _ ha => isSpace_of_isPlain ha) fun _ hq => isSpace_of_isQuote hq).append _

/-- A given text is taken from the front of what lies behind a place. -/
theorem eq_append_of_literal {text : List Char} {c c' : Cursor} {caps caps' : Captures Part}
    (h : Matches (literal text) c caps c' caps') : c.rest = text ++ c'.rest := by
  induction text generalizing c caps with
  | nil =>
    cases h
    rfl
  | cons a text ih =>
    cases h with
    | seq hchar hrest =>
      cases hchar with
      | char ha =>
        obtain rfl := eq_of_beq ha
        exact congrArg _ (ih hrest)

/-- The end of an import declaration does the same in both texts. -/
theorem completes_importEnd (hall : ∀ p ∈ all, p.Valid) : Completes all importEnd := by
  have hend : Avoids all (run fun c => Ascii.isSpace c || c == ';' : Pattern Part) :=
    avoids_of_avoidsQuotes hall rfl
  have hplain : ∀ a, isPlain a = true → (Ascii.isSpace a || a == ';') = false := by
    intro a ha
    rw [isSpace_of_isPlain ha, Bool.false_or]
    exact beq_false_of_ne (ne_of_isPlain ha (by decide))
  exact ⟨fun hk hopen _ _ => agree_specifier hall (hend.agree hk)
    (agreeAtOpenings_stop hall hplain hopen)⟩

/-- No clause ends within a swapped text: the word in front of the specifier would have to end
it. -/
theorem failsInside_clause (hq : isQuote q = true) (k : Follow Part β) :
    FailsInside q ((capture Part.clause (run1 isClauseChar) ++ word "from" ++ spaces).followedBy
      (importEnd.followedBy k)) := by
  rintro c caps ⟨v, r, hrest, hv⟩
  have hsplit : (capture Part.clause (run1 isClauseChar) ++ word "from" : Pattern Part).attempt
      c caps (spaces.followedBy (importEnd.followedBy k)) = none := by
    refine attempt_eq_none fun c' caps' hmatch => ?_
    cases hmatch with
    | @seq _ _ _ _ c₁ caps₁ _ _ hclause hfrom =>
      obtain ⟨v₁, hrest₁, hsuffix⟩ := hclause.inside rfl hq hrest
      obtain ⟨v', hrest', hsuffix'⟩ := hfrom.inside rfl hq hrest₁
      have hword := eq_append_of_literal hfrom
      obtain ⟨before, pos, rest⟩ := c'
      obtain rfl : rest = v' ++ q :: r := hrest'
      have hplain := hv.of_suffix (hsuffix'.trans hsuffix)
      cases v' with
      | nil =>
        refine absurd ?_ hv.2
        rw [hrest₁] at hword
        exact List.append_cancel_right hword ▸ hsuffix
      | cons a v' =>
        have ha := hplain.1 a List.mem_cons_self
        exact (many_char_neg (isSpace_of_isPlain ha) before pos _ caps').trans
          (specifier_eq_none ha before pos _ caps')
  exact hsplit

theorem completes_staticImport (hall : ∀ p ∈ all, p.Valid) : Completes all staticImport := by
  have hfront : Avoids all (word "import" ++ spaces : Pattern Part) :=
    avoids_of_avoidsQuotes hall rfl
  have hclause : Avoids all
      (capture Part.clause (run1 isClauseChar) ++ word "from" ++ spaces : Pattern Part) :=
    avoids_of_avoidsQuotes hall rfl
  have hplain : ∀ a, isPlain a = true → (Ascii.isSpace a || a == '"' || a == '\'') = false := by
    intro a ha
    rw [isSpace_of_isPlain ha, Bool.false_or, Bool.or_eq_false_iff]
    exact ⟨beq_false_of_ne (ne_of_isPlain ha (by decide)),
      beq_false_of_ne (ne_of_isPlain ha (by decide))⟩
  refine ⟨fun {β β' R k k'} hk hopen hsome hsome' => hfront.agree ?_⟩
  have hend := (completes_importEnd hall).agree hk hopen hsome hsome'
  have hopenings : AgreeAtOpenings all R _ _ := agreeAtOpenings_of_fails hall
    (fun q hq => failsInside_clause hq k) fun q hq => failsInside_clause hq k'
  have hfrom : AgreeAtEdges all R ((many true _).followedBy _) ((many true _).followedBy _) :=
    agree_stop hall hplain (hclause.agree hend) hopenings
  exact fun _ _ _ _ h hcaps => rel_orElse (hfrom h hcaps) (hend h hcaps)

/-- Static imports are found at corresponding places. -/
theorem corresponds_staticImport (hall : ∀ p ∈ all, p.Valid) :
    Corresponds all staticImport StaticImport.startsStatement where
  edges _ _ h := (completes_staticImport hall).matchAt? h
  accepts m m' h := by
    unfold StaticImport.startsStatement
    rw [h.front.before_eq]
  inside q c _ _ hbefore := by
    obtain ⟨a, hbefore, ha⟩ := hbefore
    have hstart : (Text.isBlank a || a == ';' || a == '\x7d') = false := by
      rcases ha with ha | ha
      · rcases eq_of_isQuote ha with rfl | rfl | rfl <;> rfl
      · rw [isBlank_of_isPlain ha, Bool.false_or, Bool.or_eq_false_iff]
        exact ⟨beq_false_of_ne (ne_of_isPlain ha (by decide)),
          beq_false_of_ne (ne_of_isPlain ha (by decide))⟩
    cases hm : staticImport.matchAt? c with
    | none => rfl
    | some m =>
      have hnot : StaticImport.startsStatement m = false := by
        unfold StaticImport.startsStatement
        rw [front_of_matchAt? hm, hbefore]
        exact hstart
      simp [Option.filter, hnot]

/-- Calls of `import` are found at corresponding places. -/
theorem corresponds_dynamicImport (hall : ∀ p ∈ all, p.Valid) :
    Corresponds all dynamicImport fun _ => true := by
  have hfront : Avoids all (word "import" ++ spaces ++ char (· == '(') : Pattern Part) :=
    avoids_of_avoidsQuotes hall rfl
  have hclosing : Avoids all (char (· == ')') : Pattern Part) := avoids_of_avoidsQuotes hall rfl
  have hargument := ((crosses_balanced hall 2).capture .expression).append hclosing
    (balks_closing rfl rfl)
  have havoids : Avoids all dynamicImport := ⟨fun hk => hfront.agree (hargument.agree hk)⟩
  have hbalks : Balks (word "import" ++ spaces ++ char (· == '(') : Pattern Part) :=
    (balks_closing rfl rfl).behind rfl
  exact havoids.completes.corresponds ((hbalks.append _).append _)

/-! ## Exports -/

theorem balks_exportFront : Balks (exportFront ++ spaces1) := balks_spaces1.behind rfl

theorem isInLine_of_isPlain {a : Char} (ha : isPlain a = true) : isInLine a = true := by
  simpa [isInLine] using ne_of_isPlain ha (d := '\n') (by decide)

theorem avoids_furtherDeclarator (hall : ∀ p ∈ all, p.Valid) : Avoids all furtherDeclarator := by
  have hbehind : Avoids all (char (· == ',') ++ spaces ++ run isDeclaratorChar
      ++ run1 isDeclaratorEnd : Pattern Part) := avoids_of_avoidsQuotes hall rfl
  have hbalks : Balks (char (· == ',') ++ spaces ++ run isDeclaratorChar
      ++ run1 isDeclaratorEnd : Pattern Part) :=
    (((balks_closing rfl rfl).append _).append _).append _
  have hline : Crosses all (run isInLine : Pattern Part) :=
    .many_char hall (fun a ha => isInLine_of_isPlain ha) true
  exact ⟨fun hk => (hline.append hbehind hbalks).agree hk⟩

/-- Exported declarations are found at corresponding places. -/
theorem corresponds_exportDeclaration (hall : ∀ p ∈ all, p.Valid) :
    Corresponds all exportDeclaration fun _ => true := by
  have hfront : Avoids all (exportFront ++ spaces1 ++ capture .declaration valueWords ++ spaces1
      ++ orNothing (char (· == '*')) ++ capture .name identifier) :=
    avoids_of_avoidsQuotes hall rfl
  have hmore : Avoids all (many true (capture Part.extra furtherDeclarator)) :=
    ((avoids_furtherDeclarator hall).capture .extra).many hall true
  refine (hfront.append hmore).completes.corresponds ?_
  exact ((((balks_exportFront.append _).append _).append _).append _).append _

/-- The module that an export passes on from is found in both texts. -/
theorem completes_fromClause (hall : ∀ p ∈ all, p.Valid) :
    Completes all (orNothing fromClause) := by
  have hfront : Avoids all (spaces ++ word "from" ++ spaces : Pattern Part) :=
    avoids_of_avoidsQuotes hall rfl
  have hplain : ∀ a, isPlain a = true → (a != '\n' && a != ';') = true := by
    intro a ha
    have hline := ne_of_isPlain ha (d := '\n') (by decide)
    have hsemicolon := ne_of_isPlain ha (d := ';') (by decide)
    simp [hline, hsemicolon]
  have hquote : ∀ q, isQuote q = true → (q != '\n' && q != ';') = true := by
    intro q hq
    rcases eq_of_isQuote hq with rfl | rfl | rfl <;> rfl
  have hfrom : Completes all fromClause := by
    refine ⟨fun {β β' R k k'} hk _ hsome hsome' => hfront.agree (agree_specifier hall ?_ ?_)⟩
    · exact agree_many_char hall hplain hk fun _ _ _ => ⟨.inr ⟨rfl, hsome⟩, .inr ⟨rfl, hsome'⟩⟩
    · exact agreeAtOpenings_many_char hall hplain hquote hk fun _ _ =>
        ⟨.inr ⟨rfl, hsome⟩, .inr ⟨rfl, hsome'⟩⟩
  exact hfrom.alt Avoids.empty.completes

/-- Exported lists are found at corresponding places. -/
theorem corresponds_exportNamed (hall : ∀ p ∈ all, p.Valid) :
    Corresponds all exportNamed fun _ => true := by
  have hfront : Avoids all (exportFront ++ spaces ++ (char (· == '\x7b')
      ++ capture .entries (shortRun1 (isNoneOf "\x7d\"'\x60")) ++ listEnd
      ++ char (· == '\x7d'))) := avoids_of_avoidsQuotes hall rfl
  have hlist := (completes_fromClause hall).behind hfront
  have hcompletes : Completes all exportNamed := ⟨hlist.agree⟩
  have hbalks : Balks exportList :=
    ((((balks_closing rfl rfl).append _).append _).append _).append _
  exact hcompletes.corresponds (hbalks.behind rfl)

/-- Names between brackets go over swapped texts. -/
theorem avoids_bracketed (hall : ∀ p ∈ all, p.Valid) {opening closing : Char}
    (hopening : isQuote opening = false) (hclosing : isQuote closing = false)
    (hplain : isPlain closing = false) : Avoids all (bracketed opening closing) := by
  have hne : ∀ c, isQuote c = false → ∀ q, isQuote q = true → q ≠ c := by
    rintro c hc q hq rfl
    rw [hq] at hc
    cases hc
  have hfront : Avoids all (char (· == opening) : Pattern Part) :=
    .char hall fun q hq => beq_false_of_ne (hne opening hopening q hq)
  have hend : Avoids all (listEnd ++ char (· == closing)) :=
    (avoids_of_avoidsQuotes hall rfl).append
      (.char hall fun q hq => beq_false_of_ne (hne closing hclosing q hq))
  have hbalks : Balks (listEnd ++ char (· == closing)) :=
    (balks_closing hplain hclosing).behind rfl
  have hentries : Crosses all (shortRun1 (· != closing) : Pattern Part) := by
    refine .char_many_char hall (fun a ha => ?_) (fun q hq => ?_) false
    · simpa using ne_of_isPlain ha hplain
    · simpa using hne closing hclosing q hq
  exact ⟨fun hk => hfront.agree (((hentries.capture .entries).append hend hbalks).agree hk)⟩

/-- Exported declarations that take a value apart are found at corresponding places. -/
theorem corresponds_exportDestructured (hall : ∀ p ∈ all, p.Valid) :
    Corresponds all exportDestructured fun _ => true := by
  have hfront : Avoids all (exportFront ++ spaces1 ++ oneWord ["let", "var", "const"] ++ spaces1) :=
    avoids_of_avoidsQuotes hall rfl
  have hend : Avoids all (spaces1 : Pattern Part) := avoids_of_avoidsQuotes hall rfl
  have hequals : Avoids all (char (· == '=') : Pattern Part) := avoids_of_avoidsQuotes hall rfl
  have hbraces : Avoids all (bracketed '\x7b' '\x7d') := avoids_bracketed hall rfl rfl rfl
  have hsquare : Avoids all (bracketed '[' ']') := avoids_bracketed hall rfl rfl rfl
  have havoids := ((hfront.append (hbraces.alt hsquare)).append hend).append hequals
  refine havoids.completes.corresponds ?_
  exact ((((balks_exportFront.append _).append _).append _).append _).append _

/-- Default exports are found at corresponding places. -/
theorem corresponds_exportDefault (hall : ∀ p ∈ all, p.Valid) :
    Corresponds all exportDefault fun _ => true := by
  have hfront : Avoids all exportDefaultFront := avoids_of_avoidsQuotes hall rfl
  have hwords : Avoids all
      (oneWord ["async function", "function", "class", "true", "false"] : Pattern Part) :=
    avoids_of_avoidsQuotes hall rfl
  have hline : Completes all (run isInLine : Pattern Part) :=
    .run hall fun a ha => isInLine_of_isPlain ha
  have hvalue : Completes all (capture .value (run isInLine)) := hline.capture rfl
  have hcompletes : Completes all exportDefault :=
    ((hwords.completes.alt (.char _)).behind hfront).alt (hvalue.behind hfront)
  have hbalks : Balks exportDefaultFront := (balks_exportFront.append _).append _
  exact hcompletes.corresponds ((hbalks.append _).alt (hbalks.append _))

/-- Exported default classes are found at corresponding places. -/
theorem corresponds_exportDefaultClass (hall : ∀ p ∈ all, p.Valid) :
    Corresponds all exportDefaultClass fun _ => true := by
  have havoids : Avoids all exportDefaultClass := avoids_of_avoidsQuotes hall rfl
  refine havoids.completes.corresponds ?_
  exact ((((balks_exportFront.append _).append _).append _).append _).append _

/-- Exports of all that another module exports are found at corresponding places. -/
theorem corresponds_exportStar (hall : ∀ p ∈ all, p.Valid) :
    Corresponds all exportStar fun _ => true := by
  have hfront : Avoids all (exportFront ++ spaces ++ char (· == '*')
      ++ orNothing (spaces ++ word "as" ++ spaces1 ++ capture .name identifier ++ spaces1)
      ++ spaces) := avoids_of_avoidsQuotes hall rfl
  have hcompletes : Completes all exportStar := (completes_fromClause hall).behind hfront
  have hbalks : Balks (exportFront ++ spaces ++ char (· == '*')) :=
    (balks_closing rfl rfl).behind rfl
  exact hcompletes.corresponds (((hbalks.append _).append _).append _)

end Shape

end EsModules
