import EsModules.Proofs.Declaration.Sites
import EsModules.Proofs.Pattern.Leftmost
import Mathlib.Data.List.Pairwise

/-!
# Calls of `import`

The argument of a call is looked for by a pattern that repeats itself twice.  What it finds can be
said by counting: the argument reaches up to the bracket that closes the call, and at most two
brackets are open at once in it.

* `IsEnclosed`, `NestsWithin`: texts between an opening bracket and the one that closes it.
* `matches_balanced`, `Pattern.Matches.of_balanced`: what `Shape.balanced` describes.
* `DynamicImport.OccursIn`: a call stands in a source.
* `DynamicImport.candidates_exact`: the calls that are found are the leftmost ones.
-/

namespace EsModules

open Pattern

/-! ## Counting brackets -/

/-- A text between an opening bracket and the one that closes it: as many brackets are closed as
opened, and up to nowhere more. -/
structure IsEnclosed (text : List Char) : Prop where
  closed : text.count ')' = text.count '('
  opened : ∀ front, front <+: text → front.count ')' ≤ front.count '('

/-- At most a given number of brackets are open at once. -/
def NestsWithin (n : Nat) (text : List Char) : Prop :=
  ∀ front, front <+: text → front.count '(' ≤ front.count ')' + n

variable {n : Nat} {text rest inner tail : List Char}

/-- Only one closing bracket closes an enclosed text. -/
theorem IsEnclosed.unique {text' rest' : List Char} (h : IsEnclosed text) (h' : IsEnclosed text')
    (heq : text ++ ')' :: rest = text' ++ ')' :: rest') : text = text' := by
  -- the closing bracket behind one text would close more than is open in the other
  have hnot : ∀ {a b more r r' : List Char}, IsEnclosed a → IsEnclosed b → b = a ++ more →
      ')' :: r = more ++ ')' :: r' → a = b := by
    intro a b more r r' ha hb hmore hbehind
    cases more with
    | nil => rw [hmore, List.append_nil]
    | cons c more =>
      obtain ⟨rfl, -⟩ := List.cons.inj hbehind
      have hclosed := hb.opened (a ++ [')']) ⟨more, by rw [hmore]; simp⟩
      have hbalance := ha.closed
      simp [List.count_append] at hclosed
      omega
  rcases List.append_eq_append_iff.1 heq with ⟨more, hmore, hrest⟩ | ⟨more, hmore, hrest⟩
  · exact hnot h h' hmore hrest
  · exact (hnot h' h hmore hrest).symm

/-- Where more is closed than opened, some bracket closes an enclosed text. -/
theorem exists_enclosed {front : List Char} (hfront : front <+: text)
    (hcount : front.count '(' < front.count ')') :
    ∃ inner tail, text = inner ++ ')' :: tail ∧ IsEnclosed inner := by
  induction hlength : front.length using Nat.strongRecOn generalizing front with
  | ind length ih =>
    rcases List.eq_nil_or_concat' front with rfl | ⟨inner, c, rfl⟩
    · simp at hcount
    by_cases hearlier : ∃ earlier, earlier <+: inner ∧ earlier.count '(' < earlier.count ')'
    · obtain ⟨earlier, hbegins, hless⟩ := hearlier
      have hshorter := hbegins.length_le
      refine ih earlier.length ?_ (hbegins.trans ((List.prefix_append _ _).trans hfront)) hless rfl
      rw [← hlength, List.length_append, List.length_singleton]
      omega
    · have hopened : ∀ earlier, earlier <+: inner → earlier.count ')' ≤ earlier.count '(' :=
        fun earlier hbegins => Nat.le_of_not_lt fun hless => hearlier ⟨earlier, hbegins, hless⟩
      have hinner := hopened inner List.prefix_rfl
      rw [List.count_append, List.count_append] at hcount
      have hc : c = ')' := by
        by_contra hne
        have hnone : List.count ')' [c] = 0 := List.count_eq_zero.2 (by simpa using Ne.symm hne)
        omega
      subst hc
      have hclosed : inner.count ')' = inner.count '(' := by
        simp at hcount
        omega
      obtain ⟨tail, rfl⟩ := hfront
      exact ⟨inner, tail, by simp, hclosed, hopened⟩

/-! ## Texts put together -/

theorem count_of_noParens (h : ∀ c ∈ text, Shape.isNoParen c = true) :
    text.count '(' = 0 ∧ text.count ')' = 0 := by
  constructor <;> refine List.count_eq_zero.2 fun hmem => ?_ <;> cases h _ hmem

theorem isEnclosed_of_noParens (h : ∀ c ∈ text, Shape.isNoParen c = true) : IsEnclosed text := by
  refine ⟨?_, fun front hfront => ?_⟩
  · rw [(count_of_noParens h).1, (count_of_noParens h).2]
  · rw [(count_of_noParens fun c hc => h c (hfront.subset hc)).2]
    exact Nat.zero_le _

theorem nestsWithin_of_noParens (h : ∀ c ∈ text, Shape.isNoParen c = true) :
    NestsWithin n text := by
  intro front hfront
  rw [(count_of_noParens fun c hc => h c (hfront.subset hc)).1]
  exact Nat.zero_le _

/-- The beginnings of two texts one behind the other. -/
theorem prefix_append_cases {front : List Char} (h : front <+: text ++ rest) :
    front <+: text ∨ ∃ more, front = text ++ more ∧ more <+: rest := by
  rcases List.prefix_or_prefix_of_prefix h (List.prefix_append text rest) with hfront | hfront
  · exact .inl hfront
  · obtain ⟨more, rfl⟩ := hfront
    exact .inr ⟨more, rfl, (List.prefix_append_right_inj text).1 h⟩

theorem IsEnclosed.append (h : IsEnclosed text) (hrest : IsEnclosed rest) :
    IsEnclosed (text ++ rest) := by
  refine ⟨?_, fun front hfront => ?_⟩
  · rw [List.count_append, List.count_append, h.closed, hrest.closed]
  · rcases prefix_append_cases hfront with hfront | ⟨more, rfl, hmore⟩
    · exact h.opened front hfront
    · rw [List.count_append, List.count_append, h.closed]
      exact Nat.add_le_add_left (hrest.opened more hmore) _

theorem NestsWithin.append (h : NestsWithin n text) (htext : IsEnclosed text)
    (hrest : NestsWithin n rest) : NestsWithin n (text ++ rest) := by
  intro front hfront
  rcases prefix_append_cases hfront with hfront | ⟨more, rfl, hmore⟩
  · exact h front hfront
  · rw [List.count_append, List.count_append, htext.closed, Nat.add_assoc]
    exact Nat.add_le_add_left (hrest more hmore) _

/-- The beginnings of a text in brackets. -/
theorem prefix_bracketed_cases {front : List Char} (h : front <+: '(' :: (inner ++ [')'])) :
    front = [] ∨ (∃ more, front = '(' :: more ∧ more <+: inner) ∨
      front = '(' :: (inner ++ [')']) := by
  cases front with
  | nil => exact .inl rfl
  | cons c front =>
    obtain ⟨rfl, hfront⟩ := List.cons_prefix_cons.1 h
    rcases List.prefix_concat_iff.1 hfront with rfl | hfront
    · exact .inr (.inr rfl)
    · exact .inr (.inl ⟨front, rfl, hfront⟩)

theorem IsEnclosed.bracketed (h : IsEnclosed inner) : IsEnclosed ('(' :: (inner ++ [')'])) := by
  have hclosed := h.closed
  refine ⟨by simp [List.count_append, hclosed], fun front hfront => ?_⟩
  rcases prefix_bracketed_cases hfront with rfl | ⟨more, rfl, hmore⟩ | rfl
  · exact Nat.le_refl _
  · have hopened := h.opened more hmore
    simp
    omega
  · simp [List.count_append, hclosed]

theorem NestsWithin.bracketed (h : NestsWithin n inner) (hinner : IsEnclosed inner) :
    NestsWithin (n + 1) ('(' :: (inner ++ [')'])) := by
  have hclosed := hinner.closed
  intro front hfront
  rcases prefix_bracketed_cases hfront with rfl | ⟨more, rfl, hmore⟩ | rfl
  · exact Nat.zero_le _
  · have hnests := h more hmore
    simp
    omega
  · simp [List.count_append, hclosed]

/-! ## Texts taken apart -/

/-- Behind its opening bracket an enclosed text has an enclosed text, the bracket that closes it and
an enclosed text. -/
theorem IsEnclosed.exists_bracketed (h : IsEnclosed ('(' :: rest)) :
    ∃ inner tail, rest = inner ++ ')' :: tail ∧ IsEnclosed inner ∧ IsEnclosed tail := by
  have hcount := h.closed
  simp only [List.count_cons] at hcount
  have hmore : rest.count '(' < rest.count ')' := by
    simp at hcount
    omega
  obtain ⟨inner, tail, rfl, hinner⟩ := exists_enclosed List.prefix_rfl hmore
  have hclosed := hinner.closed
  refine ⟨inner, tail, rfl, hinner, ?_, fun front hfront => ?_⟩
  · simp [List.count_append] at hcount
    omega
  · have hwhole : '(' :: (inner ++ ')' :: front) <+: '(' :: (inner ++ ')' :: tail) := by
      simpa using hfront
    have hopened := h.opened _ hwhole
    simp [List.count_append] at hopened
    omega

theorem NestsWithin.of_bracketed (h : NestsWithin (n + 1) ('(' :: (inner ++ ')' :: tail)))
    (hinner : IsEnclosed inner) : NestsWithin n inner ∧ NestsWithin (n + 1) tail := by
  have hclosed := hinner.closed
  refine ⟨fun front hfront => ?_, fun front hfront => ?_⟩
  · have hwhole : '(' :: front <+: '(' :: (inner ++ ')' :: tail) := by
      simpa using hfront.trans (List.prefix_append _ _)
    have hnests := h _ hwhole
    simp at hnests
    omega
  · have hwhole : '(' :: (inner ++ ')' :: front) <+: '(' :: (inner ++ ')' :: tail) := by
      simpa using hfront
    have hnests := h _ hwhole
    simp [List.count_append] at hnests
    omega

/-- Behind a character other than a bracket the rest of a text is enclosed just as well. -/
theorem IsEnclosed.of_cons {c : Char} (h : IsEnclosed (c :: rest)) (hc : Shape.isNoParen c = true) :
    IsEnclosed rest := by
  have hsingle : ∀ a ∈ [c], Shape.isNoParen a = true := by simpa using hc
  obtain ⟨hopening, hclosing⟩ := count_of_noParens hsingle
  have hclosed := h.closed
  rw [← List.singleton_append, List.count_append, List.count_append, hopening, hclosing] at hclosed
  refine ⟨by omega, fun front hfront => ?_⟩
  have hopened := h.opened (c :: front) (by simpa using hfront)
  rw [← List.singleton_append, List.count_append, List.count_append, hopening, hclosing] at hopened
  omega

theorem NestsWithin.of_cons {c : Char} (h : NestsWithin n (c :: rest))
    (hc : Shape.isNoParen c = true) : NestsWithin n rest := by
  have hsingle : ∀ a ∈ [c], Shape.isNoParen a = true := by simpa using hc
  obtain ⟨hopening, hclosing⟩ := count_of_noParens hsingle
  intro front hfront
  have hnests := h (c :: front) (by simpa using hfront)
  rw [← List.singleton_append, List.count_append, List.count_append, hopening, hclosing] at hnests
  omega

/-- An enclosed text starts with no closing bracket. -/
theorem IsEnclosed.head_ne (h : IsEnclosed (')' :: rest)) : False := by
  have hopened := h.opened [')'] (by simp)
  simp at hopened

/-- In a text in which no bracket is open at any time there are none. -/
theorem noParens_of_nestsWithin (h : IsEnclosed text) (hnests : NestsWithin 0 text) :
    ∀ c ∈ text, Shape.isNoParen c = true := by
  have hopening : '(' ∉ text := by
    intro hmem
    obtain ⟨front, back, rfl⟩ := List.append_of_mem hmem
    have hopened := h.opened front (List.prefix_append _ _)
    have hless := hnests (front ++ ['(']) ⟨back, by simp⟩
    simp [List.count_append] at hless
    omega
  have hclosing : ')' ∉ text := by
    rw [← List.count_eq_zero, h.closed, List.count_eq_zero]
    exact hopening
  intro c hc
  have hc1 : c ≠ '(' := ne_of_mem_of_not_mem hc hopening
  have hc2 : c ≠ ')' := ne_of_mem_of_not_mem hc hclosing
  simp [Shape.isNoParen, isNoneOf, hc1, hc2]

/-! ## What the pattern describes -/

variable {before : Option Char} {pos : Nat} {c c' c'' : Cursor} {caps caps' : Captures Part}

/-- From one place to another lies a text. -/
structure Passes (c : Cursor) (text : List Char) (c' : Cursor) : Prop where
  rest_eq : c.rest = text ++ c'.rest
  pos_eq : c'.pos = c.pos + Text.byteLength text

theorem Passes.append (h : Passes c text c') (h' : Passes c' tail c'') :
    Passes c (text ++ tail) c'' := by
  refine ⟨?_, ?_⟩
  · rw [h.rest_eq, h'.rest_eq, List.append_assoc]
  · rw [h'.pos_eq, h.pos_eq, Text.byteLength_append, Nat.add_assoc]

theorem Pattern.Matches.passes_char {test : Char → Bool}
    (h : Matches (.char test) c caps c' caps') :
    ∃ a, test a = true ∧ Passes c [a] c' ∧ caps' = caps := by
  cases h with
  | @char _ before pos a rest caps ha => exact ⟨a, ha, ⟨rfl, rfl⟩, rfl⟩

theorem Pattern.Matches.passes_run {test : Char → Bool} (h : Matches (run test) c caps c' caps') :
    ∃ text, (∀ a ∈ text, test a = true) ∧ Passes c text c' ∧ caps' = caps := by
  obtain ⟨text, htext, hrest, hend, hcaps⟩ := h.exists_text
  exact ⟨text, htext, ⟨hrest, by rw [hend]; rfl⟩, hcaps⟩

/-- The pattern of balanced texts takes enclosed texts that nest no deeper than it repeats itself,
and remembers nothing. -/
theorem Pattern.Matches.of_balanced (h : Matches (Shape.balanced n) c caps c' caps') :
    ∃ text, Passes c text c' ∧ caps' = caps ∧ IsEnclosed text ∧ NestsWithin n text := by
  induction n generalizing c caps c' caps' with
  | zero =>
    obtain ⟨text, htext, hpasses, hcaps⟩ := Matches.passes_run h
    exact ⟨text, hpasses, hcaps, isEnclosed_of_noParens htext, nestsWithin_of_noParens htext⟩
  | succ n ih =>
    -- a round takes one character, or a text in brackets
    have hround : ∀ {c caps c' caps'}, Matches (alt (Pattern.char Shape.isNoParen)
        (Pattern.char (· == '(') ++ Shape.balanced n ++ Pattern.char (· == ')'))) c caps c' caps' →
        ∃ text, Passes c text c' ∧ caps' = caps ∧ IsEnclosed text ∧ NestsWithin (n + 1) text := by
      intro c caps c' caps' h
      cases h with
      | altFirst h =>
        obtain ⟨a, ha, hpasses, hcaps⟩ := h.passes_char
        have ha : ∀ c ∈ [a], Shape.isNoParen c = true := by simpa using ha
        exact ⟨[a], hpasses, hcaps, isEnclosed_of_noParens ha, nestsWithin_of_noParens ha⟩
      | altSecond h =>
        cases h with
        | seq h hclosing =>
          cases h with
          | seq hopening hinner =>
            obtain ⟨a, ha, hopening, rfl⟩ := hopening.passes_char
            obtain ⟨inner, hpasses, rfl, henclosed, hnests⟩ := ih hinner
            obtain ⟨b, hb, hclosing, rfl⟩ := hclosing.passes_char
            obtain rfl := eq_of_beq ha
            obtain rfl := eq_of_beq hb
            exact ⟨'(' :: (inner ++ [')']), hopening.append (hpasses.append hclosing), rfl,
              henclosed.bracketed, hnests.bracketed henclosed⟩
    generalize hp : Shape.balanced (n + 1) = p at h
    induction h with
    | @manyDone _ _ c caps =>
      have hnone : ∀ c ∈ ([] : List Char), Shape.isNoParen c = true := by simp
      exact ⟨[], ⟨rfl, rfl⟩, rfl, isEnclosed_of_noParens hnone, nestsWithin_of_noParens hnone⟩
    | manyMore _ hfirst _ _ ihMore =>
      obtain ⟨rfl, rfl⟩ := Pattern.many.inj hp
      obtain ⟨first, hpasses, rfl, henclosed, hnests⟩ := hround hfirst
      obtain ⟨more, hpassesMore, rfl, henclosedMore, hnestsMore⟩ := ihMore rfl
      exact ⟨first ++ more, hpasses.append hpassesMore, rfl, henclosed.append henclosedMore,
        hnests.append henclosed hnestsMore⟩
    | _ => cases hp

/-- The pattern takes every enclosed text that nests no deeper than it repeats itself. -/
theorem matches_balanced (h : IsEnclosed text) (hnests : NestsWithin n text)
    (before : Option Char) (pos : Nat) (rest : List Char) (caps : Captures Part) :
    Matches (Shape.balanced n) ⟨before, pos, text ++ rest⟩ caps
      (.past before pos text rest) caps := by
  induction n generalizing text before pos rest with
  | zero => exact matches_many_char true (noParens_of_nestsWithin h hnests) before pos rest caps
  | succ n ih =>
    induction hlength : text.length using Nat.strongRecOn generalizing text before pos with
    | ind length ihText =>
      cases text with
      | nil => exact .manyDone
      | cons a text =>
        have hpos : pos < pos + a.utf8Size := Nat.lt_add_of_pos_right a.utf8Size_pos
        by_cases ha : Shape.isNoParen a = true
        · rw [Cursor.past_cons]
          refine .manyMore hpos (.altFirst (.char ha)) ?_
          exact ihText _ (by rw [← hlength]; exact Nat.lt_succ_self _) (h.of_cons ha)
            (hnests.of_cons ha) _ _ rfl
        by_cases hclosing : a = ')'
        · subst hclosing
          exact h.head_ne.elim
        have hopening : a = '(' := by
          by_contra hopening
          exact ha (by simp [Shape.isNoParen, isNoneOf, hopening, hclosing])
        subst hopening
        obtain ⟨inner, tail, rfl, hinner, htail⟩ := h.exists_bracketed
        obtain ⟨hnestsInner, hnestsTail⟩ := hnests.of_bracketed hinner
        have hshorter : tail.length < length := by
          rw [← hlength, List.length_cons, List.length_append, List.length_cons]
          omega
        have hinnerMatch := ih hinner hnestsInner (some '(') (pos + '('.utf8Size)
          (')' :: (tail ++ rest))
        have hclosingMatch : Matches (char (· == ')'))
            (.past (some '(') (pos + '('.utf8Size) inner (')' :: (tail ++ rest))) caps
            ⟨some ')', pos + '('.utf8Size + Text.byteLength inner + ')'.utf8Size, tail ++ rest⟩
            caps := .char rfl
        have htailMatch := ihText tail.length hshorter htail hnestsTail (some ')')
          (pos + '('.utf8Size + Text.byteLength inner + ')'.utf8Size) rfl
        rw [Cursor.past_cons, Cursor.past_append, Cursor.past_cons, List.cons_append,
          List.append_assoc, List.cons_append]
        refine .manyMore ?_ (.altSecond (.seq (.seq (.char rfl) hinnerMatch) hclosingMatch))
          htailMatch
        dsimp only
        omega

/-! ## Calls in a source -/

namespace DynamicImport

variable {source front sp back : List Char} {d d' : DynamicImport}

/-- What a call begins with, up to the bracket that opens its argument. -/
def opening (sp : List Char) : List Char := "import".toList ++ (sp ++ ['('])

theorem opening_append (sp rest : List Char) :
    opening sp ++ rest = "import".toList ++ (sp ++ '(' :: rest) := by
  unfold opening
  rw [List.append_assoc, List.append_assoc, List.singleton_append]

/-- A call that stands in a source between two texts: the word `import`, spaces, and between
brackets an argument in which at most two more brackets are open at once. -/
structure StandsAt (source front sp back : List Char) (d : DynamicImport) : Prop where
  source_eq : source = front ++ (d.code ++ back)
  code_eq : d.code = opening sp ++ (d.argument ++ [')'])
  spaces : ∀ c ∈ sp, Ascii.isSpace c = true
  enclosed : IsEnclosed d.argument
  nests : NestsWithin 2 d.argument
  start_eq : d.span.start = Text.byteLength front
  argument_start : d.argumentSpan.start = d.span.start + Text.byteLength (opening sp)
  argument_stop : d.argumentSpan.stop = d.argumentSpan.start + Text.byteLength d.argument
  stop_eq : d.span.stop = d.argumentSpan.stop + 1

/-- A call occurs in a source. -/
def OccursIn (source : List Char) (d : DynamicImport) : Prop :=
  ∃ front sp back, StandsAt source front sp back d

/-- What the pattern of calls takes and remembers. -/
theorem exists_of_matches {c c' : Cursor} {caps caps' : Captures Part}
    (h : Matches Shape.dynamicImport c caps c' caps') :
    ∃ sp argument, (∀ a ∈ sp, Ascii.isSpace a = true) ∧ IsEnclosed argument ∧
      NestsWithin 2 argument ∧
      Passes c (opening sp ++ (argument ++ [')'])) c' ∧
      caps' = (.expression, ⟨c.pos + Text.byteLength (opening sp),
        c.pos + Text.byteLength (opening sp) + Text.byteLength argument⟩) :: caps := by
  cases h with
  | seq h hclosing =>
    cases h with
    | seq h hcapture =>
      cases h with
      | seq h hopening =>
        cases h with
        | seq hword hspaces =>
          obtain ⟨hrest, hend, rfl⟩ := hword.of_literal
          have himport : Passes c "import".toList _ := ⟨hrest, by rw [hend]; rfl⟩
          obtain ⟨sp, hsp, hpassesSpaces, rfl⟩ := hspaces.passes_run
          obtain ⟨a, ha, hpassesOpening, rfl⟩ := hopening.passes_char
          obtain ⟨b, hb, hpassesClosing, rfl⟩ := hclosing.passes_char
          cases hcapture with
          | capture hargument =>
            obtain ⟨argument, hpasses, rfl, henclosed, hnests⟩ := hargument.of_balanced
            obtain rfl := eq_of_beq ha
            obtain rfl := eq_of_beq hb
            have hlead : Passes c (opening sp) _ :=
              himport.append (hpassesSpaces.append hpassesOpening)
            refine ⟨sp, argument, hsp, henclosed, hnests,
              hlead.append (hpasses.append hpassesClosing), ?_⟩
            rw [hpasses.pos_eq, hlead.pos_eq]

/-- The pattern of calls takes every call. -/
theorem StandsAt.isSome_matchAt? (h : StandsAt source front sp back d) :
    (Shape.dynamicImport.matchAt? ⟨front.getLast?, Text.byteLength front, d.code ++ back⟩).isSome =
      true := by
  have hword : Matches (word "import" : Pattern Part) _ [] _ [] := matches_literal front.getLast?
    (Text.byteLength front) "import".toList (sp ++ '(' :: (d.argument ++ ')' :: back)) []
  have hspaces : Matches (Pattern.spaces : Pattern Part) _ [] _ [] :=
    matches_many_char true h.spaces ("import".toList.getLast?.or front.getLast?)
      (Text.byteLength front + Text.byteLength "import".toList)
      ('(' :: (d.argument ++ ')' :: back)) []
  have hargument := matches_balanced h.enclosed h.nests (some '(')
    (Text.byteLength front + Text.byteLength "import".toList + Text.byteLength sp + '('.utf8Size)
    (')' :: back) []
  have hmatch : ∃ c' caps', Matches Shape.dynamicImport ⟨front.getLast?, Text.byteLength front,
      "import".toList ++ (sp ++ '(' :: (d.argument ++ ')' :: back))⟩ [] c' caps' :=
    ⟨_, _, .seq (.seq (.seq (.seq hword hspaces) (.char rfl)) (.capture hargument)) (.char rfl)⟩
  obtain ⟨c', caps', hmatch⟩ := hmatch
  rw [h.code_eq]
  rw [List.append_assoc, opening_append, List.append_assoc, List.singleton_append]
  exact isSome_attempt_of_matches hmatch rfl

/-- Where a call stands, what the source has behind the opening bracket is its argument and the
bracket that closes it. -/
theorem StandsAt.behind (h : StandsAt source front sp back d) {front' sp' rest : List Char}
    (hsource : source = front' ++ (opening sp' ++ rest)) (hsp' : ∀ c ∈ sp', Ascii.isSpace c = true)
    (hstart : d.span.start = Text.byteLength front') :
    sp = sp' ∧ d.argument ++ ')' :: back = rest := by
  have hlength : Text.byteLength front = Text.byteLength front' := h.start_eq.symm.trans hstart
  obtain ⟨-, hrest⟩ :=
    Patch.append_inj_of_byteLength (h.source_eq.symm.trans hsource) hlength
  have hnot : ∀ {sp : List Char}, (∀ c ∈ sp, Ascii.isSpace c = true) → '(' ∉ sp := by
    intro sp hsp hmem
    cases hsp _ hmem
  rw [h.code_eq] at hrest
  rw [List.append_assoc, opening_append, opening_append, List.append_assoc,
    List.singleton_append] at hrest
  exact Text.append_cons_inj (hnot h.spaces) (hnot hsp') (List.append_cancel_left hrest)

/-- What stands at a place of a source is determined by the place. -/
theorem StandsAt.unique {front' sp' back' : List Char} (h : StandsAt source front sp back d)
    (h' : StandsAt source front' sp' back' d') (hstart : d.span.start = d'.span.start) : d = d' := by
  have hsource' : source = front' ++ (opening sp' ++ (d'.argument ++ ')' :: back')) := by
    rw [h'.source_eq, h'.code_eq]
    simp
  obtain ⟨rfl, hargument⟩ := h.behind hsource' h'.spaces (hstart.trans h'.start_eq)
  have hsame := h.enclosed.unique h'.enclosed hargument
  obtain ⟨code, ⟨start, stop⟩, argument, ⟨argumentStart, argumentStop⟩⟩ := d
  obtain ⟨code', ⟨start', stop'⟩, argument', ⟨argumentStart', argumentStop'⟩⟩ := d'
  have hcode := h.code_eq.trans (hsame ▸ h'.code_eq.symm)
  have hargumentStart := h.argument_start.trans (hstart ▸ h'.argument_start.symm)
  have hargumentStop := h.argument_stop
  have hargumentStop' := h'.argument_stop
  have hstop := h.stop_eq
  have hstop' := h'.stop_eq
  dsimp only at *
  subst hsame hcode hargumentStart hstart
  subst hargumentStop hargumentStop' hstop hstop'
  rfl

/-- A match of the pattern of calls is a call that stands where it lies. -/
theorem exists_standsAt {m : Match Part} (hm : Found Shape.dynamicImport source m) :
    ∃ d front sp back, ofMatch? source m = some d ∧ d.StandsAt source front sp back ∧
      d.span = m.span := by
  obtain ⟨sp, argument, hsp, henclosed, hnests, hpasses, hcaps⟩ := exists_of_matches hm.matched
  obtain ⟨front, hsource, hpos, -⟩ := hm.front_at
  have hwhole : source = front ++ (opening sp ++ (argument ++ [')']) ++ m.back.rest) := by
    rw [← hpasses.rest_eq]
    exact hsource
  have hlead : source = front ++ opening sp ++ (argument ++ ([')'] ++ m.back.rest)) := by
    simpa using hwhole
  have hcode : m.span.text source = opening sp ++ (argument ++ [')']) :=
    Span.Covers.text_eq ⟨front, m.back.rest, hwhole, hpos, by rw [← hpos]; exact hpasses.pos_eq⟩
  have hargument : Span.text ⟨m.front.pos + Text.byteLength (opening sp),
      m.front.pos + Text.byteLength (opening sp) + Text.byteLength argument⟩ source = argument :=
    Span.Covers.text_eq ⟨_, _, hlead, by rw [Text.byteLength_append, hpos],
      by rw [Text.byteLength_append, hpos]⟩
  have hpart : m.part? .expression = some ⟨m.front.pos + Text.byteLength (opening sp),
      m.front.pos + Text.byteLength (opening sp) + Text.byteLength argument⟩ := by
    rw [Match.part?, hcaps]
    rfl
  refine ⟨_, front, sp, m.back.rest, congrArg (Option.map _) hpart, ?_, rfl⟩
  dsimp only
  constructor
  · exact hcode ▸ hwhole
  · rw [hcode, hargument]
  · exact hsp
  · exact hargument.symm ▸ henclosed
  · exact hargument.symm ▸ hnests
  · exact hpos
  · rfl
  · rw [hargument]
  · show m.back.pos = _
    rw [hpasses.pos_eq]
    simp only [Text.byteLength_append, Text.byteLength_cons, Text.byteLength_nil]
    have hsize : ')'.utf8Size = 1 := rfl
    omega

/-- The calls that occur in a source are those of the matches at its places. -/
theorem occursIn_iff : d.OccursIn source ↔ ∃ m, m.front.At source ∧
    Shape.dynamicImport.matchAt? m.front = some m ∧ ofMatch? source m = some d := by
  constructor
  · rintro ⟨front, sp, back, h⟩
    obtain ⟨m, hm⟩ := Option.isSome_iff_exists.1 h.isSome_matchAt?
    have hfront := front_of_matchAt? hm
    have hat : m.front.At source := by
      rw [hfront]
      exact ⟨front, h.source_eq, rfl, rfl⟩
    obtain ⟨d', front', sp', back', hd', h', hspan⟩ :=
      exists_standsAt (found_of_matchAt? hat (hfront ▸ hm))
    refine ⟨m, hat, hfront ▸ hm, ?_⟩
    have hstart : d'.span.start = d.span.start := by
      rw [hspan, h.start_eq]
      exact congrArg Cursor.pos hfront
    rw [hd', h'.unique h hstart]
  · rintro ⟨m, hat, hm, hd⟩
    obtain ⟨d', front, sp, back, hd', h, -⟩ := exists_standsAt (found_of_matchAt? hat hm)
    obtain rfl := Option.some.inj (hd'.symm.trans hd)
    exact ⟨front, sp, back, h⟩

theorem advances_dynamicImport : Advances Shape.dynamicImport := by
  intro c caps c' caps' h
  obtain ⟨sp, argument, -, -, -, hpasses, -⟩ := exists_of_matches h
  rw [hpasses.pos_eq]
  exact Nat.lt_add_of_pos_right (Text.byteLength_pos (by simp))

/-! ## Calls that are found -/

/-- Calls of a source from left to right: none overlaps the one in front of it, and only a call
that starts within one of them is left out. -/
structure AreLeftmost (source : List Char) (calls : List DynamicImport) : Prop where
  occurs : ∀ d ∈ calls, d.OccursIn source
  apart : calls.Pairwise fun d d' => d.span.stop ≤ d'.span.start
  leftmost : ∀ d : DynamicImport, d.OccursIn source →
    d ∈ calls ∨ ∃ d' ∈ calls, d'.span.start < d.span.start ∧ d.span.start < d'.span.stop

theorem areLeftmost_candidates (source : List Char) : AreLeftmost source (candidates source) := by
  refine ⟨fun d hd => ?_, ?_, fun d hd => ?_⟩
  · obtain ⟨m, hm, hmatch⟩ := List.mem_filterMap.1 hd
    exact occursIn_iff.2 ⟨m, (found_of_matchesIn m hm).front_at, matchAt?_of_select m hm, hmatch⟩
  · refine List.pairwise_filterMap.2 ((pairwise_matchesIn advances_dynamicImport source).imp ?_)
    intro m m' hle d hd d' hd'
    obtain ⟨s, -, rfl⟩ := Option.map_eq_some_iff.1 hd
    obtain ⟨s', -, rfl⟩ := Option.map_eq_some_iff.1 hd'
    exact hle
  · obtain ⟨m, hat, hm, hmatch⟩ := occursIn_iff.1 hd
    obtain ⟨s, -, hs⟩ := Option.map_eq_some_iff.1 hmatch
    rcases mem_matchesIn_or_inside advances_dynamicImport hat hm with hmem | ⟨m', hmem, hinside⟩
    · exact .inl (List.mem_filterMap.2 ⟨m, hmem, hmatch⟩)
    · obtain ⟨d', -, -, -, hd', -, hspan⟩ := exists_standsAt (found_of_matchesIn m' hmem)
      refine .inr ⟨d', List.mem_filterMap.2 ⟨m', hmem, hd'⟩, ?_⟩
      rw [hspan, ← hs]
      exact hinside

theorem OccursIn.start_lt_stop (h : d.OccursIn source) : d.span.start < d.span.stop := by
  obtain ⟨front, sp, back, h⟩ := h
  rw [h.stop_eq, h.argument_stop, h.argument_start]
  omega

theorem OccursIn.unique (h : d.OccursIn source) (h' : d'.OccursIn source)
    (hstart : d.span.start = d'.span.start) : d = d' := by
  obtain ⟨front, sp, back, h⟩ := h
  obtain ⟨front', sp', back', h'⟩ := h'
  exact h.unique h' hstart

namespace AreLeftmost

variable {calls calls' : List DynamicImport}

/-- None of the calls starts within another. -/
theorem not_inside (h : AreLeftmost source calls) (hd : d ∈ calls) (hd' : d' ∈ calls)
    (hlt : d.span.start < d'.span.start) : d.span.stop ≤ d'.span.start := by
  let Apart (a b : DynamicImport) : Prop :=
    a.span.stop ≤ b.span.start ∨ b.span.stop ≤ a.span.start
  have : Std.Symm Apart := ⟨fun _ _ => Or.symm⟩
  have hne : d ≠ d' := fun heq => by
    rw [heq] at hlt
    omega
  have hapart : calls.Pairwise Apart := h.apart.imp fun hle => .inl hle
  rcases hapart.forall hd hd' hne with hle | hle
  · exact hle
  · have hpos := (h.occurs d' hd').start_lt_stop
    omega

/-- There is one choice of the leftmost calls: whether a call is among them depends on those that
start in front of it. -/
theorem subset (h : AreLeftmost source calls) (h' : AreLeftmost source calls') :
    ∀ d ∈ calls, d ∈ calls' := by
  intro d hd
  induction hstart : d.span.start using Nat.strongRecOn generalizing d calls calls' with
  | ind start ih =>
    rcases h'.leftmost d (h.occurs d hd) with hmem | ⟨d', hmem, hbefore, hbehind⟩
    · exact hmem
    · have hd' := ih d'.span.start (hstart ▸ hbefore) h' h d' hmem rfl
      have hapart := h.not_inside hd' hd hbefore
      omega

theorem unique (h : AreLeftmost source calls) (h' : AreLeftmost source calls') :
    calls = calls' := by
  have hsorted : ∀ {calls : List DynamicImport}, AreLeftmost source calls →
      calls.Pairwise fun d d' => d.span.start < d'.span.start := fun h =>
    h.apart.imp_of_mem fun hd _ hle => Nat.lt_of_lt_of_le (h.occurs _ hd).start_lt_stop hle
  have hnodup : ∀ {calls : List DynamicImport}, AreLeftmost source calls → calls.Nodup := fun h =>
    (hsorted h).imp fun hlt heq => by rw [heq] at hlt; omega
  have hperm : calls.Perm calls' :=
    (List.perm_ext_iff_of_nodup (hnodup h) (hnodup h')).2 fun d => ⟨h.subset h' d, h'.subset h d⟩
  refine hperm.eq_of_pairwise (fun d d' _ _ hlt hlt' => ?_) (hsorted h) (hsorted h')
  omega

end AreLeftmost

/-- **The calls that are found** are the leftmost calls of a source.  Where the word and an opening
bracket stand, but no bracket closes it, or the text up to there nests deeper, no call is found. -/
theorem candidates_exact (source : List Char) :
    (∀ calls, AreLeftmost source calls ↔ calls = candidates source) ∧
    ∀ front sp rest, source = front ++ (opening sp ++ rest) →
      (∀ c ∈ sp, Ascii.isSpace c = true) →
      (∀ argument back, rest = argument ++ ')' :: back → IsEnclosed argument →
        ¬ NestsWithin 2 argument) →
      ∀ d ∈ candidates source, d.span.start ≠ Text.byteLength front := by
  refine ⟨fun calls => ⟨fun h => h.unique (areLeftmost_candidates source), ?_⟩, ?_⟩
  · rintro rfl
    exact areLeftmost_candidates source
  · intro front sp rest hsource hsp hno d hd hstart
    obtain ⟨front', sp', back, h⟩ := (areLeftmost_candidates source).occurs d hd
    obtain ⟨-, hrest⟩ := h.behind hsource hsp hstart
    exact hno d.argument back hrest.symm h.enclosed h.nests

/-- A call within a call, and a call whose argument nests too deep. -/
def nestedCalls : List Char := "import(import(a))+import ((((b))))".toList

/-- The outer of the two calls is found, and none where three more brackets are open. -/
theorem candidates_exact_nested :
    candidates nestedCalls = [⟨"import(import(a))".toList, ⟨0, 17⟩, "import(a)".toList, ⟨7, 16⟩⟩] ∧
      AreLeftmost nestedCalls (candidates nestedCalls) ∧
      ∀ d ∈ candidates nestedCalls, d.span.start ≠ 18 := by
  have hsource : nestedCalls =
      "import(import(a))+".toList ++ (opening [' '] ++ "(((b))))".toList) := by decide
  refine ⟨by decide, ((candidates_exact nestedCalls).1 _).2 rfl,
    (candidates_exact nestedCalls).2 _ _ _ hsource
      (Text.forall_mem_of_all (by decide)) ?_⟩
  intro argument back hrest henclosed hnests
  have hinner : IsEnclosed ['b'] :=
    isEnclosed_of_noParens (Text.forall_mem_of_all (by decide))
  have hwhole : IsEnclosed "(((b)))".toList := hinner.bracketed.bracketed.bracketed
  have hsplit : argument ++ ')' :: back = "(((b)))".toList ++ ')' :: [] := hrest.symm
  obtain rfl := henclosed.unique hwhole hsplit
  have hdeep := hnests "(((".toList (by decide)
  simp at hdeep

end DynamicImport

end EsModules
