import EsModules.Proofs.Url.Behind

/-!
# Texts put in for stars

A text may be put in for the stars of another one before that is read or behind it.  Either way the
outcome leads to no directory above if neither text holds the two dots: not the one with the stars
between its slashes, stars and number signs, and not the other one between its slashes, where it must
not hold a single dot either.

* `Url.exists_trailOf_replaced`: putting a text in before and behind the reading.
* `Url.IsLevel`: texts with stars that stay where they are whatever is put in.
* `Url.IsLevel.descends_replaced`: what they become.
-/

namespace EsModules.Url

variable {text u : List Char}

/-! ## Before and behind the reading -/

/-- What is left behind a dot in front of a number sign or at the end of a text. -/
theorem Descends.of_dotCons (h : Descends ('.' :: text)) (hfirst : text.head? ≠ some '.') :
    Descends text where
  chars := fun c hc => h.chars c (List.mem_cons_of_mem _ hc)
  stays := by
    intro hp
    obtain ⟨hslash, front, back, heq, hfront, hback⟩ := Text.mem_splitWhere_iff.1 hp
    cases front with
    | nil => exact hfirst (by rw [heq]; rfl)
    | cons c front =>
      exact h.stays (Text.mem_splitWhere_iff.2
        ⟨hslash, '.' :: c :: front, back, by rw [heq]; rfl, by simpa using hfront, hback⟩)

/-- Putting a text in for the stars behind the reading of pieces gives no more than putting it in
before: idle pieces are gone, and nothing else has changed. -/
theorem exists_trail_replaced {ps : List (List Char)} (hps : ps ≠ []) {tail : List Char}
    (htail : tail = [] ∨ tail.head? = some '#') (u : List Char) :
    ∃ as bs, joinSegments ps ++ tail = '/' :: as ∧ joinSegments (trail ps) ++ tail = '/' :: bs ∧
      (Descends (Text.replaceChar '*' u as) → Descends (Text.replaceChar '*' u bs)) ∧
      (Text.replaceChar '*' u bs).length ≤ (Text.replaceChar '*' u as).length := by
  induction ps with
  | nil => exact absurd rfl hps
  | cons p ps ih =>
    cases ps with
    | nil =>
      by_cases hp : p = ['.']
      · subst hp
        have hreplaced : Text.replaceChar '*' u ('.' :: tail) =
            '.' :: Text.replaceChar '*' u tail := rfl
        refine ⟨'.' :: tail, tail, rfl, rfl, fun h => ?_, ?_⟩
        · rw [hreplaced] at h
          refine h.of_dotCons ?_
          rcases htail with rfl | htail
          · simp [Text.replaceChar]
          · obtain ⟨rest, rfl⟩ := List.head?_eq_some_iff.1 htail
            simp [Text.replaceChar]
        · rw [hreplaced]
          exact Nat.le_succ _
      · have htrail : trail [p] = [p] := by simp [trail, hp]
        exact ⟨p ++ tail, p ++ tail, by simp [joinSegments], by simp [htrail, joinSegments], id,
          Nat.le_refl _⟩
    | cons q ps =>
      obtain ⟨as, bs, has, hbs, hdescends, hlength⟩ := ih (List.cons_ne_nil q ps)
      by_cases hp : p = ['.']
      · subst hp
        have hreplaced : Text.replaceChar '*' u ('.' :: '/' :: as) =
            '.' :: '/' :: Text.replaceChar '*' u as := rfl
        refine ⟨'.' :: '/' :: as, bs, ?_, hbs, fun h => ?_, ?_⟩
        · rw [joinSegments_cons, List.cons_append, List.append_assoc, has]
          rfl
        · rw [hreplaced] at h
          exact hdescends (@descends_append_slash ['.'] _ |>.1 h).2
        · rw [hreplaced, List.length_cons, List.length_cons]
          omega
      · have htrail : trail (p :: q :: ps) = p :: trail (q :: ps) := by simp [trail, hp]
        have hreplaced : ∀ cs, Text.replaceChar '*' u (p ++ '/' :: cs) =
            Text.replaceChar '*' u p ++ '/' :: Text.replaceChar '*' u cs := fun cs =>
          Text.replaceChar_append '*' u p ('/' :: cs)
        refine ⟨p ++ '/' :: as, p ++ '/' :: bs, ?_, ?_, fun h => ?_, ?_⟩
        · rw [joinSegments_cons, List.cons_append, List.append_assoc, has]
        · rw [htrail, joinSegments_cons, List.cons_append, List.append_assoc, hbs]
        · rw [hreplaced, descends_append_slash] at h ⊢
          exact ⟨h.1, hdescends h.2⟩
        · rw [hreplaced, hreplaced, List.length_append, List.length_append, List.length_cons,
            List.length_cons]
          omega

/-- A text may be put in for the stars of a path before or behind its reading. -/
theorem exists_trailOf_replaced {target u : List Char} (htarget : ∀ c ∈ target, c ∈ plainChars)
    (h : Descends (Text.replaceChar '*' u target)) :
    ∃ more, joinSegments (trailOf target) ++ ((fragmentPart? target).map ('#' :: ·)).getD [] =
        '/' :: more ∧ Descends (Text.replaceChar '*' u more) ∧
      (Text.replaceChar '*' u more).length ≤ (Text.replaceChar '*' u target).length := by
  have hback : '\\' ∉ pathPart target := fun hmem =>
    ne_of_plain (htarget _ (mem_of_mem_pathPart hmem).1) (by decide) rfl
  have htail : ∃ tail, ((fragmentPart? target).map ('#' :: ·)).getD [] = tail ∧
      target = pathPart target ++ tail ∧ (tail = [] ∨ tail.head? = some '#') := by
    unfold fragmentPart?
    rcases splitPath_of_plain htarget with ⟨heq, hrest⟩ | ⟨fragment, heq, hrest⟩
    · exact ⟨[], by rw [hrest]; rfl, by rw [List.append_nil]; exact heq, .inl rfl⟩
    · exact ⟨'#' :: fragment, by rw [hrest]; rfl, heq, .inr rfl⟩
  obtain ⟨tail, htail, hsplit, hfirst⟩ := htail
  obtain ⟨as, bs, has, hbs, hdescends, hlength⟩ :=
    exists_trail_replaced (Text.splitWhere_ne_nil isSlash (pathPart target)) hfirst u
  rw [joinSegments_splitWhere hback, List.cons_append, ← hsplit] at has
  obtain rfl := (List.cons.inj has).2
  rw [htail]
  exact ⟨bs, hbs, hdescends h, hlength⟩

/-! ## Pieces around stars -/

/-- The marks that a text is cut at when something is put in for its stars. -/
def isSeam (c : Char) : Bool := c == '/' || c == '*'

/-- The marks that pieces of a text with stars stand between. -/
def isMark (c : Char) : Bool := isSeam c || c == '#'

/-- A plain text that leads to no directory above, whatever is put in for its stars. -/
structure IsLevel (text : List Char) : Prop where
  chars : ∀ c ∈ text, c ∈ plainChars
  stays : "..".toList ∉ Text.splitWhere isMark text

instance (text : List Char) : Decidable (IsLevel text) :=
  decidable_of_iff (keepsLevel isMark text = true)
    (keepsLevel_iff.trans ⟨fun h => ⟨h.1, h.2⟩, fun h => ⟨h.chars, h.stays⟩⟩)

/-- Two dots between other cuts than the marks stand between marks, too. -/
theorem IsLevel.notMem (h : IsLevel text) {isCut : Char → Bool}
    (hcut : ∀ c, isCut c = true → c ∈ text → isMark c = true) :
    "..".toList ∉ Text.splitWhere isCut text := by
  intro hp
  obtain ⟨-, front, back, heq, hfront, hback⟩ := Text.mem_splitWhere_iff.1 hp
  refine h.stays (Text.mem_splitWhere_iff.2
    ⟨Text.forall_mem_of_all (by decide), front, back, heq, ?_, ?_⟩)
  · intro c hc
    exact hcut c (hfront c hc) (by simp [heq, List.mem_of_getLast? hc])
  · intro c hc
    exact hcut c (hback c hc) (by simp [heq, List.mem_of_head? hc])

theorem IsLevel.descends (h : IsLevel text) : Descends text where
  chars := h.chars
  stays := by
    refine h.notMem fun c hc hmem => ?_
    have hback : c ≠ '\\' := ne_of_plain (h.chars c hmem) (by decide)
    simp only [isSlash, Bool.or_eq_true, beq_iff_eq] at hc
    rw [hc.resolve_right hback]
    rfl

/-- Not even in front of a number sign. -/
theorem IsLevel.not_climbs (h : IsLevel text) : ¬ Climbs text := by
  intro hclimbs
  have hp : "..".toList ∈ Text.splitWhere isSlash (pathPart text) := List.mem_of_getLast? hclimbs
  obtain ⟨-, front, back, heq, hfront, hback⟩ := Text.mem_splitWhere_iff.1 hp
  have hmark : ∀ c, isSlash c = true → c ∈ text → isMark c = true := by
    intro c hc hmem
    have hslash : c ≠ '\\' := ne_of_plain (h.chars c hmem) (by decide)
    simp only [isSlash, Bool.or_eq_true, beq_iff_eq] at hc
    rw [hc.resolve_right hslash]
    rfl
  have hmem : ∀ c ∈ pathPart text, c ∈ text := fun c hc => (mem_of_mem_pathPart hc).1
  obtain ⟨tail, htext, htail⟩ : ∃ tail, text = pathPart text ++ tail ∧
      ∀ c ∈ tail.head?, isMark c = true := by
    rcases splitPath_of_plain h.chars with ⟨htext, -⟩ | ⟨fragment, htext, -⟩
    · exact ⟨[], by rw [List.append_nil]; exact htext, by simp⟩
    · exact ⟨'#' :: fragment, htext, fun c hc => by
        obtain rfl : '#' = c := by simpa using hc
        rfl⟩
  refine h.stays (Text.mem_splitWhere_iff.2
    ⟨Text.forall_mem_of_all (by decide), front, back ++ tail, ?_, fun c hc => ?_, fun c hc => ?_⟩)
  · rw [htext, heq]
    simp
  · exact hmark c (hfront c hc) (hmem c (by simp [heq, List.mem_of_getLast? hc]))
  · cases hb : back with
    | nil => exact htail c (by simpa [hb] using hc)
    | cons b back' =>
      obtain rfl : b = c := by simpa [hb] using hc
      exact hmark b (hback b (by simp [hb])) (hmem b (by simp [heq, hb]))

/-! ## What a text with stars becomes -/

/-- The texts that may be put in for stars: plain ones of which no piece is one of the dots. -/
structure IsFilling (u : List Char) : Prop where
  ne_nil : u ≠ []
  chars : ∀ c ∈ u, c ∈ plainChars
  dots : ∀ p ∈ Text.splitWhere isSlash u, p ≠ ['.'] ∧ p ≠ "..".toList

instance (u : List Char) : Decidable (IsFilling u) :=
  decidable_of_iff (u ≠ [] ∧ (∀ c ∈ u, c ∈ plainChars) ∧
      ∀ p ∈ Text.splitWhere isSlash u, p ≠ ['.'] ∧ p ≠ "..".toList)
    ⟨fun h => ⟨h.1, h.2.1, h.2.2⟩, fun h => ⟨h.ne_nil, h.chars, h.dots⟩⟩

/-- A piece that starts with what stands in front of the first cut of a text, and goes on with the
first piece of what is put in there if that is not empty. -/
def StartsAs (f first x : List Char) : Prop := x = f ∨ first ≠ [] ∧ f ++ first <+: x

theorem StartsAs.ne_double {f first x : List Char} (h : StartsAs f first x)
    (hf : f ≠ "..".toList) (hfirst : first ≠ ['.'] ∧ first ≠ "..".toList) : x ≠ "..".toList := by
  rintro rfl
  rcases h with rfl | ⟨hne, hprefix⟩
  · exact hf rfl
  · obtain ⟨rest, hrest⟩ := hprefix
    obtain ⟨c, cs, rfl⟩ := List.exists_cons_of_ne_nil hne
    rcases f with - | ⟨a, - | ⟨b, f⟩⟩
    · rcases cs with - | ⟨d, cs⟩ <;> simp at hrest
      · exact hfirst.1 (by rw [hrest.1])
      · exact hfirst.2 (by rw [hrest.1, hrest.2.1, hrest.2.2.1]; rfl)
    · simp at hrest
      exact hfirst.1 (by rw [hrest.2.1, hrest.2.2.1])
    · simp at hrest

/-- What is put in goes on with a piece behind it; neither makes two dots with the other. -/
theorem IsFilling.append_ne_double (hu : IsFilling u) {last x : List Char}
    (hlast : last ∈ Text.splitWhere isSlash u) (hx : x ≠ "..".toList) :
    last ++ x ≠ "..".toList := by
  obtain ⟨hsingle, hdouble⟩ := hu.dots last hlast
  intro heq
  rcases last with - | ⟨a, - | ⟨b, last⟩⟩
  · exact hx heq
  · simp at heq
    exact hsingle (by rw [heq.1])
  · simp at heq
    exact hdouble (by rw [heq.1, heq.2.1, heq.2.2.1]; rfl)

/-- What is put in for a star in front of a text starts with its own first piece, and makes no two
dots with the text. -/
theorem IsFilling.exists_splitWhere_append (hu : IsFilling u) {first : List Char}
    {more : List (List Char)} (hfirst : Text.splitWhere isSlash u = first :: more) {x : List Char}
    {xs : List (List Char)} (htext : Text.splitWhere isSlash text = x :: xs)
    (hx : x ≠ "..".toList) (hxs : "..".toList ∉ xs) :
    ∃ y ys, Text.splitWhere isSlash (u ++ text) = y :: ys ∧ "..".toList ∉ ys ∧
      StartsAs [] first y := by
  obtain ⟨init, last, hinit, happend⟩ := @Text.exists_splitWhere_append _ isSlash u
  have hjoint : last ++ x ≠ "..".toList := hu.append_ne_double (hinit ▸ by simp) hx
  rw [happend text x xs htext]
  cases init with
  | nil =>
    obtain ⟨rfl, rfl⟩ := List.cons.inj (hinit.symm.trans hfirst)
    refine ⟨last ++ x, xs, rfl, hxs, .inr ⟨?_, List.prefix_append _ _⟩⟩
    rintro rfl
    exact hu.ne_nil (Text.eq_nil_of_splitWhere_eq hinit)
  | cons i init =>
    obtain ⟨rfl, -⟩ := List.cons.inj (hinit.symm.trans hfirst)
    refine ⟨i, init ++ (last ++ x) :: xs, rfl, ?_, ?_⟩
    · rw [List.mem_append, List.mem_cons, not_or, not_or]
      refine ⟨fun hmem => ?_, hjoint.symm, hxs⟩
      have hpiece := List.mem_append_left [last] (List.mem_cons_of_mem i hmem)
      exact (hu.dots _ (hinit ▸ hpiece)).2 rfl
    · by_cases hi : i = []
      · exact .inl hi
      · exact .inr ⟨hi, List.prefix_refl _⟩

/-- The pieces of a text in which something is put in for the stars: the first one is that in front
of the first star or slash, with the first piece of what is put in if it goes on, and none of the
others is two dots if none of the text behind its first star or slash is. -/
theorem exists_splitWhere_replaced (hu : IsFilling u) {first : List Char} {more : List (List Char)}
    (hfirst : Text.splitWhere isSlash u = first :: more) (htext : '\\' ∉ text)
    {f : List Char} {fs : List (List Char)}
    (hsplit : Text.splitWhere isSeam text = f :: fs)
    (hfs : "..".toList ∉ fs) :
    ∃ x xs, Text.splitWhere isSlash (Text.replaceChar '*' u text) = x :: xs ∧
      "..".toList ∉ xs ∧ StartsAs f first x := by
  have hdots := hu.dots first (hfirst ▸ List.mem_cons_self)
  induction text generalizing f fs with
  | nil =>
    obtain ⟨rfl, rfl⟩ := List.cons.inj hsplit
    exact ⟨[], [], rfl, List.not_mem_nil, .inl rfl⟩
  | cons c text ih =>
    rw [List.mem_cons, not_or] at htext
    obtain ⟨g, gs, hgs⟩ :=
      List.exists_cons_of_ne_nil (Text.splitWhere_ne_nil isSeam text)
    by_cases hcut : isSeam c = true
    · -- behind a cut the first piece of the rest is a whole one
      rw [Text.splitWhere_of_cut hcut, hgs] at hsplit
      obtain ⟨rfl, rfl⟩ := List.cons.inj hsplit
      rw [List.mem_cons, not_or] at hfs
      obtain ⟨x, xs, hxs, hnone, hstarts⟩ := ih htext.2 hgs hfs.2
      have hx := hstarts.ne_double (Ne.symm hfs.1) hdots
      rcases Bool.or_eq_true_iff.1 hcut with hslash | hstar
      · obtain rfl := eq_of_beq hslash
        refine ⟨[], x :: xs, ?_, ?_, .inl rfl⟩
        · rw [← hxs]
          exact Text.splitWhere_of_cut rfl _
        · rw [List.mem_cons, not_or]
          exact ⟨hx.symm, hnone⟩
      · obtain rfl := eq_of_beq hstar
        exact hu.exists_splitWhere_append hfirst hxs hx hnone
    · have hback : c ≠ '\\' := Ne.symm htext.1
      have hkeep : c ≠ '/' ∧ c ≠ '*' := by simpa [isSeam] using hcut
      have hwhole : ∀ d ∈ [c], isSeam d = false := by simpa using hcut
      have hwhole' : ∀ d ∈ [c], isSlash d = false := by simp [isSlash, hkeep.1, hback]
      obtain ⟨rfl, rfl⟩ := List.cons.inj ((Text.splitWhere_append hwhole hgs).symm.trans hsplit)
      obtain ⟨x, xs, hxs, hnone, hstarts⟩ := ih htext.2 hgs hfs
      have hreplaced : Text.replaceChar '*' u (c :: text) =
          [c] ++ Text.replaceChar '*' u text := by
        unfold Text.replaceChar
        rw [List.flatMap_cons, if_neg (by simpa using hkeep.2)]
      refine ⟨[c] ++ x, xs, ?_, hnone, ?_⟩
      · rw [hreplaced, Text.splitWhere_append hwhole' hxs]
      · rcases hstarts with rfl | ⟨hne, hprefix⟩
        · exact .inl rfl
        · exact .inr ⟨hne, by simpa using hprefix⟩

theorem mem_replaceChar {old c : Char} {new cs : List Char} (h : c ∈ Text.replaceChar old new cs) :
    c ∈ cs ∨ c ∈ new := by
  obtain ⟨d, hd, hc⟩ := List.mem_flatMap.1 h
  split at hc
  · exact .inr hc
  · exact .inl (List.mem_singleton.1 hc ▸ hd)

/-- **What a text with stars becomes** leads to no directory above. -/
theorem IsLevel.descends_replaced (h : IsLevel text) (hu : IsFilling u) :
    Descends (Text.replaceChar '*' u text) where
  chars := fun c hc => (mem_replaceChar hc).elim (h.chars c) (hu.chars c)
  stays := by
    have hback : '\\' ∉ text := fun hmem => ne_of_plain (h.chars _ hmem) (by decide) rfl
    obtain ⟨first, more, hfirst⟩ :=
      List.exists_cons_of_ne_nil (Text.splitWhere_ne_nil isSlash u)
    obtain ⟨f, fs, hsplit⟩ :=
      List.exists_cons_of_ne_nil (Text.splitWhere_ne_nil isSeam text)
    have hlevel : "..".toList ∉ f :: fs := by
      rw [← hsplit]
      refine h.notMem fun c hc _ => ?_
      rw [isMark, hc]
      rfl
    rw [List.mem_cons, not_or] at hlevel
    obtain ⟨x, xs, hxs, hnone, hstarts⟩ :=
      exists_splitWhere_replaced hu hfirst hback hsplit hlevel.2
    rw [hxs, List.mem_cons, not_or]
    exact ⟨(hstarts.ne_double (Ne.symm hlevel.1) (hu.dots first (hfirst ▸ List.mem_cons_self))).symm,
      hnone⟩

/-- A text put in for stars makes a text longer by its own length for each of them. -/
theorem length_replaceChar (new cs : List Char) :
    (Text.replaceChar '*' new cs).length ≤ cs.length + cs.count '*' * new.length := by
  induction cs with
  | nil => exact Nat.zero_le _
  | cons c cs ih =>
    unfold Text.replaceChar at ih ⊢
    rw [List.flatMap_cons, List.length_append]
    split
    · rename_i hc
      obtain rfl := eq_of_beq hc
      rw [List.count_cons_self, Nat.succ_mul, List.length_cons]
      omega
    · rename_i hc
      rw [List.count_cons_of_ne (by simpa using hc), List.length_singleton, List.length_cons]
      omega

end EsModules.Url
