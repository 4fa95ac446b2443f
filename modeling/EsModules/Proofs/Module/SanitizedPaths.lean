import EsModules.Module.Sanitized
import EsModules.Proofs.Text.Pieces
import Mathlib.Data.List.TakeWhile

/-!
# Sanitised paths

A sanitised path holds nothing that means something in a URI, apart from the separators and the
colon of a drive, and a second pass leaves it as it is.  A name is cleaned in two passes of its own:
the first one leaves no forbidden character, and the second one no escape, since what it puts in
place of an escape is not the beginning of another one.

* `Sanitized.IsClean`: names without forbidden characters and escapes.
* `Sanitized.component_clean`, `Sanitized.component_eq_self`: what a sanitised name is, and that
  clean names stay.
* `Sanitized.splitOn_restoreDrive`: restoring a drive changes at most the first segment.
* `Sanitized.IsSafe`: what a sanitised path holds.
* `Sanitized.filePath_sanitized`: the paths that come out.
-/

namespace EsModules.Sanitized

variable {replacement name path : List Char}

/-! ## Names -/

/-- No percent sign has two characters behind it. -/
def HasNoEscape (cs : List Char) : Prop := ∀ rest, '%' :: rest <:+ cs → rest.length < 2

/-- A name without forbidden characters, backslashes and escapes. -/
structure IsClean (name : List Char) : Prop where
  allowed : ∀ c ∈ name, isForbidden c = false
  noBackslash : '\\' ∉ name
  noEscape : HasNoEscape name

/-- Two characters are no escape. -/
theorem hasNoEscape_of_length_le {cs : List Char} (h : cs.length ≤ 2) : HasNoEscape cs := by
  intro rest hsuffix
  have hle := hsuffix.length_le
  rw [List.length_cons] at hle
  omega

theorem HasNoEscape.of_cons {c : Char} {cs : List Char} (h : HasNoEscape (c :: cs)) :
    HasNoEscape cs :=
  fun rest hsuffix => h rest (hsuffix.trans (List.suffix_cons c cs))

/-- A character other than the percent sign starts no escape. -/
theorem HasNoEscape.cons {c : Char} {cs : List Char} (h : HasNoEscape cs) (hc : c ≠ '%') :
    HasNoEscape (c :: cs) := by
  intro rest hsuffix
  rcases List.suffix_cons_iff.1 hsuffix with heq | hsuffix
  · exact absurd (List.cons.inj heq).1.symm hc
  · exact h rest hsuffix

theorem HasNoEscape.append {as cs : List Char} (h : HasNoEscape cs) (has : '%' ∉ as) :
    HasNoEscape (as ++ cs) := by
  induction as with
  | nil => exact h
  | cons a as ih =>
    rw [List.mem_cons, not_or] at has
    exact (ih has.2).cons (Ne.symm has.1)

/-- What comes out of the first pass stands in the replacement or is an allowed character of the
name. -/
theorem of_mem_replaceRuns {inRun : Bool} {c : Char} (h : c ∈ replaceRuns replacement inRun name) :
    c ∈ replacement ∨ c ∈ name ∧ isForbidden c = false := by
  induction name generalizing inRun with
  | nil => cases h
  | cons d name ih =>
    have hlater : ∀ b, c ∈ replaceRuns replacement b name →
        c ∈ replacement ∨ c ∈ d :: name ∧ isForbidden c = false :=
      fun b hb => (ih hb).imp_right fun ⟨hmem, hc⟩ => ⟨List.mem_cons_of_mem d hmem, hc⟩
    unfold replaceRuns at h
    split at h
    · rcases List.mem_append.1 h with h | h
      · split at h
        · cases h
        · exact .inl h
      · exact hlater true h
    · rename_i hd
      rcases List.mem_cons.1 h with rfl | h
      · exact .inr ⟨List.mem_cons_self, Bool.of_not_eq_true hd⟩
      · exact hlater false h

/-- Where no character is forbidden the first pass changes nothing. -/
theorem replaceRuns_eq_self (h : ∀ c ∈ name, isForbidden c = false) (replacement : List Char)
    (inRun : Bool) : replaceRuns replacement inRun name = name := by
  induction name generalizing inRun with
  | nil => rfl
  | cons c name ih =>
    have hc : ¬ isForbidden c = true := by simp [h c List.mem_cons_self]
    rw [replaceRuns, if_neg hc, ih fun d hd => h d (List.mem_cons_of_mem c hd)]

theorem of_mem_replaceEscapes {c : Char} (h : c ∈ replaceEscapes replacement name) :
    c ∈ replacement ∨ c ∈ name := by
  fun_induction replaceEscapes replacement name with
  | case1 => exact .inr h
  | case2 a b r ih =>
    rcases List.mem_append.1 h with h | h
    · exact .inl h
    · exact (ih h).imp_right fun hmem => by simp [hmem]
  | case3 r hshort => exact .inr h
  | case4 d r hd hd' ih =>
    rcases List.mem_cons.1 h with rfl | h
    · exact .inr List.mem_cons_self
    · exact (ih h).imp_right (List.mem_cons_of_mem d)

/-- The second pass leaves no escape, as long as the replacement holds no percent sign: what stands
behind it begins none, so that the ones behind the replaced ones are all that there could be. -/
theorem hasNoEscape_replaceEscapes (hreplacement : '%' ∉ replacement) :
    HasNoEscape (replaceEscapes replacement name) := by
  fun_induction replaceEscapes replacement name with
  | case1 => exact fun rest hsuffix => absurd (List.suffix_nil.1 hsuffix) (List.cons_ne_nil _ _)
  | case2 a b r ih => exact ih.append hreplacement
  | case3 r hshort =>
    apply hasNoEscape_of_length_le
    rcases r with _ | ⟨a, _ | ⟨b, r⟩⟩
    · exact Nat.le_succ 1
    · exact Nat.le_refl 2
    · exact (hshort a b r rfl).elim
  | case4 c r hc hpercent ih => exact ih.cons hpercent

/-- Where no escape stands the second pass changes nothing. -/
theorem replaceEscapes_eq_self (h : HasNoEscape name) (replacement : List Char) :
    replaceEscapes replacement name = name := by
  fun_induction replaceEscapes replacement name with
  | case1 => rfl
  | case2 a b r ih =>
    have hlength := h _ List.suffix_rfl
    simp only [List.length_cons] at hlength
    omega
  | case3 r hshort => rfl
  | case4 c r hc hc' ih => rw [ih h.of_cons]

theorem of_mem_component {c : Char} (h : c ∈ component replacement name) :
    c ∈ replacement ∨ c ∈ name ∧ isForbidden c = false :=
  (of_mem_replaceEscapes h).elim .inl of_mem_replaceRuns

/-- **A sanitised name** is clean, as long as the replacement is and holds no percent sign. -/
theorem component_clean (hreplacement : IsClean replacement) (hpercent : '%' ∉ replacement)
    (hname : '\\' ∉ name) : IsClean (component replacement name) where
  allowed c hc := (of_mem_component hc).elim (hreplacement.allowed c) And.right
  noBackslash hc := (of_mem_component hc).elim hreplacement.noBackslash fun h => hname h.1
  noEscape := hasNoEscape_replaceEscapes hpercent

/-- A clean name stays as it is. -/
theorem component_eq_self (h : IsClean name) (replacement : List Char) :
    component replacement name = name := by
  unfold component
  rw [replaceRuns_eq_self h.allowed, replaceEscapes_eq_self h.noEscape]

/-- The replacement in the segments of a path is clean itself. -/
theorem isClean_underscore : IsClean ['_'] where
  allowed c hc := by
    rw [List.mem_singleton.1 hc]
    decide
  noBackslash := by decide
  noEscape := hasNoEscape_of_length_le (by decide)

/-! ## Drives -/

theorem restoreDrive_cases (path : List Char) : restoreDrive path = path ∨
    ∃ d rest, Ascii.isLetter d = true ∧ path = d :: '_' :: '/' :: rest ∧
      restoreDrive path = d :: ':' :: '/' :: rest := by
  unfold restoreDrive
  split
  · rename_i d rest
    split
    · rename_i hd
      exact .inr ⟨d, rest, hd, rfl, rfl⟩
    · exact .inl rfl
  · exact .inl rfl

theorem of_mem_restoreDrive {c : Char} (h : c ∈ restoreDrive path) : c = ':' ∨ c ∈ path := by
  rcases restoreDrive_cases path with heq | ⟨d, rest, -, rfl, hrestored⟩
  · exact .inr (heq ▸ h)
  · rw [hrestored] at h
    rcases List.mem_cons.1 h with rfl | h
    · exact .inr List.mem_cons_self
    · rcases List.mem_cons.1 h with rfl | h
      · exact .inl rfl
      · exact .inr (List.mem_cons_of_mem d (List.mem_cons_of_mem '_' h))

/-- The segments of a path whose first one has two characters. -/
theorem splitOn_drive {d c : Char} (hd : d ≠ '/') (hc : c ≠ '/') (rest : List Char) :
    Text.splitOn '/' (d :: c :: '/' :: rest) = [d, c] :: Text.splitOn '/' rest := by
  have hfront : ∀ b ∈ [d, c], (b == '/') = false := by simp [hd, hc]
  have hsplit := @Text.splitWhere_append_cut _ (· == '/') '/' rfl [d, c] rest
  rwa [Text.splitWhere_of_forall hfront] at hsplit

theorem ne_slash_of_isLetter {d : Char} (hd : Ascii.isLetter d = true) : d ≠ '/' := by
  rintro rfl
  exact absurd hd (by decide)

/-- Restoring a drive changes at most the first segment, and there only its second character. -/
theorem splitOn_restoreDrive (path : List Char) : restoreDrive path = path ∨
    ∃ d rest, Text.splitOn '/' path = [d, '_'] :: Text.splitOn '/' rest ∧
      Text.splitOn '/' (restoreDrive path) = [d, ':'] :: Text.splitOn '/' rest := by
  refine (restoreDrive_cases path).imp_right ?_
  rintro ⟨d, rest, hd, rfl, hrestored⟩
  have hslash := ne_slash_of_isLetter hd
  rw [hrestored]
  exact ⟨d, rest, splitOn_drive hslash (by decide) rest, splitOn_drive hslash (by decide) rest⟩

/-! ## Paths -/

/-- Sanitised paths: no control characters and no backslashes, no forbidden characters but the
separators and the colon of a drive, and no escape in any segment. -/
structure IsSafe (path : List Char) : Prop where
  noControl : ∀ c ∈ path, PercentEncoding.inControls c = false
  noBackslash : '\\' ∉ path
  allowed : (∀ c ∈ path, isForbidden c = true → c = '/') ∨
    ∃ d rest, Ascii.isLetter d = true ∧ path = d :: ':' :: '/' :: rest ∧
      ∀ c ∈ rest, isForbidden c = true → c = '/'
  noEscape : ∀ segment ∈ Text.splitOn '/' path, HasNoEscape segment

section

variable {names : List (List Char)} (hne : names ≠ []) (hnames : ∀ n ∈ names, IsClean n)

include hnames

/-- Clean names put together hold no forbidden character but the separator. -/
theorem eq_slash_of_isForbidden {c : Char} (hc : c ∈ Text.joinWith ['/'] names)
    (hforbidden : isForbidden c = true) : c = '/' := by
  refine (Text.eq_or_mem_of_mem_joinWith hc).resolve_right ?_
  rintro ⟨n, hn, hcn⟩
  rw [(hnames n hn).allowed c hcn] at hforbidden
  cases hforbidden

theorem noBackslash_joinWith : '\\' ∉ Text.joinWith ['/'] names := by
  intro hmem
  rcases Text.eq_or_mem_of_mem_joinWith hmem with heq | ⟨n, hn, hback⟩
  · exact absurd heq (by decide)
  · exact (hnames n hn).noBackslash hback

include hne

theorem splitOn_names : Text.splitOn '/' (Text.joinWith ['/'] names) = names := by
  refine Text.splitOn_joinWith hne fun n hn hslash => ?_
  exact absurd ((hnames n hn).allowed '/' hslash) (by decide)

/-- **What is put together of clean names** is safe, with a drive restored. -/
theorem isSafe_restoreDrive : IsSafe (restoreDrive (Text.joinWith ['/'] names)) where
  noControl c hc := by
    refine Bool.eq_false_iff.2 fun hcontrol => ?_
    have hforbidden : isForbidden c = true := by simp [isForbidden, hcontrol]
    rcases of_mem_restoreDrive hc with rfl | hc
    · exact absurd hcontrol (by decide)
    · obtain rfl := eq_slash_of_isForbidden hnames hc hforbidden
      exact absurd hcontrol (by decide)
  noBackslash hc := by
    rcases of_mem_restoreDrive hc with heq | hc
    · exact absurd heq (by decide)
    · exact noBackslash_joinWith hnames hc
  allowed := by
    rcases restoreDrive_cases (Text.joinWith ['/'] names) with heq | ⟨d, rest, hd, hj, heq⟩
    · rw [heq]
      exact .inl fun c hc => eq_slash_of_isForbidden hnames hc
    · refine .inr ⟨d, rest, hd, heq, fun c hc => eq_slash_of_isForbidden hnames ?_⟩
      rw [hj]
      simp [hc]
  noEscape segment hsegment := by
    rcases splitOn_restoreDrive (Text.joinWith ['/'] names) with heq | ⟨d, rest, hj, heq⟩
    · rw [heq, splitOn_names hne hnames] at hsegment
      exact (hnames segment hsegment).noEscape
    · rw [heq] at hsegment
      rw [splitOn_names hne hnames] at hj
      rcases List.mem_cons.1 hsegment with rfl | hsegment
      · exact hasNoEscape_of_length_le (by simp)
      · exact (hnames segment (hj ▸ List.mem_cons_of_mem _ hsegment)).noEscape

/-- The names are what a further pass finds between the separators, once each is sanitised: the
colon of a drive gives way to the character that it was restored from. -/
theorem map_component_restoreDrive :
    (Text.splitOn '/' (restoreDrive (Text.joinWith ['/'] names))).map (component ['_']) =
      names := by
  have hself : ∀ {ns : List (List Char)}, (∀ n ∈ ns, IsClean n) → ns.map (component ['_']) = ns :=
    fun h => (List.map_congr_left fun n hn => component_eq_self (h n hn) _).trans (List.map_id _)
  rcases splitOn_restoreDrive (Text.joinWith ['/'] names) with heq | ⟨d, rest, hj, heq⟩
  · rw [heq, splitOn_names hne hnames, hself hnames]
  · rw [splitOn_names hne hnames] at hj
    subst hj
    have hdrive : IsClean [d, '_'] := hnames _ List.mem_cons_self
    have hd : isForbidden d = false := hdrive.allowed d List.mem_cons_self
    have hcolon : isForbidden ':' = true := by decide
    have hfirst : component ['_'] [d, ':'] = [d, '_'] := by
      have hruns : replaceRuns ['_'] false [d, ':'] = [d, '_'] := by
        simp [replaceRuns, hd, hcolon]
      rw [component, hruns, replaceEscapes_eq_self hdrive.noEscape]
    rw [heq, List.map_cons, hfirst, hself fun n hn => hnames n (List.mem_cons_of_mem _ hn)]

/-- A path of clean names stays as it is, with a drive restored. -/
theorem filePath_restoreDrive : filePath (restoreDrive (Text.joinWith ['/'] names)) =
    restoreDrive (Text.joinWith ['/'] names) := by
  have hsafe := isSafe_restoreDrive hne hnames
  have hquery : ∀ c ∈ restoreDrive (Text.joinWith ['/'] names), (c != '?') = true := by
    intro c hc
    refine bne_iff_ne.2 ?_
    rintro rfl
    rcases of_mem_restoreDrive hc with heq | hc
    · exact absurd heq (by decide)
    · exact absurd (eq_slash_of_isForbidden hnames hc (by decide)) (by decide)
  have hcut : ∀ c ∈ restoreDrive (Text.joinWith ['/'] names),
      (c == '/' || c == '\\') = (c == '/') := by
    intro c hc
    have hback : (c == '\\') = false := by
      simpa using ne_of_mem_of_not_mem hc hsafe.noBackslash
    rw [hback, Bool.or_false]
  have hsplit := Text.splitWhere_congr hcut
  have hnamed := map_component_restoreDrive hne hnames
  unfold Text.splitOn at hnamed
  unfold filePath
  rw [List.takeWhile_eq_self_iff.2 hquery, hsplit]
  dsimp only
  rw [hnamed]

end

/-- **Sanitised paths** are sanitised once and for all.  They have as many segments as the path in
front of the query, and hold nothing that means something in a URI but the separators and the colon
of a drive. -/
theorem filePath_sanitized (path : List Char) :
    filePath (filePath path) = filePath path ∧
    (Text.splitOn '/' (filePath path)).length =
      (Text.splitWhere (fun c => c == '/' || c == '\\') (path.takeWhile (· != '?'))).length ∧
    IsSafe (filePath path) := by
  let segments := Text.splitWhere (fun c => c == '/' || c == '\\') (path.takeWhile (· != '?'))
  have hne : segments.map (component ['_']) ≠ [] :=
    fun h => Text.splitWhere_ne_nil _ _ (List.map_eq_nil_iff.1 h)
  have hclean : ∀ n ∈ segments.map (component ['_']), IsClean n := by
    intro n hn
    obtain ⟨segment, hsegment, rfl⟩ := List.mem_map.1 hn
    refine component_clean isClean_underscore (by decide) fun hback => ?_
    exact absurd (Text.of_mem_splitWhere hsegment hback).2 (by decide)
  have hlength := congrArg List.length (map_component_restoreDrive hne hclean)
  rw [List.length_map, List.length_map] at hlength
  exact ⟨filePath_restoreDrive hne hclean, hlength, isSafe_restoreDrive hne hclean⟩

/-- The colon of the drive stays, a run of forbidden characters and an escape become one character
each. -/
example : filePath "C:\\te#:st\\a%20b.js?x=1".toList = "C:/te_st/a_b.js".toList := by decide +kernel

end EsModules.Sanitized
