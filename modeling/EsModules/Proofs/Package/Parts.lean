import EsModules.Proofs.Package.FoundAgain

/-!
# The parts of a path in a package

A path is taken apart at the last installation directory in it.  Behind that stands the name of a
package, which is one segment or, with a scope, two, and the rest of the path is the subpath.  What
the parts are is said by the path alone, and they say what the path is, up to a slash behind the
name.

* `InstalledPath.Names`, `InstalledPath.splitName?_eq_some_iff`: the name that segments start with.
* `InstalledPath.Parts`: what a path is taken apart into.
* `InstalledPath.parse_eq_ok_iff`: a path is taken apart exactly into its parts.
-/

namespace EsModules

namespace InstalledPath

/-! ## Names -/

/-- The name that the segments of a text start with: the first of them or, if that starts with an at
sign, the first two.  No other at sign stands in it. -/
inductive Names : List (List Char) → List Char → Prop
  | plain {name : List Char} {segments : List (List Char)} : name ≠ [] → name.head? ≠ some '@' →
      '@' ∉ name.tail → Names (name :: segments) name
  | inScope {scope package : List Char} {segments : List (List Char)} : scope ≠ [] →
      package ≠ [] → '@' ∉ scope ++ '/' :: package →
      Names (('@' :: scope) :: package :: segments) ('@' :: (scope ++ '/' :: package))

/-- The first segment of a text, and what follows the slash behind it. -/
def firstSegment (text : List Char) : List Char × Option (List Char) :=
  match Text.splitOnce ['/'] text with
  | none => (text, none)
  | some (first, rest) => (first, some rest)

/-- A slash and what follows it, if there is one. -/
def tailOf (rest : Option (List Char)) : List Char := rest.elim [] ('/' :: ·)

variable {text name : List Char} {remainder : Option (List Char)}

theorem append_tailOf_firstSegment (text : List Char) :
    (firstSegment text).1 ++ tailOf (firstSegment text).2 = text := by
  unfold firstSegment
  cases hsplit : Text.splitOnce ['/'] text with
  | none => exact List.append_nil _
  | some parts => exact Text.append_of_splitOnce hsplit

theorem splitOn_eq_firstSegment (text : List Char) : Text.splitOn '/' text =
    (firstSegment text).1 :: (firstSegment text).2.elim [] (Text.splitOn '/') := by
  have whole {s : List Char} (h : '/' ∉ s) : Text.splitOn '/' s = [s] :=
    Text.splitWhere_of_forall fun c hc => by simpa using ne_of_mem_of_not_mem hc h
  unfold firstSegment
  cases hsplit : Text.splitOnce ['/'] text with
  | none => exact whole (Text.splitOnce_eq_none_iff.1 hsplit)
  | some parts =>
    obtain ⟨first, rest⟩ := parts
    obtain ⟨rfl, hfirst⟩ := Text.splitOnce_eq_some_iff.1 hsplit
    have hcut : Text.splitOn '/' (first ++ '/' :: rest) =
        Text.splitOn '/' first ++ Text.splitOn '/' rest := Text.splitWhere_append_cut (by simp) _ _
    rw [hcut, whole hfirst]
    rfl

/-- Where no at sign is in front, the name has one segment. -/
theorem splitName?_plain (h : text.head? ≠ some '@') :
    splitName? text = some (firstSegment text) := by
  unfold splitName? firstSegment
  split
  · exact absurd rfl h
  · cases Text.splitOnce ['/'] text <;> rfl

/-- Behind an at sign the name has two segments. -/
theorem splitName?_scoped (behind : List Char) : splitName? ('@' :: behind) =
    (firstSegment behind).2.bind fun rest =>
      if (firstSegment behind).1.isEmpty || (firstSegment rest).1.isEmpty then none
      else some ('@' :: ((firstSegment behind).1 ++ '/' :: (firstSegment rest).1),
        (firstSegment rest).2) := by
  unfold splitName? firstSegment
  cases hsplit : Text.splitOnce ['/'] behind with
  | none => simp only [hsplit, Option.bind_none]
  | some parts =>
    simp only [hsplit, Option.bind_some]
    rfl

theorem splitOn_scoped (behind : List Char) : Text.splitOn '/' ('@' :: behind) =
    ('@' :: (firstSegment behind).1) :: (firstSegment behind).2.elim [] (Text.splitOn '/') :=
  @Text.splitWhere_append _ _ ['@'] behind (by simp) _ _ (splitOn_eq_firstSegment behind)

/-- A name that is accepted is the one that the segments start with. -/
theorem names_of_splitName? (h : splitName? text = some (name, remainder))
    (hname : (name.isEmpty || (name.drop 1).contains '@') = false) :
    Names (Text.splitOn '/' text) name ∧ text = name ++ tailOf remainder := by
  rw [Bool.or_eq_false_iff, List.isEmpty_eq_false_iff, List.drop_one, List.contains_eq_mem,
    decide_eq_false_iff_not] at hname
  obtain ⟨hne, hat⟩ := hname
  by_cases hhead : text.head? = some '@'
  · obtain ⟨behind, rfl⟩ := List.head?_eq_some_iff.1 hhead
    rw [splitName?_scoped] at h
    obtain ⟨rest, hrest, h⟩ := Option.bind_eq_some_iff.1 h
    obtain ⟨hfull, heq⟩ := Option.ite_none_left_eq_some.1 h
    rw [Bool.or_eq_true, not_or, List.isEmpty_iff, List.isEmpty_iff] at hfull
    cases heq
    have hbehind := append_tailOf_firstSegment behind
    rw [hrest] at hbehind
    constructor
    · rw [splitOn_scoped, hrest, Option.elim_some, splitOn_eq_firstSegment rest]
      exact .inScope hfull.1 hfull.2 hat
    · conv_lhs => rw [← hbehind, ← append_tailOf_firstSegment rest]
      simp [tailOf]
  · rw [splitName?_plain hhead, Option.some.injEq] at h
    have happend := append_tailOf_firstSegment text
    rw [splitOn_eq_firstSegment]
    rw [h] at happend ⊢
    refine ⟨.plain hne ?_ hat, happend.symm⟩
    rwa [← happend, List.head?_append_of_ne_nil _ hne] at hhead

/-- The name that the segments start with is accepted. -/
theorem splitName?_of_names (h : Names (Text.splitOn '/' text) name) :
    (name.isEmpty || (name.drop 1).contains '@') = false ∧
      ∃ remainder, splitName? text = some (name, remainder) := by
  have happend := append_tailOf_firstSegment text
  have hsegments := splitOn_eq_firstSegment text
  generalize hs : Text.splitOn '/' text = segments at h
  rw [hs] at hsegments
  cases h with
  | plain hne hhead hat =>
    obtain ⟨rfl, -⟩ := List.cons.inj hsegments
    refine ⟨by simp [hne, hat], _, splitName?_plain ?_⟩
    rwa [← happend, List.head?_append_of_ne_nil _ hne]
  | @inScope scope package segments hscope hpackage hat =>
    obtain ⟨hfirst, -⟩ := List.cons.inj hsegments
    obtain ⟨behind, rfl⟩ : ∃ behind, text = '@' :: behind :=
      ⟨_, by rw [← happend, ← hfirst]; rfl⟩
    rw [splitOn_scoped, List.cons.injEq, List.cons.injEq] at hs
    obtain ⟨⟨-, hscopeOf⟩, hs⟩ := hs
    cases hbehind : (firstSegment behind).2 with
    | none =>
      rw [hbehind] at hs
      cases hs
    | some rest =>
      rw [hbehind, Option.elim_some, splitOn_eq_firstSegment rest] at hs
      obtain ⟨hpackageOf, -⟩ := List.cons.inj hs
      have hfull : ¬ (scope.isEmpty || package.isEmpty) = true := by simp [hscope, hpackage]
      refine ⟨by simpa using hat, (firstSegment rest).2, ?_⟩
      rw [splitName?_scoped, hbehind, Option.bind_some, hscopeOf, hpackageOf, if_neg hfull]

/-! ## Parts -/

/-- The text of a subpath, given what stands behind the name of the package. -/
def subpathOf (tail : List Char) : List Char :=
  if tail = [] ∨ tail = ['/'] then [] else '.' :: tail

/-- What a path is taken apart into: all up to and including the last installation directory, the
name that the segments behind it start with, and the subpath that the rest spells. -/
inductive Parts (path : List Char) : InstalledPath → Prop
  | intro {before name tail : List Char} : Text.IsLast marker path before (name ++ tail) →
      Names (Text.splitOn '/' (name ++ tail)) name → tail = [] ∨ tail.head? = some '/' →
      Parts path ⟨before ++ marker, name, subpathOf tail⟩

/-- What is read once a location is split at the last marker and at the name behind it. -/
theorem ofLocation?_of_split {path before rest name : List Char} {remainder : Option (List Char)}
    (hsplit : Text.splitLast marker path = some (before, rest))
    (hname : splitName? rest = some (name, remainder)) :
    ofLocation? path = if (name.isEmpty || (name.drop 1).contains '@') = true then none
      else some ⟨before ++ marker, name, subpathOf (tailOf remainder)⟩ := by
  unfold ofLocation?
  rw [hsplit]
  show (splitName? rest >>= _) = _
  rw [hname]
  rcases remainder with _ | _ | ⟨c, cs⟩
  · rfl
  · rfl
  · have hsubpath : subpathOf (tailOf (some (c :: cs))) = "./".toList ++ c :: cs := by
      simp [subpathOf, tailOf]
    rw [hsubpath]
    rfl

/-- **A location is taken apart into its parts.** -/
theorem ofLocation?_eq_some_iff {path : List Char} {p : InstalledPath} :
    ofLocation? path = some p ↔ Parts path p := by
  constructor
  · intro h
    have hopened := h
    unfold ofLocation? at hopened
    obtain ⟨⟨before, rest⟩, hsplit, hopened⟩ := Option.bind_eq_some_iff.1 hopened
    obtain ⟨⟨name, remainder⟩, hname, -⟩ := Option.bind_eq_some_iff.1 hopened
    rw [ofLocation?_of_split hsplit hname] at h
    obtain ⟨haccepted, heq⟩ := Option.ite_none_left_eq_some.1 h
    rw [Bool.not_eq_true] at haccepted
    obtain ⟨hnames, rfl⟩ := names_of_splitName? hname haccepted
    obtain rfl := Option.some.inj heq
    refine .intro (Text.splitLast_eq_some_iff.1 hsplit) hnames ?_
    cases remainder with
    | none => exact .inl rfl
    | some remainder => exact .inr rfl
  · rintro ⟨hlast, hnames, htail⟩
    rename_i before name tail
    obtain ⟨haccepted, remainder, hname⟩ := splitName?_of_names hnames
    obtain ⟨-, happend⟩ := names_of_splitName? hname haccepted
    obtain rfl := List.append_cancel_left happend
    rw [ofLocation?_of_split (Text.splitLast_eq_some_iff.2 hlast) hname, haccepted,
      if_neg Bool.false_ne_true]

variable {path path' location : List Char} {p : InstalledPath}

/-- A location has parts if there is an installation directory in it and the segments behind the
last one start with a name. -/
theorem exists_parts_iff : (∃ p, Parts location p) ↔ marker <:+: location ∧
    ∀ before rest, Text.IsLast marker location before rest →
      ∃ name, Names (Text.splitOn '/' rest) name := by
  constructor
  · rintro ⟨p, hlast, hnames, -⟩
    refine ⟨Text.exists_isLast_iff.1 ⟨_, _, hlast⟩, fun before' rest' hlast' => ?_⟩
    have hsame := (Text.splitLast_eq_some_iff.2 hlast).symm.trans
      (Text.splitLast_eq_some_iff.2 hlast')
    cases hsame
    exact ⟨_, hnames⟩
  · rintro ⟨hmarker, hnamed⟩
    obtain ⟨before, rest, hlast⟩ := Text.exists_isLast_iff.2 hmarker
    obtain ⟨name, hnames⟩ := hnamed before rest hlast
    obtain ⟨haccepted, remainder, hname⟩ := splitName?_of_names hnames
    obtain ⟨-, rfl⟩ := names_of_splitName? hname haccepted
    refine ⟨_, .intro hlast hnames ?_⟩
    cases remainder with
    | none => exact .inl rfl
    | some remainder => exact .inr rfl

/-- The parts of a location put together are the location, unless a slash ends it that stands right
behind the name. -/
theorem Parts.eq_append (h : Parts location p) : location = p.packageDir ++ p.subpath.drop 1 ∨
    p.subpath = [] ∧ location = p.packageDir ++ ['/'] := by
  obtain ⟨hlast, -, -⟩ := h
  rename_i before name tail
  have hlocation : location = before ++ marker ++ name ++ tail := by
    rw [hlast.eq_append]
    simp
  by_cases hslash : tail = ['/']
  · exact .inr ⟨if_pos (.inr hslash), by rw [hlocation, hslash]; rfl⟩
  · refine .inl ?_
    by_cases hnil : tail = []
    · rw [hlocation, hnil]
      rfl
    · have hsubpath : subpathOf tail = '.' :: tail := if_neg (by simp [hnil, hslash])
      rw [hlocation, hsubpath]
      rfl

/-- **A path is taken apart exactly.**  It has parts if an installation directory occurs in it and a
name stands behind the last one; these parts are given, and nothing if there are none.  Two
locations with the same parts are the same, but for a slash at the end of one of them. -/
theorem parse_eq_ok_iff (h : Id.toPath path = .ok location) :
    (∀ p, parse path = .ok (some p) ↔ Parts location p) ∧
    (parse path = .ok none ↔ ¬ ∃ p, Parts location p) ∧
    ((∃ p, Parts location p) ↔ marker <:+: location ∧
      ∀ before rest, Text.IsLast marker location before rest →
        ∃ name, Names (Text.splitOn '/' rest) name) ∧
    ∀ p location', Parts location p → Parts location' p →
      location' = location ∨ location' = location ++ ['/'] ∨ location = location' ++ ['/'] := by
  have hparse : parse path = .ok (ofLocation? location) := by
    unfold parse
    rw [h]
    rfl
  refine ⟨fun p => ?_, ?_, exists_parts_iff, fun p location' hparts hparts' => ?_⟩
  · rw [hparse, Except.ok.injEq, ofLocation?_eq_some_iff]
  · rw [hparse, Except.ok.injEq, Option.eq_none_iff_forall_ne_some, not_exists]
    exact forall_congr' fun p => not_congr ofLocation?_eq_some_iff
  · obtain heq | ⟨hnil, heq⟩ := hparts.eq_append <;>
      obtain heq' | ⟨hnil', heq'⟩ := hparts'.eq_append
    · exact .inl (heq'.trans heq.symm)
    · rw [hnil', List.drop_nil, List.append_nil] at heq
      exact .inr (.inl (heq ▸ heq'))
    · rw [hnil, List.drop_nil, List.append_nil] at heq'
      exact .inr (.inr (heq' ▸ heq))
    · exact .inl (heq'.trans heq.symm)

/-- A package with a scope in the directory of another package. -/
theorem parse_inScope :
    let path := "file:///w/node_modules/a/node_modules/@s/p/x.js".toList
    let location := "/w/node_modules/a/node_modules/@s/p/x.js".toList
    Id.toPath path = .ok location ∧
      parse path =
        .ok (some ⟨"/w/node_modules/a/node_modules/".toList, "@s/p".toList, "./x.js".toList⟩) := by
  intro path location
  have h : Id.toPath path = .ok location := by
    subst path location
    repeat rw [String.toList_ofList]
    decide +kernel
  have hparts : Parts location
      ⟨"/w/node_modules/a/node_modules/".toList, "@s/p".toList, "./x.js".toList⟩ :=
    ofLocation?_eq_some_iff.1 (by decide)
  exact ⟨h, ((parse_eq_ok_iff h).1 _).2 hparts⟩

end InstalledPath

end EsModules
