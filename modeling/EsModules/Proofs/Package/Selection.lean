import EsModules.Package.Map
import EsModules.Proofs.Results
import EsModules.Proofs.Text.Pieces
import Mathlib.Data.List.Infix
import Mathlib.Data.List.Nodup
import Mathlib.Data.List.Perm.Basic
import Mathlib.Data.Prod.Lex

/-!
# The most specific key

Of the keys of a map that hold one star, those that a name fits are ordered by how much stands in
front of their star, and then by their whole length.  Two keys that a name fits and that this order
does not tell apart are one key, so the scan of the entries finds the same match in any order.

* `PackageMap.Fits`: a name fits a key, by the two parts of the key and the lengths in bytes.
* `PackageMap.IsBest`, `PackageMap.bestMatch_eq_some_iff`: what the scan of the entries finds.
* `PackageMap.choice?`: what a map has for a name, with the entry of exactly that name in front.
* `PackageMap.Context.selection_mostSpecific`: the entry for a subpath, in any order of entries.
-/

namespace EsModules

namespace PackageMap

open Text

/-! ## Keys with a star -/

theorem splitKey?_eq_some_iff {key before after : List Char} :
    splitKey? key = some (before, after) ↔
      key = before ++ '*' :: after ∧ '*' ∉ before ∧ '*' ∉ after := by
  unfold splitKey?
  constructor
  · intro h
    split at h
    · cases h
    · rename_i b a hsplit
      obtain ⟨hstar, hparts⟩ := Option.ite_none_left_eq_some.1 h
      obtain ⟨rfl, rfl⟩ := Prod.mk.inj (Option.some.inj hparts)
      obtain ⟨hkey, hbefore⟩ := splitOnce_eq_some_iff.1 hsplit
      exact ⟨hkey, hbefore, by simpa using hstar⟩
  · rintro ⟨hkey, hbefore, hafter⟩
    rw [splitOnce_eq_some_iff.2 ⟨hkey, hbefore⟩]
    exact if_neg (by simpa using hafter)

/-- A key stands for a name exactly when the name has a text in the place of its only star. -/
theorem matchKey?_eq_some_iff {key name text : List Char} :
    matchKey? key name = some text ↔ text ≠ [] ∧ ∃ before after,
      key = before ++ '*' :: after ∧ '*' ∉ before ∧ '*' ∉ after ∧
        name = before ++ text ++ after := by
  unfold matchKey?
  constructor
  · intro h
    obtain ⟨⟨before, after⟩, hkey, h⟩ := Option.bind_eq_some_iff.1 h
    obtain ⟨rest, hrest, h⟩ := Option.bind_eq_some_iff.1 h
    obtain ⟨middle, hmiddle, h⟩ := Option.bind_eq_some_iff.1 h
    obtain ⟨hne, h⟩ := Option.ite_none_left_eq_some.1 h
    obtain rfl := Option.some.inj h
    obtain ⟨hkey, hbefore, hafter⟩ := splitKey?_eq_some_iff.1 hkey
    refine ⟨by simpa using hne, before, after, hkey, hbefore, hafter, ?_⟩
    rw [← dropPrefix?_eq_some_iff.1 hrest, ← dropSuffix?_eq_some_iff.1 hmiddle, List.append_assoc]
  · rintro ⟨hne, before, after, hkey, hbefore, hafter, hname⟩
    have hrest : dropPrefix? before name = some (text ++ after) :=
      dropPrefix?_eq_some_iff.2 (by rw [hname, List.append_assoc])
    have hmiddle : dropSuffix? after (text ++ after) = some text := dropSuffix?_eq_some_iff.2 rfl
    rw [splitKey?_eq_some_iff.2 ⟨hkey, hbefore, hafter⟩]
    simp [hrest, hmiddle, hne]

/-- A name fits a key that holds exactly one star: it starts with what stands before the star, ends
in what stands after it, and has at least as many bytes as the key. -/
def Fits (key name : List Char) : Prop :=
  ∃ before after, key = before ++ '*' :: after ∧ '*' ∉ before ∧ '*' ∉ after ∧
    before <+: name ∧ after <:+ name ∧ byteLength key ≤ byteLength name

theorem fits_iff {key name : List Char} :
    Fits key name ↔ ∃ text, matchKey? key name = some text := by
  constructor
  · rintro ⟨before, after, hkey, hbefore, hafter, ⟨rest, hstarts⟩, ⟨front, hends⟩, hlength⟩
    -- The length leaves at least one byte between the two parts, so they do not overlap.
    have hbytes : byteLength before + 1 + byteLength after ≤ byteLength name := by
      have hstar : ('*' : Char).utf8Size = 1 := by decide
      rw [hkey] at hlength
      simp only [byteLength_append, byteLength_cons, hstar] at hlength
      omega
    have hfront : byteLength name = byteLength front + byteLength after := by
      rw [← hends, byteLength_append]
    obtain ⟨text, hmiddle, hrest⟩ :=
      exists_append_of_byteLength_le (hstarts.trans hends.symm) (by omega)
    refine ⟨text, matchKey?_eq_some_iff.2 ⟨?_, before, after, hkey, hbefore, hafter, ?_⟩⟩
    · rintro rfl
      rw [List.append_nil] at hmiddle
      rw [hmiddle] at hfront
      omega
    · rw [← hends, hmiddle]
  · rintro ⟨text, h⟩
    obtain ⟨hne, before, after, hkey, hbefore, hafter, rfl⟩ := matchKey?_eq_some_iff.1 h
    refine ⟨before, after, hkey, hbefore, hafter, ⟨text ++ after, by simp⟩,
      ⟨before ++ text, rfl⟩, ?_⟩
    obtain ⟨c, text, rfl⟩ := List.exists_cons_of_ne_nil hne
    have hpos := c.utf8Size_pos
    have hstar : ('*' : Char).utf8Size = 1 := by decide
    rw [hkey]
    simp only [byteLength_append, byteLength_cons, hstar]
    omega

/-- How specific a key is: the bytes in front of its star count first, then the bytes of the whole
key. -/
def rank (key : List Char) : ℕ ×ₗ ℕ :=
  toLex (byteLength (key.takeWhile (· != '*')), byteLength key)

theorem takeWhile_star {before : List Char} (h : '*' ∉ before) (after : List Char) :
    (before ++ '*' :: after).takeWhile (· != '*') = before := by
  have hall : ∀ c ∈ before, (c != '*') = true := fun c hc => by
    simpa using ne_of_mem_of_not_mem hc h
  exact Text.takeWhile_append_stop hall (by simp)

section

variable {key other name text text' : List Char}

/-- Keys that stand for one name are as specific as their ranks say. -/
theorem isMoreSpecific_iff (hkey : matchKey? key name = some text)
    (hother : matchKey? other name = some text') :
    isMoreSpecific key other = true ↔ rank other < rank key := by
  obtain ⟨-, before, after, rfl, hbefore, -, hname⟩ := matchKey?_eq_some_iff.1 hkey
  obtain ⟨-, before', after', rfl, hbefore', -, hname'⟩ := matchKey?_eq_some_iff.1 hother
  have hp : before <+: name := ⟨text ++ after, by rw [hname, List.append_assoc]⟩
  have hp' : before' <+: name := ⟨text' ++ after', by rw [hname', List.append_assoc]⟩
  have hs : after <:+ name := ⟨before ++ text, hname.symm⟩
  have hs' : after' <:+ name := ⟨before' ++ text', hname'.symm⟩
  have hfront := byteLength_lt_iff_of_prefix hp' hp
  have hfront' := byteLength_lt_iff_of_prefix hp hp'
  have hback := byteLength_lt_iff_of_suffix hs' hs
  simp only [isMoreSpecific, rank, Prod.Lex.toLex_lt_toLex, takeWhile_star hbefore,
    takeWhile_star hbefore', Bool.or_eq_true, Bool.and_eq_true, beq_iff_eq, decide_eq_true_eq,
    List.length_append, List.length_cons, byteLength_append, byteLength_cons]
  omega

/-- Keys that stand for one name are equally specific only if they are one key. -/
theorem eq_of_rank_eq (hkey : matchKey? key name = some text)
    (hother : matchKey? other name = some text') (h : rank key = rank other) : key = other := by
  obtain ⟨-, before, after, rfl, hbefore, -, hname⟩ := matchKey?_eq_some_iff.1 hkey
  obtain ⟨-, before', after', rfl, hbefore', -, hname'⟩ := matchKey?_eq_some_iff.1 hother
  obtain ⟨hfront, hall⟩ := Prod.mk.inj (toLex_inj.1 h)
  rw [takeWhile_star hbefore, takeWhile_star hbefore'] at hfront
  have hp : before <+: name := ⟨text ++ after, by rw [hname, List.append_assoc]⟩
  have hp' : before' <+: name := ⟨text' ++ after', by rw [hname', List.append_assoc]⟩
  have hs : after <:+ name := ⟨before ++ text, hname.symm⟩
  have hs' : after' <:+ name := ⟨before' ++ text', hname'.symm⟩
  have hlength := byteLength_lt_iff_of_prefix hp hp'
  have hlength' := byteLength_lt_iff_of_prefix hp' hp
  have hback := byteLength_lt_iff_of_suffix hs hs'
  have hback' := byteLength_lt_iff_of_suffix hs' hs
  simp only [byteLength_append, byteLength_cons] at hall
  obtain rfl : before = before' :=
    (List.prefix_of_prefix_length_le hp hp' (by omega)).eq_of_length (by omega)
  obtain rfl : after = after' :=
    (List.suffix_of_suffix_length_le hs hs' (by omega)).eq_of_length (by omega)
  rfl

end

/-! ## The best match -/

/-- A match is the best one for a name: its key stands for the name, and every other key that does
is less specific.  Of several entries with that key it is the first. -/
structure IsBest (entries : List (List Char × Target)) (name : List Char) (m : KeyMatch) :
    Prop where
  first : entries.find? (fun e => e.1 == m.key) = some (m.key, m.target)
  ne_nil : m.text ≠ []
  split : ∃ before after, m.key = before ++ '*' :: after ∧ '*' ∉ before ∧ '*' ∉ after ∧
    name = before ++ m.text ++ after
  greatest : ∀ e ∈ entries, Fits e.1 name → e.1 ≠ m.key → rank e.1 < rank m.key

variable {entries : List (List Char × Target)} {name : List Char} {m m' : KeyMatch}

theorem IsBest.matchKey? (h : IsBest entries name m) : matchKey? m.key name = some m.text :=
  matchKey?_eq_some_iff.2 ⟨h.ne_nil, h.split⟩

theorem IsBest.mem (h : IsBest entries name m) : (m.key, m.target) ∈ entries :=
  List.mem_of_find?_eq_some h.first

/-- There is at most one best match. -/
theorem IsBest.unique (h : IsBest entries name m) (h' : IsBest entries name m') : m = m' := by
  have hkey : m.key = m'.key := by
    by_contra hne
    have hless := h.greatest _ h'.mem (fits_iff.2 ⟨_, h'.matchKey?⟩) (Ne.symm hne)
    have hless' := h'.greatest _ h.mem (fits_iff.2 ⟨_, h.matchKey?⟩) hne
    exact lt_asymm hless hless'
  have htarget := h.first
  have htext := h.matchKey?
  rw [hkey] at htarget htext
  obtain ⟨key, target, text⟩ := m
  obtain ⟨key', target', text'⟩ := m'
  obtain rfl : key = key' := hkey
  obtain rfl : target = target' :=
    (Prod.mk.inj (Option.some.inj (htarget.symm.trans h'.first))).2
  obtain rfl : text = text' := Option.some.inj (htext.symm.trans h'.matchKey?)
  rfl

/-- An entry with the key of a match that is at least as specific as all others comes first. -/
theorem IsBest.append (h : IsBest entries name m) {e : List Char × Target}
    (hless : Fits e.1 name → e.1 ≠ m.key → rank e.1 < rank m.key) :
    IsBest (entries ++ [e]) name m where
  first := by rw [List.find?_append, h.first, Option.some_or]
  ne_nil := h.ne_nil
  split := h.split
  greatest := by
    intro d hd
    rcases List.mem_append.1 hd with hd | hd
    · exact h.greatest d hd
    · rw [List.mem_singleton.1 hd]
      exact hless

/-- An entry behind others is the best match if it is more specific than all of them. -/
theorem isBest_append {e : List Char × Target} {text : List Char}
    (htext : matchKey? e.1 name = some text)
    (hless : ∀ d ∈ entries, Fits d.1 name → rank d.1 < rank e.1) :
    IsBest (entries ++ [e]) name ⟨e.1, e.2, text⟩ where
  first := by
    have hnone : entries.find? (fun d => d.1 == e.1) = none := by
      refine List.find?_eq_none.2 fun d hd hkey => ?_
      have hsame : d.1 = e.1 := by simpa using hkey
      have hfits : Fits d.1 name := fits_iff.2 ⟨text, hsame ▸ htext⟩
      exact lt_irrefl _ (hsame ▸ hless d hd hfits)
    rw [List.find?_append, hnone]
    simp
  ne_nil := (matchKey?_eq_some_iff.1 htext).1
  split := (matchKey?_eq_some_iff.1 htext).2
  greatest := by
    intro d hd hfits hne
    rcases List.mem_append.1 hd with hd | hd
    · exact hless d hd hfits
    · exact absurd (congrArg Prod.fst (List.mem_singleton.1 hd)) hne

/-- What the scan of the entries has found: no entry that fits, or the best match. -/
def Scanned (entries : List (List Char × Target)) (name : List Char) : Option KeyMatch → Prop
  | none => ∀ e ∈ entries, ¬ Fits e.1 name
  | some m => IsBest entries name m

/-- One more entry keeps what the scan has found. -/
theorem Scanned.better {best : Option KeyMatch} (h : Scanned entries name best)
    (e : List Char × Target) : Scanned (entries ++ [e]) name (better name best e) := by
  unfold PackageMap.better
  split
  · rename_i hnone
    have hfits : ¬ Fits e.1 name := fun hfits => by
      obtain ⟨text, htext⟩ := fits_iff.1 hfits
      rw [hnone] at htext
      cases htext
    cases best with
    | none =>
      intro d hd
      rcases List.mem_append.1 hd with hd | hd
      · exact h d hd
      · exact List.mem_singleton.1 hd ▸ hfits
    | some b => exact IsBest.append h fun hfit => absurd hfit hfits
  · rename_i text htext
    cases best with
    | none => exact isBest_append htext fun d hd hfits => absurd hfits (h d hd)
    | some b =>
      have hbest : IsBest entries name b := h
      have hspecific := isMoreSpecific_iff htext hbest.matchKey?
      dsimp only
      split
      · rename_i hmore
        refine isBest_append htext fun d hd hfits => ?_
        by_cases hkey : d.1 = b.key
        · exact hkey ▸ hspecific.1 hmore
        · exact (hbest.greatest d hd hfits hkey).trans (hspecific.1 hmore)
      · rename_i hless
        refine hbest.append fun _ hne => ?_
        have hle : rank e.1 ≤ rank b.key := not_lt.1 fun hlt => hless (hspecific.2 hlt)
        exact lt_of_le_of_ne hle fun heq => hne (eq_of_rank_eq htext hbest.matchKey? heq)

/-- **The best match** is what the scan of all entries finds. -/
theorem scanned_bestMatch (entries : List (List Char × Target)) (name : List Char) :
    Scanned entries name (bestMatch entries name) := by
  induction entries using List.reverseRecOn with
  | nil => exact fun e he => absurd he List.not_mem_nil
  | append_singleton entries e ih =>
    unfold bestMatch at ih ⊢
    rw [List.foldl_concat]
    exact ih.better e

theorem bestMatch_eq_none_iff : bestMatch entries name = none ↔ ∀ e ∈ entries, ¬ Fits e.1 name := by
  have hscan := scanned_bestMatch entries name
  constructor
  · intro h
    rwa [h] at hscan
  · intro h
    cases hm : bestMatch entries name with
    | none => rfl
    | some m =>
      rw [hm] at hscan
      exact absurd (fits_iff.2 ⟨_, IsBest.matchKey? hscan⟩) (h _ (IsBest.mem hscan))

theorem bestMatch_eq_some_iff : bestMatch entries name = some m ↔ IsBest entries name m := by
  have hscan := scanned_bestMatch entries name
  constructor
  · intro h
    rwa [h] at hscan
  · intro h
    cases hm : bestMatch entries name with
    | none =>
      rw [hm] at hscan
      exact absurd (fits_iff.2 ⟨_, h.matchKey?⟩) (hscan _ h.mem)
    | some m' =>
      rw [hm] at hscan
      rw [IsBest.unique hscan h]

/-! ## The order of entries -/

theorem find?_eq_some_of_nodup {e : List Char × Target} (hnodup : (entries.map Prod.fst).Nodup)
    (h : e ∈ entries) : entries.find? (fun d => d.1 == e.1) = some e := by
  obtain ⟨d, hd⟩ := Option.isSome_iff_exists.1
    (List.find?_isSome.2 ⟨e, h, beq_self_eq_true e.1⟩ : (entries.find? fun d => d.1 == e.1).isSome)
  have hkey : d.1 = e.1 := by simpa using List.find?_some hd
  rw [hd, List.inj_on_of_nodup_map hnodup (List.mem_of_find?_eq_some hd) h hkey]

section

variable {entries' : List (List Char × Target)} (hnodup : (entries.map Prod.fst).Nodup)
  (hperm : entries.Perm entries')

include hnodup hperm

/-- The entry under a key does not depend on the order of entries with different keys. -/
theorem find?_perm (key : List Char) :
    entries.find? (fun e => e.1 == key) = entries'.find? (fun e => e.1 == key) := by
  have hnodup' : (entries'.map Prod.fst).Nodup := (hperm.map Prod.fst).nodup_iff.1 hnodup
  cases h : entries.find? fun e => e.1 == key with
  | none =>
    refine (List.find?_eq_none.2 fun e he => ?_).symm
    exact List.find?_eq_none.1 h e (hperm.mem_iff.2 he)
  | some e =>
    obtain rfl : e.1 = key := by simpa using List.find?_some h
    exact (find?_eq_some_of_nodup hnodup' (hperm.mem_iff.1 (List.mem_of_find?_eq_some h))).symm

/-- The best match does not depend on the order of entries with different keys. -/
theorem bestMatch_perm (name : List Char) : bestMatch entries name = bestMatch entries' name := by
  cases h : bestMatch entries name with
  | none =>
    refine (bestMatch_eq_none_iff.2 fun e he => ?_).symm
    exact bestMatch_eq_none_iff.1 h e (hperm.mem_iff.2 he)
  | some m =>
    have hbest := bestMatch_eq_some_iff.1 h
    refine (bestMatch_eq_some_iff.2 ⟨?_, hbest.ne_nil, hbest.split, fun e he => ?_⟩).symm
    · rw [← find?_perm hnodup hperm]
      exact hbest.first
    · exact hbest.greatest e (hperm.mem_iff.2 he)

end

/-- The target under a key of a branch is that of the first entry with the key. -/
theorem get?_branch (entries : List (List Char × Target)) (key : List Char) :
    (Target.branch entries).get? key = (entries.find? fun e => e.1 == key).map Prod.snd := by
  show entries.findSome? _ = _
  induction entries with
  | nil => rfl
  | cons e es ih =>
    rw [List.findSome?_cons, List.find?_cons, ih]
    cases e.1 == key <;> rfl

/-! ## What a map has for a name -/

/-- What a map has for a name: the request that a target is evaluated for, and the target.  It is
the entry with exactly that key, or else the best match. -/
def choice? (map : Target) (whole : Bool) (name : List Char) : Option (Request × Target) :=
  match if whole then map.get? name else none with
  | some target => some (⟨name, [], false⟩, target)
  | none => (bestMatch (map.entries?.getD []) name).map fun m => (⟨m.key, m.text, true⟩, m.target)

/-- What a map has for a name stands in one of its entries: in the one with exactly that name, or in
one with a star that stands for a text in the name. -/
theorem mem_of_choice? {map t : Target} {whole : Bool} {r : Request}
    (h : choice? map whole name = some (r, t)) :
    (r.key, t) ∈ map.entries?.getD [] ∧ (whole = true ∧ r = ⟨name, [], false⟩ ∨
      r.isPattern = true ∧ matchKey? r.key name = some r.text) := by
  unfold choice? at h
  split at h
  · rename_i target htarget
    cases h
    obtain ⟨hwhole, hget⟩ := Option.ite_none_right_eq_some.1 htarget
    obtain ⟨entry, hmem, hfound⟩ := List.exists_of_findSome?_eq_some hget
    obtain ⟨hname, htarget⟩ := Option.ite_none_right_eq_some.1 hfound
    obtain rfl := Option.some.inj htarget
    obtain rfl : entry.1 = name := by simpa using hname
    exact ⟨hmem, .inl ⟨hwhole, rfl⟩⟩
  · obtain ⟨m, hm, heq⟩ := Option.map_eq_some_iff.1 h
    cases heq
    have hbest := bestMatch_eq_some_iff.1 hm
    exact ⟨hbest.mem, .inr ⟨rfl, hbest.matchKey?⟩⟩

theorem choice?_perm {entries' : List (List Char × Target)} (hnodup : (entries.map Prod.fst).Nodup)
    (hperm : entries.Perm entries') (whole : Bool) (name : List Char) :
    choice? (.branch entries) whole name = choice? (.branch entries') whole name := by
  have hbest : bestMatch ((Target.branch entries).entries?.getD []) name =
      bestMatch ((Target.branch entries').entries?.getD []) name := bestMatch_perm hnodup hperm name
  unfold choice?
  rw [get?_branch, get?_branch, find?_perm hnodup hperm, hbest]

namespace Context

variable {ctx : Context}

/-- A map whose keys are all subpaths is no shorthand. -/
theorem isShorthand_of_subpaths (h : ∀ e ∈ entries, isSubpathKey e.1 = true) :
    ctx.isShorthand (.branch entries) = .ok false := by
  unfold isShorthand
  cases entries with
  | nil => rfl
  | cons e es =>
    have hsame : ¬ (es.any fun d => isSubpathKey d.1 != isSubpathKey e.1) = true := by
      rw [h e List.mem_cons_self]
      simpa using fun d f hd => h (d, f) (List.mem_cons_of_mem e hd)
    dsimp only
    rw [if_neg hsame, h e List.mem_cons_self]
    rfl

theorem lookup_eq (map : Target) (whole : Bool) (name : List Char) :
    ctx.lookup map whole name = match choice? map whole name with
      | some (r, t) => (ctx.evaluate r t).map Outcome.url?
      | none => .ok none := by
  unfold lookup choice?
  cases (if whole then map.get? name else none : Option Target) with
  | some target => rfl
  | none => cases bestMatch (map.entries?.getD []) name <;> rfl

/-- A map gives a module for a name exactly when the target that it has for the name does. -/
theorem lookup_eq_some_iff {map : Target} {whole : Bool} {name : List Char} {url : Url} :
    ctx.lookup map whole name = .ok (some url) ↔
      ∃ r t, choice? map whole name = some (r, t) ∧ ctx.evaluate r t = .ok (.resolved url) := by
  rw [lookup_eq]
  cases choice? map whole name with
  | none => simp
  | some choice =>
    obtain ⟨r, t⟩ := choice
    constructor
    · intro h
      obtain ⟨outcome, houtcome, heq⟩ := map_eq_ok.1 h
      cases outcome with
      | resolved found => exact ⟨r, t, rfl, Option.some.inj heq ▸ houtcome⟩
      | excluded => cases heq
      | unmatched => cases heq
    · rintro ⟨r', t', hchoice, h⟩
      cases hchoice
      exact map_eq_ok.2 ⟨_, h, rfl⟩

/-- **Selecting the entry for a subpath.**  The order of the entries of a map of subpaths does not
matter; and of the keys with exactly one star that a name fits the most specific one is taken, with
the text that its star stands for. -/
theorem selection_mostSpecific :
    (∀ (ctx : Context) (entries entries' : List (List Char × Target)) (subpath : List Char),
      (∀ e ∈ entries, isSubpathKey e.1 = true) → (entries.map Prod.fst).Nodup →
      entries.Perm entries' →
      ctx.resolveExport (.branch entries') subpath = ctx.resolveExport (.branch entries) subpath) ∧
    ∀ (entries : List (List Char × Target)) (name : List Char),
      (bestMatch entries name = none ↔ ∀ e ∈ entries, ¬ Fits e.1 name) ∧
        ∀ m, bestMatch entries name = some m ↔ IsBest entries name m := by
  refine ⟨fun ctx entries entries' subpath hsubpaths hnodup hperm => ?_,
    fun entries name => ⟨bestMatch_eq_none_iff, fun m => bestMatch_eq_some_iff⟩⟩
  have hsubpaths' : ∀ e ∈ entries', isSubpathKey e.1 = true := fun e he =>
    hsubpaths e (hperm.mem_iff.2 he)
  have hlookup : ∀ whole, ctx.lookup (.branch entries') whole subpath =
      ctx.lookup (.branch entries) whole subpath := by
    intro whole
    rw [lookup_eq, lookup_eq, choice?_perm hnodup hperm]
  unfold resolveExport
  rw [isShorthand_of_subpaths hsubpaths, isShorthand_of_subpaths hsubpaths']
  show (ctx.lookup (.branch entries') _ subpath >>= _) =
    (ctx.lookup (.branch entries) _ subpath >>= _)
  rw [hlookup]

/-! ### A package with files of three kinds -/

/-- A package in a directory of its own that exports its files by their own names. -/
def openPackage : Context where
  manifestUrl := ⟨"file".toList, some .empty,
    .segments ["w".toList, "p".toList, "package.json".toList], none, none⟩
  manifestPath := FilePath.ofText "/w/p/package.json".toList
  base := ⟨"file".toList, some .empty, .segments ["w".toList, "m.mjs".toList], none, none⟩
  conditions := []
  resolvePackage := none

/-- Scripts of features, other files of features, which are not published, and all else. -/
def featureFiles : List (List Char × Target) :=
  [("./*".toList, .path "./lib/*".toList), ("./features/*".toList, .excluded),
    ("./features/*.js".toList, .path "./src/*.js".toList)]

/-- A script fits all three keys, and is found under the longest one in either order. -/
theorem selection_mostSpecific_script :
    ∃ url m, openPackage.resolveExport (.branch featureFiles) "./features/a.js".toList = .ok url ∧
      openPackage.resolveExport (.branch featureFiles.reverse) "./features/a.js".toList = .ok url ∧
      (∀ e ∈ featureFiles, isSubpathKey e.1 = true) ∧ (featureFiles.map Prod.fst).Nodup ∧
      IsBest featureFiles "./features/a.js".toList m ∧ m.key = "./features/*.js".toList ∧
      m.text = "a".toList := by
  obtain ⟨horder, hbest⟩ := selection_mostSpecific
  have hkeys : ∀ e ∈ featureFiles, isSubpathKey e.1 = true := by
    rw [← List.all_eq_true]
    decide
  have hnodup : (featureFiles.map Prod.fst).Nodup := by decide
  have hurl : openPackage.resolveExport (.branch featureFiles) "./features/a.js".toList =
      .ok ⟨"file".toList, some .empty,
        .segments ["w".toList, "p".toList, "src".toList, "a.js".toList], none, none⟩ := by
    decide +kernel
  have hreverse := horder openPackage featureFiles featureFiles.reverse "./features/a.js".toList
    hkeys hnodup (List.reverse_perm _).symm
  exact ⟨_, ⟨"./features/*.js".toList, .path "./src/*.js".toList, "a".toList⟩, hurl,
    hreverse.trans hurl, hkeys, hnodup, ((hbest featureFiles _).2 _).1 rfl, rfl, rfl⟩

end Context

end PackageMap

end EsModules
