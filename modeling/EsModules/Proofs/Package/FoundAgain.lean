import EsModules.Proofs.Package.Published
import EsModules.Proofs.Url.Behind

/-!
# Files of an exports map are found again

A file that an exports map gives for a subpath is looked for by its path: the path is split at the
last installation directory, and the paths of the map are compared with what stands behind the
package.  So the file is found under a subpath, unless the text of a star and what it stands beside
make one of the dots or another installation directory.

* `Text.splitLast_append`: a text split at the last occurrence of a pattern.
* `InstalledPath.ofLocation?_append`: the parts of a path behind a package.
* `Target.head?_of_mem_publishedPaths`: all subpaths start with a dot.
* `PackageMap.Context.LeadsTo.mem_publishedPaths_key`: a map leads to a path under the key that it
  has chosen.
* `Subpath.StaysBehind`: paths that are split at the package they belong to.
* `Subpath.resolve_exported`: files that are given are found.
-/

namespace EsModules

/-! ## The last occurrence of a text -/

namespace Text

variable {pattern before after : List Char}

/-- A text is split at an occurrence of a pattern behind the front of which there is no other. -/
theorem splitLast_append (hne : pattern ≠ []) (hlast : ¬ pattern <:+: pattern.drop 1 ++ after) :
    splitLast pattern (before ++ (pattern ++ after)) = some (before, after) := by
  refine splitLast_eq_some_iff.2 ⟨rfl, fun x y hxy => ?_⟩
  rcases List.append_eq_append_iff.1 hxy with ⟨z, rfl, hz⟩ | ⟨z, rfl, -⟩
  · cases z with
    | nil => simp
    | cons c z =>
      -- the other pattern starts within this one or behind it
      obtain ⟨d, tail, rfl⟩ := List.exists_cons_of_ne_nil hne
      obtain ⟨-, hz⟩ := List.cons.inj hz
      exact absurd ⟨z, y, (List.append_assoc _ _ _).trans hz.symm⟩ hlast
  · simp

/-- A text does not occur across a front without its first character. -/
theorem infix_of_infix_append {c : Char} {text front rest : List Char} (hc : c ∉ front)
    (h : c :: text <:+: front ++ rest) : c :: text <:+: rest := by
  obtain ⟨x, y, hxy⟩ := h
  rw [List.append_assoc] at hxy
  rcases List.append_eq_append_iff.1 hxy with ⟨more, hfront, hrest⟩ | ⟨more, -, hrest⟩
  · cases more with
    | nil => exact ⟨[], y, by simpa using hrest⟩
    | cons d more =>
      obtain ⟨rfl, -⟩ := List.cons.inj hrest
      exact absurd (by simp [hfront]) hc
  · exact ⟨more, y, by rw [hrest, List.append_assoc]⟩

/-- Nothing is replaced where the character does not stand. -/
theorem replaceFirst_eq_self {old : Char} {cs : List Char} (h : old ∉ cs) (new : List Char) :
    replaceFirst old new cs = cs := by
  induction cs with
  | nil => rfl
  | cons c cs ih =>
    rw [List.mem_cons, not_or] at h
    have hc : ¬ (c == old) = true := by simpa using Ne.symm h.1
    rw [replaceFirst, if_neg hc, ih h.2]

end Text

namespace InstalledPath

/-- The name of a package: a plain one, or one in a scope. -/
def IsPackageName (name : List Char) : Prop :=
  (name ≠ [] ∧ '/' ∉ name ∧ '@' ∉ name) ∨
  ∃ scope plain, name = '@' :: (scope ++ '/' :: plain) ∧ scope ≠ [] ∧ plain ≠ [] ∧
    '/' ∉ scope ++ plain ∧ '@' ∉ scope ++ plain

variable {name rest : List Char}

theorem splitName?_append (h : IsPackageName name) :
    splitName? (name ++ '/' :: rest) = some (name, some rest) := by
  rcases h with ⟨hne, hslash, hat⟩ | ⟨scope, plain, rfl, hscope, hplain, hslash, -⟩
  · have hsplit : Text.splitOnce ['/'] (name ++ '/' :: rest) = some (name, rest) :=
      Text.splitOnce_eq_some_iff.2 ⟨rfl, hslash⟩
    obtain ⟨c, cs, rfl⟩ := List.exists_cons_of_ne_nil hne
    have hc : c ≠ '@' := fun heq => hat (by simp [heq])
    unfold splitName?
    split
    · next behind heq => exact absurd (List.cons.inj heq).1 hc
    · rw [hsplit]
  · rw [List.mem_append, not_or] at hslash
    have hfirst : Text.splitOnce ['/'] (scope ++ '/' :: (plain ++ '/' :: rest)) =
        some (scope, plain ++ '/' :: rest) := Text.splitOnce_eq_some_iff.2 ⟨rfl, hslash.1⟩
    have hsecond : Text.splitOnce ['/'] (plain ++ '/' :: rest) = some (plain, rest) :=
      Text.splitOnce_eq_some_iff.2 ⟨rfl, hslash.2⟩
    have htext : '@' :: (scope ++ '/' :: plain) ++ '/' :: rest =
        '@' :: (scope ++ '/' :: (plain ++ '/' :: rest)) := by simp
    rw [htext]
    unfold splitName?
    simp only [hfirst, hsecond]
    rw [if_neg (by simp [hscope, hplain])]
    simp

/-- A path in a package is taken apart at its last installation directory. -/
theorem ofLocation?_append {dir : List Char} (h : IsPackageName name) (hrest : rest ≠ [])
    (hlast : ¬ marker <:+: '/' :: (name ++ '/' :: rest)) :
    ofLocation? (dir ++ (marker ++ (name ++ '/' :: rest))) =
      some ⟨dir ++ marker, name, '.' :: '/' :: rest⟩ := by
  have hno : ¬ marker <:+: marker.drop 1 ++ (name ++ '/' :: rest) := by
    intro hinfix
    have hfront : marker.drop 1 ++ (name ++ '/' :: rest) =
        "node_modules".toList ++ '/' :: (name ++ '/' :: rest) := rfl
    rw [hfront] at hinfix
    exact hlast (Text.infix_of_infix_append (by decide) hinfix)
  have hname : (name.isEmpty || (name.drop 1).contains '@') = false := by
    rcases h with ⟨hne, -, hat⟩ | ⟨scope, plain, rfl, -, -, -, hat⟩
    · have htail : '@' ∉ name.tail := fun hmem => hat (List.mem_of_mem_tail hmem)
      simp [hne, htail]
    · rw [List.mem_append, not_or] at hat
      simp [hat.1, hat.2]
  obtain ⟨c, cs, rfl⟩ := List.exists_cons_of_ne_nil hrest
  unfold ofLocation?
  rw [Text.splitLast_append (by decide) hno]
  show (splitName? (name ++ '/' :: c :: cs) >>= _) = _
  rw [splitName?_append h]
  show (if (name.isEmpty || (name.drop 1).contains '@') = true then _ else _) = _
  rw [hname]
  simp

end InstalledPath

/-! ## The subpaths of paths -/

namespace Target

variable {key : List Char} {leaf : List Char × List Char}

/-- The paths under the entries of a branch: a key that starts with a dot is the subpath of all that
stands under it. -/
theorem mem_entryLeaves_iff {entries : List (List Char × Target)} :
    leaf ∈ entryLeaves key entries ↔
      ∃ e ∈ entries, leaf ∈ e.2.leaves (if e.1.head? == some '.' then e.1 else key) := by
  induction entries with
  | nil =>
    unfold entryLeaves
    simp
  | cons e es ih =>
    obtain ⟨name, t⟩ := e
    unfold entryLeaves
    rw [List.mem_append, ih]
    simp only [List.mem_cons, exists_eq_or_imp]
    rfl

theorem mem_itemLeaves_iff {items : List Target} :
    leaf ∈ itemLeaves key items ↔ ∃ t ∈ items, leaf ∈ t.leaves key := by
  induction items with
  | nil =>
    unfold itemLeaves
    simp
  | cons t ts ih =>
    unfold itemLeaves
    rw [List.mem_append, ih]
    simp only [List.mem_cons, exists_eq_or_imp]

theorem head?_of_mem_leaves {t : Target} (hkey : key.head? = some '.')
    (hleaf : leaf ∈ t.leaves key) : leaf.1.head? = some '.' := by
  induction t using Target.inductionOn generalizing key with
  | path text => exact List.mem_singleton.1 hleaf ▸ hkey
  | branch entries ih =>
    obtain ⟨e, he, hleaf⟩ := mem_entryLeaves_iff.1 hleaf
    refine ih e he ?_ hleaf
    split
    · next hdot => simpa using hdot
    · exact hkey
  | fallback items ih =>
    obtain ⟨t, ht, hleaf⟩ := mem_itemLeaves_iff.1 hleaf
    exact ih t ht hkey hleaf
  | excluded => cases hleaf

/-- **Every subpath** that an exports map publishes starts with a dot. -/
theorem head?_of_mem_publishedPaths {exports : Target} (hleaf : leaf ∈ exports.publishedPaths) :
    leaf.1.head? = some '.' :=
  head?_of_mem_leaves rfl hleaf

end Target

namespace PackageMap.Context

variable {ctx : Context} {r : Request} {t exports : Target} {text subpath : List Char}

/-- A target arrives at a path under the key that it is evaluated for if no condition looks like a
subpath. -/
theorem ArrivesAt.mem_leaves_key (hconditions : ∀ c ∈ ctx.conditions, c.head? ≠ some '.')
    (h : ctx.ArrivesAt r t text) (key : List Char) : (key, text) ∈ t.leaves key := by
  induction h with
  | path text => exact List.mem_singleton_self _
  | fallback after _ _ ih => exact Target.mem_itemLeaves_iff.2 ⟨_, by simp, ih⟩
  | @branch before after condition t text _ _ hholds _ ih =>
    refine Target.mem_entryLeaves_iff.2 ⟨(condition, t), by simp, ?_⟩
    have hplain : condition.head? ≠ some '.' := by
      unfold holds at hholds
      rw [Bool.or_eq_true, beq_iff_eq, List.contains_iff_mem] at hholds
      rcases hholds with rfl | hmem
      · decide
      · exact hconditions condition hmem
    rw [if_neg (by simpa using hplain)]
    exact ih

/-- The keys of an exports map that is no shorthand are subpaths. -/
theorem isSubpathKey_of_isShorthand {entries : List (List Char × Target)}
    (h : ctx.isShorthand (.branch entries) = .ok false) :
    ∀ e ∈ entries, isSubpathKey e.1 = true := by
  unfold isShorthand at h
  cases entries with
  | nil =>
    intro e he
    cases he
  | cons first rest =>
    obtain ⟨-, h⟩ | ⟨hsame, h⟩ := ite_eq_iff.1 h
    · cases h
    have hfirst : isSubpathKey first.1 = true := by simpa using h
    intro e he
    rcases List.mem_cons.1 he with rfl | he
    · exact hfirst
    · have heq : ¬ (isSubpathKey e.1 != isSubpathKey first.1) = true := fun hne =>
        hsame (List.any_eq_true.2 ⟨e, he, hne⟩)
      rw [hfirst] at heq
      simpa using heq

/-- The path that an exports map leads to is published under the key that is chosen. -/
theorem LeadsTo.mem_publishedPaths_key (hconditions : ∀ c ∈ ctx.conditions, c.head? ≠ some '.')
    (h : ctx.LeadsTo exports subpath r text) : (r.key, text) ∈ exports.publishedPaths := by
  obtain ⟨shorthand, t, hshorthand, hchoice, harrives⟩ := h
  obtain ⟨hmem, -⟩ := mem_of_choice? hchoice
  have hleaf := harrives.mem_leaves_key hconditions r.key
  cases shorthand with
  | true =>
    obtain ⟨hkey, rfl⟩ := Prod.mk.inj (List.mem_singleton.1 hmem)
    rw [hkey] at hleaf ⊢
    exact hleaf
  | false =>
    cases exports with
    | branch entries =>
      have hsubpath : (r.key.head? == some '.') = true :=
        isSubpathKey_of_isShorthand hshorthand _ hmem
      refine Target.mem_entryLeaves_iff.2 ⟨(r.key, t), hmem, ?_⟩
      rwa [if_pos hsubpath]
    | path text => cases hmem
    | fallback items => cases hmem
    | excluded => cases hmem

/-- A star stands in a path only under a key with a star; in a shorthand there is none. -/
def StarsStandUnderStars (ctx : Context) (exports : Target) : Prop :=
  ∀ shorthand, ctx.isShorthand exports = .ok shorthand →
    ∀ e ∈ (mapOf exports shorthand).entries?.getD [], ∀ leaf ∈ e.2.leaves e.1,
      '*' ∈ leaf.2 → '*' ∈ e.1

theorem starsStandUnderStars_of_subpaths (h : ctx.isShorthand exports = .ok false)
    (hstars : ∀ e ∈ exports.entries?.getD [], ∀ leaf ∈ e.2.leaves e.1, '*' ∈ leaf.2 → '*' ∈ e.1) :
    ctx.StarsStandUnderStars exports := by
  intro shorthand hshorthand
  obtain rfl := Except.ok.inj (h.symm.trans hshorthand)
  exact hstars

theorem LeadsTo.star_mem_key (hstars : ctx.StarsStandUnderStars exports)
    (hconditions : ∀ c ∈ ctx.conditions, c.head? ≠ some '.')
    (h : ctx.LeadsTo exports subpath r text) : '*' ∈ text → '*' ∈ r.key := by
  obtain ⟨shorthand, t, hshorthand, hchoice, harrives⟩ := h
  exact hstars shorthand hshorthand (r.key, t) (mem_of_choice? hchoice).1 (r.key, text)
    (harrives.mem_leaves_key hconditions r.key)

end PackageMap.Context

/-! ## Files behind a package -/

namespace Subpath

open Text Url FilePath PercentEncoding PackageMap

/-- The letters, digits and marks of subpaths and of the paths they are mapped to. -/
def subpathChars : List Char :=
  "abcdefghijklmnopqrstuvwxyzABCDEFGHIJKLMNOPQRSTUVWXYZ0123456789-_./".toList

variable {c : Char} {text rest : List Char}

/-- The characters of subpaths are written in a path as they are, and in a name but for the
slash. -/
theorem of_mem_subpathChars (h : c ∈ subpathChars) : c.toNat < 0x80 ∧ ¬ c ≤ ' ' ∧
    isBreak c = false ∧ inPath c = false ∧ c ∉ "*?#%\\:|".toList ∧
    (c ≠ '/' → inSegment c = false) := by
  have hall : subpathChars.all (fun c => Url.isPlain c && c != '*' && c != '#') = true := by
    decide +kernel
  have hchar := List.all_eq_true.1 hall c h
  simp only [Bool.and_eq_true, bne_iff_ne] at hchar
  obtain ⟨⟨hplain, hstar⟩, hsharp⟩ := hchar
  obtain ⟨hlt, hspace, hbreak, -, hmarks, hname⟩ :=
    of_mem_plainChars (mem_plainChars_iff.2 hplain)
  have hsegment : c ≠ '/' → inSegment c = false := fun hslash => (hname hslash hsharp).2
  have hpath : inPath c = false := by
    by_cases hslash : c = '/'
    · rw [hslash]
      decide
    · exact inPath_of_inSegment (hsegment hslash)
  have hrest : c ∉ "*?#%\\:|".toList := by
    have hcases : ∀ d ∈ "*?#%\\:|".toList, d = '*' ∨ d = '#' ∨ d ∈ ":|\\?%".toList := by decide
    intro hmem
    rcases hcases c hmem with hc | hc | hc
    · exact hstar hc
    · exact hsharp hc
    · exact hmarks hc
  exact ⟨hlt, hspace, hbreak, hpath, hrest, hsegment⟩

theorem notMem_of_subpathChars (h : ∀ c ∈ text, c ∈ subpathChars) {d : Char}
    (hd : d ∈ "*?#%\\:|".toList) : d ∉ text := fun hmem =>
  (of_mem_subpathChars (h d hmem)).2.2.2.2.1 hd

theorem isVerbatim_of_subpathChars (h : ∀ c ∈ text, c ∈ subpathChars) : IsVerbatim text where
  chars := by
    intro c hc
    obtain ⟨-, -, hbreak, -, hmarks, -⟩ := of_mem_subpathChars (h c hc)
    have hsubset : "?#%\\".toList ⊆ "*?#%\\:|".toList := by decide
    exact ⟨hbreak, fun hmem => hmarks (hsubset hmem)⟩
  last := fun c hc => (of_mem_subpathChars (h c (List.mem_of_getLast? hc))).2.1

/-- A segment of a subpath is decoded to its bytes. -/
theorem decode_of_subpathChars (h : ∀ c ∈ text, c ∈ subpathChars) (hslash : '/' ∉ text) :
    decode text = ofText text := by
  have hplain : encode inSegment text = text := encode_of_plain fun c hc => by
    obtain ⟨hlt, -, -, -, -, hsegment⟩ := of_mem_subpathChars (h c hc)
    exact ⟨hlt, hsegment (ne_of_mem_of_not_mem hc hslash)⟩
  have hdecode := decode_encodeBytes (ofText text)
  rwa [show encodeBytes inSegment (ofText text) = text from hplain] at hdecode

variable {dir : List Char} {ns : List FilePath}

/-- **The path of the URL** of a file in a directory. -/
theorem toFilePath?_below (hdir : ofText dir = FilePath.ofNames ns) (hne : ns ≠ [])
    (hcolon : ':' ∉ dir) (hbar : '|' ∉ dir) (hrest : ∀ c ∈ rest, c ∈ subpathChars) :
    (below (ns.map (encodeBytes inSegment)) rest).toFilePath? =
      some (ofText (dir ++ '/' :: rest)) := by
  have hsegments : (below (ns.map (encodeBytes inSegment)) rest).segments =
      ns.map (encodeBytes inSegment) ++ splitWhere isSlash rest := by
    have hwritten : encode inPath rest = rest := encode_of_plain fun c hc => by
      obtain ⟨hlt, -, -, hpath, -⟩ := of_mem_subpathChars (hrest c hc)
      exact ⟨hlt, hpath⟩
    show _ ++ splitWhere isSlash (encode inPath rest) = _
    rw [hwritten]
  have hkept : (!(ns.map (encodeBytes inSegment) ++ splitWhere isSlash rest).isEmpty) = true := by
    simp [hne]
  have hfront : ((ns.map (encodeBytes inSegment)).flatMap fun s => slash :: decode s) =
      ofText dir := by
    rw [hdir, ofNames_of_ne_nil hne, List.flatMap_map]
    exact List.flatMap_congr fun n _ => by rw [decode_encodeBytes]
  have hbehind : ((splitWhere isSlash rest).flatMap fun s => slash :: decode s) =
      ofText ('/' :: rest) := by
    rw [← joinSegments_splitWhere (notMem_of_subpathChars hrest (by decide)), ofText_joinSegments]
    refine List.flatMap_congr fun s hs => ?_
    rw [decode_of_subpathChars fun c hc => hrest c (of_mem_splitWhere hs hc).1]
    intro hmem
    cases (of_mem_splitWhere hs hmem).2
  have hpath : ofText (dir ++ '/' :: rest) = ofText dir ++ ofText ('/' :: rest) :=
    Utf8.encode_append _ _
  have hnone : ∀ {d : Char}, d.toNat < 0x80 → d ≠ '/' → d ∉ dir → d ∉ rest →
      UInt8.ofNat d.toNat ∉ ofText (dir ++ '/' :: rest) := by
    intro d hlt hslash hdir hrest hmem
    have hmem := (Utf8.mem_encode_iff hlt).1 hmem
    simp [hslash, hdir, hrest] at hmem
  have hclose : closeDrive (ofText (dir ++ '/' :: rest)) = ofText (dir ++ '/' :: rest) := by
    refine closeDrive_eq_self ?_ ?_
    · exact hnone (d := ':') (by decide) (by decide) hcolon
        (notMem_of_subpathChars hrest (by decide))
    · exact hnone (d := '|') (by decide) (by decide) hbar
        (notMem_of_subpathChars hrest (by decide))
  unfold toFilePath?
  rw [hsegments, hkept, List.flatMap_append, hfront, hbehind, ← hpath, hclose]
  rfl

/-! ## Paths that files are given for -/

/-- A path of an exports map that stays in its package: behind a dot and a slash it has characters
of subpaths and at most one star, and no piece is empty or one of the dots. -/
structure IsPlainPath (target : List Char) : Prop where
  front : "./".toList <+: target
  chars : ∀ c ∈ target, c ∈ subpathChars ∨ c = '*'
  star : target.count '*' ≤ 1
  pieces : ∀ p ∈ splitWhere isSlash (target.drop 2), p ≠ [] ∧ p ≠ ".".toList ∧ p ≠ "..".toList

/-- A path of an exports map without its front, and with the text of a star in its place. -/
def filled (r : Request) (target : List Char) : List Char :=
  replaceFirst '*' r.text (target.drop 2)

variable {key target before middle after : List Char} {r : Request} {ctx : Context} {url : Url}

/-- A path of an exports map has no star, or one for which any text may stand. -/
theorem IsPlainPath.exists_text (h : IsPlainPath target) : ∃ text, target = '.' :: '/' :: text ∧
    text ≠ [] ∧ ((∀ c ∈ text, c ∈ subpathChars) ∧ (∀ r, filled r target = text) ∨
      ∃ before after, text = before ++ '*' :: after ∧ (∀ c ∈ before ++ after, c ∈ subpathChars) ∧
        ∀ r, filled r target = before ++ (r.text ++ after)) := by
  obtain ⟨text, rfl⟩ := h.front
  have hsplit : "./".toList ++ text = '.' :: '/' :: text := rfl
  refine ⟨text, hsplit, ?_, ?_⟩
  · rintro rfl
    exact (h.pieces [] (by decide)).1 rfl
  by_cases hstar : '*' ∈ text
  · obtain ⟨before, after, rfl, hbefore⟩ := List.eq_append_cons_of_mem hstar
    refine .inr ⟨before, after, rfl, fun c hc => ?_, fun r => ?_⟩
    · have hafter : '*' ∉ after := by
        have hcount := h.star
        simp only [List.count_append, List.count_cons_self] at hcount
        rw [← List.count_eq_zero]
        omega
      have hne : c ≠ '*' := by
        rintro rfl
        exact (List.mem_append.1 hc).elim hbefore hafter
      refine (h.chars c ?_).resolve_right hne
      rcases List.mem_append.1 hc with hc | hc <;> simp [hc]
    · show replaceFirst '*' r.text (before ++ '*' :: after) = _
      exact replaceFirst_append hbefore _ _
  · refine .inl ⟨fun c hc => ?_, fun r => replaceFirst_eq_self hstar _⟩
    exact (h.chars c (by simp [hc])).resolve_right (ne_of_mem_of_not_mem hc hstar)

theorem published?_of_notMem (h : '*' ∉ text) :
    published? key ('.' :: '/' :: text) ('.' :: '/' :: text) = some key := by
  unfold published?
  rw [stripDot_dotSlash]
  dsimp only
  rw [splitOnce_eq_none_iff.2 h]
  simp

theorem published?_of_star (hbefore : '*' ∉ before) (hkey : '*' ∈ key) :
    published? key ('.' :: '/' :: (before ++ '*' :: after))
      ('.' :: '/' :: (before ++ (middle ++ after))) = some (replaceFirst '*' middle key) := by
  unfold published?
  rw [stripDot_dotSlash, stripDot_dotSlash]
  dsimp only
  rw [splitOnce_eq_some_iff.2 ⟨rfl, hbefore⟩]
  show (dropPrefix? before (before ++ (middle ++ after)) >>= _) = _
  rw [dropPrefix?_eq_some_iff.2 rfl]
  show (dropSuffix? after (middle ++ after) >>= _) = _
  rw [dropSuffix?_eq_some_iff.2 rfl]
  show (if key.contains '*' = true then _ else _) = _
  rw [if_pos (by simpa using hkey)]

/-- The file that a path is resolved to is the path with the text of the star in its place, as long
as that has no dots among its pieces, and the path stands for it. -/
theorem eq_below_of_resolvePath {front : List (List Char)} {subpath : List Char}
    (hlies : ctx.manifestUrl.LiesIn front) (hfront : '*' ∉ joinSegments front)
    (htarget : IsPlainPath target) (hsubpath : ∀ c ∈ subpath, c ∈ subpathChars)
    (hrequest : '*' ∉ subpath ∧ r = ⟨subpath, [], false⟩ ∨
      r.isPattern = true ∧ matchKey? r.key subpath = some r.text)
    (hstar : '*' ∈ target → '*' ∈ r.key) (h : ctx.resolvePath target r = .ok url)
    (hdots : ∀ p ∈ splitWhere isSlash (filled r target), p ≠ ".".toList ∧ p ≠ "..".toList) :
    url = below front (filled r target) ∧ filled r target ≠ [] ∧
      (∀ c ∈ filled r target, c ∈ subpathChars) ∧
      (published? r.key target ('.' :: '/' :: filled r target)).isSome = true := by
  obtain ⟨hallowed, hmatch⟩ := Context.allowed_of_dotSlash htarget.front h
  obtain ⟨text, rfl, hne, ⟨hchars, hfilled⟩ | ⟨before, after, rfl, hchars, hfilled⟩⟩ :=
    htarget.exists_text
  · -- the path names the file
    rw [hfilled] at hdots ⊢
    have hverbatim := isVerbatim_of_subpathChars hchars
    have hnone : '*' ∉ text := notMem_of_subpathChars hchars (by decide)
    have hresolve := Context.resolvePath_starless hlies (hverbatim.isPathText hdots) hallowed
      (hverbatim.notMem (by decide)) hnone (r := r)
      (hrequest.imp (fun ⟨_, hr⟩ => by rw [hr])
        fun ⟨hpattern, hkey⟩ => ⟨hpattern, (matchKey?_eq_some_iff.1 hkey).1⟩) hmatch hfront
    refine ⟨Except.ok.inj (h.symm.trans hresolve), hne, hchars, ?_⟩
    rw [published?_of_notMem hnone]
    rfl
  · -- the star of the path stands for the text that the star of the key stands for
    rw [hfilled] at hdots ⊢
    have hkey : '*' ∈ r.key := hstar (by simp)
    rcases hrequest with ⟨hnostar, hr⟩ | ⟨hpattern, hmatched⟩
    · rw [hr] at hkey
      exact absurd hkey hnostar
    obtain ⟨htext, kb, ka, -, -, -, hname⟩ := matchKey?_eq_some_iff.1 hmatched
    have hall : ∀ c ∈ before ++ (r.text ++ after), c ∈ subpathChars := by
      intro c hc
      rw [List.mem_append, List.mem_append] at hc
      rcases hc with hc | hc | hc
      · exact hchars c (List.mem_append_left _ hc)
      · exact hsubpath c (by simp [hname, hc])
      · exact hchars c (List.mem_append_right _ hc)
    have hresolve := Context.resolvePath_replaced hlies hfront (isVerbatim_of_subpathChars hall)
      (notMem_of_subpathChars hall (by decide)) hdots hpattern htext hallowed hmatch
    have hbefore : '*' ∉ before := notMem_of_subpathChars
      (fun c hc => hchars c (List.mem_append_left _ hc)) (by decide)
    refine ⟨Except.ok.inj (h.symm.trans hresolve), by simp [htext], hall, ?_⟩
    rw [published?_of_star hbefore hkey]
    rfl

/-! ## Files of an installed package -/

/-- The package of a name in an installation directory. -/
def packageAt (dir name : List Char) : InstalledPath := ⟨dir ++ InstalledPath.marker, name, []⟩

/-- A package is installed in a directory with an exports map in its manifest, and that is where the
map is evaluated: the directory of the package is one without dots and idle pieces, and nothing in
it is a star or would be taken for a slash or a drive. -/
structure IsInstalled (tree : FileTree) (dir name : List Char) (exports : Target) (ctx : Context) :
    Prop where
  named : InstalledPath.IsPackageName name
  place : ∃ ns, ofText (packageAt dir name).packageDir = FilePath.ofNames ns ∧
    ∀ n ∈ ns, isName n = true
  chars : ∀ c ∈ dir ++ name, c ∉ "\\:|*".toList
  manifest :
    ofFilePath? ((ofText (packageAt dir name).packageDir).join Manifest.fileName) =
      some ctx.manifestUrl
  map : exportsOf tree (packageAt dir name) = .ok (some exports)

/-- A file stays behind the name of its package: no piece of its path is one of the dots, and there
is no other installation directory. -/
structure StaysBehind (name file : List Char) : Prop where
  dots : ∀ p ∈ splitWhere isSlash file, p ≠ ".".toList ∧ p ≠ "..".toList
  last : ¬ InstalledPath.marker <:+: '/' :: (name ++ '/' :: file)

variable {tree : FileTree} {name file : List Char} {exports : Target}

/-- A path without forbidden segments stays behind its package.  What is looked at when a path is
resolved are its own segments and those of the text for its star, not the ones of both together. -/
theorem staysBehind_of_hasForbiddenSegment
    (hname : "node_modules".toList ∉ splitWhere isSlash name)
    (h : hasForbiddenSegment file = false) : StaysBehind name file where
  dots := ne_dots_of_hasForbiddenSegment h
  last := by
    rintro ⟨before, after, hcut⟩
    have hmarker : before ++ InstalledPath.marker ++ after =
        before ++ '/' :: ("node_modules".toList ++ '/' :: after) :=
      List.append_assoc before InstalledPath.marker after
    have hwhole : splitWhere isSlash "node_modules".toList = ["node_modules".toList] := by decide
    have hslash : isSlash '/' = true := rfl
    have hpieces := congrArg (splitWhere isSlash) (hmarker.symm.trans hcut)
    rw [splitWhere_append_cut hslash, splitWhere_append_cut hslash, hwhole,
      splitWhere_of_cut hslash, splitWhere_append_cut hslash] at hpieces
    have hpiece : "node_modules".toList ∈
        [] :: (splitWhere isSlash name ++ splitWhere isSlash file) := by
      rw [← hpieces]
      exact List.mem_append_right _ (List.mem_append_left _ (List.mem_singleton_self _))
    rw [List.mem_cons, List.mem_append] at hpiece
    have hfile := (hpiece.resolve_left (by decide)).resolve_left hname
    have hforbidden : forbiddenSegments.contains
        ((decodeText "node_modules".toList).map Char.toLower) = true := by decide +kernel
    exact List.any_eq_false.1 h _ hfile hforbidden

theorem packageDir_ne_root : ofText (packageAt dir name).packageDir ≠ FilePath.ofNames [] := by
  intro h
  have hmarker : '_' ∈ InstalledPath.marker := by decide
  have hmem : '_' ∈ (packageAt dir name).packageDir := by
    simp [packageAt, InstalledPath.packageDir, hmarker]
  have hbyte : UInt8.ofNat '_'.toNat ∈ FilePath.ofNames [] :=
    h ▸ (Utf8.mem_encode_iff (c := '_') (by decide)).2 hmem
  exact absurd hbyte (by decide)

theorem IsInstalled.notMem_packageDir (h : IsInstalled tree dir name exports ctx) {d : Char}
    (hd : d ∈ "\\:|*".toList) : d ∉ (packageAt dir name).packageDir := by
  have hmarker : d ∉ InstalledPath.marker := fun hmem =>
    absurd hd (forall_mem_of_all (p := fun d => d ∉ "\\:|*".toList) (by decide) d hmem)
  have hdir : d ∉ dir ++ name := fun hmem => h.chars d hmem hd
  rw [List.mem_append, not_or] at hdir
  simp [packageAt, InstalledPath.packageDir, hdir, hmarker]

theorem normalize_eq_self (h : '\\' ∉ text) : Location.normalize text = text := by
  refine (List.map_congr_left fun c hc => ?_).trans (List.map_id text)
  have hne : ¬ (c == '\\') = true := by simpa using ne_of_mem_of_not_mem hc h
  exact if_neg hne

/-- The path of a file that stays behind its package is taken apart into the two. -/
theorem IsInstalled.parts (h : IsInstalled tree dir name exports ctx) (hne : file ≠ [])
    (hfile : ∀ c ∈ file, c ∈ subpathChars) (hstays : StaysBehind name file) :
    Id.toPath ((packageAt dir name).packageDir ++ '/' :: file) =
        .ok ((packageAt dir name).packageDir ++ '/' :: file) ∧
      InstalledPath.parse ((packageAt dir name).packageDir ++ '/' :: file) =
        .ok (some ⟨dir ++ InstalledPath.marker, name, '.' :: '/' :: file⟩) := by
  have habsolute : (ofText ((packageAt dir name).packageDir ++ '/' :: file)).isAbsolute = true := by
    obtain ⟨ns, hns, -⟩ := h.place
    rw [ofText_append_slash, hns]
    cases ns <;> rfl
  have hpath : Id.toPath ((packageAt dir name).packageDir ++ '/' :: file) =
      .ok ((packageAt dir name).packageDir ++ '/' :: file) := by
    have hback : '\\' ∉ file := notMem_of_subpathChars hfile (by decide)
    have hdir := h.notMem_packageDir (d := '\\') (by decide)
    rw [toPath_of_isAbsolute habsolute, normalize_eq_self (by simp [hback, hdir])]
  have hassoc : (packageAt dir name).packageDir ++ '/' :: file =
      dir ++ (InstalledPath.marker ++ (name ++ '/' :: file)) := by
    simp [packageAt, InstalledPath.packageDir]
  refine ⟨hpath, ?_⟩
  unfold InstalledPath.parse
  rw [hpath, hassoc]
  exact congrArg Except.ok (InstalledPath.ofLocation?_append h.named hne hstays.last)

/-- Whatever a file is published under starts with a dot. -/
theorem head?_of_published? {t sub : List Char} (hkey : key.head? = some '.')
    (h : published? key ('.' :: '/' :: t) ('.' :: '/' :: sub) = some s) : s.head? = some '.' := by
  rcases published?_eq_some h with ⟨-, -, rfl⟩ | ⟨-, middle, -, -, -, -, rfl⟩
  · exact hkey
  · obtain ⟨rest, rfl⟩ : ∃ rest, key = '.' :: rest := by
      cases key with
      | nil => cases hkey
      | cons c rest => exact ⟨rest, by rw [Option.some.inj hkey]⟩
    rfl

/-- **Files that are given are found.**  If an exports map whose paths stay in the package gives a
file for a subpath, the path of the file is found under a subpath of the map again, and not by the
path without its extension, provided that no path with the text of a star in its place leaves its
place behind the name of the package. -/
theorem resolve_exported (h : IsInstalled tree dir name exports ctx)
    (hconditions : ∀ c ∈ ctx.conditions, c.head? ≠ some '.')
    (htargets : ∀ e ∈ exports.publishedPaths, IsPlainPath e.2)
    (hstars : ctx.StarsStandUnderStars exports) {subpath : List Char}
    (hsubpath : ∀ c ∈ subpath, c ∈ subpathChars)
    (hurl : ctx.resolveExport exports subpath = .ok url)
    (hstays : ∀ r target, ctx.LeadsTo exports subpath r target →
      StaysBehind name (filled r target)) :
    ∃ path s, url.toFilePath? = some (ofText path) ∧ Subpath.resolve tree path = .ok s ∧
      s.head? = some '.' := by
  obtain ⟨r, target, hleads, hpath⟩ := Context.resolveExport_eq_ok_iff.1 hurl
  have hleaf := hleads.mem_publishedPaths_key hconditions
  obtain ⟨ns, hns, hnames⟩ := h.place
  have hne : ns ≠ [] := by
    rintro rfl
    exact packageDir_ne_root hns
  have hdirs : (ofText (packageAt dir name).packageDir).names = ns := by
    rw [hns, names_ofNames hnames]
  have hlies := InstalledPath.liesIn_of_manifest hne hdirs hnames h.manifest
  have hfront : '*' ∉ joinSegments (ns.map (encodeBytes inSegment)) :=
    star_notMem_joinSegments hns (List.Subset.refl ns) (h.notMem_packageDir (by decide))
  have hplace := hstays r target hleads
  obtain ⟨rfl, hfile, hchars, hstands⟩ := eq_below_of_resolvePath hlies hfront
    (htargets _ hleaf) hsubpath hleads.request (hleads.star_mem_key hstars hconditions) hpath
    hplace.dots
  obtain ⟨hself, hparts⟩ := h.parts hfile hchars hplace
  have hfound : (exports.publishedPaths.findSome? fun e =>
      published? e.1 e.2 ('.' :: '/' :: filled r target)).isSome = true :=
    List.findSome?_isSome_iff.2 ⟨(r.key, target), hleaf, hstands⟩
  obtain ⟨s, hs⟩ := Option.isSome_iff_exists.1 hfound
  have hpublished : IsPublished tree ((packageAt dir name).packageDir ++ '/' :: filled r target)
      ((packageAt dir name).packageDir ++ '/' :: filled r target)
      ⟨dir ++ InstalledPath.marker, name, '.' :: '/' :: filled r target⟩ exports s :=
    ⟨hself, hparts, List.cons_ne_nil _ _, h.map, hs⟩
  refine ⟨_, s, toFilePath?_below hns hne (h.notMem_packageDir (by decide))
    (h.notMem_packageDir (by decide)) hchars, hpublished.resolve, ?_⟩
  obtain ⟨e, he, hs⟩ := List.exists_of_findSome?_eq_some hs
  obtain ⟨text, htext, -⟩ := (htargets e he).exists_text
  rw [htext] at hs
  exact head?_of_published? (Target.head?_of_mem_publishedPaths he) hs

/-! ### Maps with one path -/

/-- If a map has one path, that is the one it leads to, and the text for its star is the one that
the star of its key stands for. -/
theorem filled_of_leadsTo {t subpath : List Char}
    (hpaths : exports.publishedPaths = [(key, target)])
    (hconditions : ∀ c ∈ ctx.conditions, c.head? ≠ some '.') (hne : key ≠ subpath)
    (hkey : matchKey? key subpath = some text) (h : ctx.LeadsTo exports subpath r t) :
    filled r t = replaceFirst '*' text (target.drop 2) := by
  have hleaf := h.mem_publishedPaths_key hconditions
  rw [hpaths, List.mem_singleton] at hleaf
  obtain ⟨hrkey, rfl⟩ := Prod.mk.inj hleaf
  rcases h.request with ⟨-, hr⟩ | ⟨-, hmatched⟩
  · exact absurd (hrkey.symm.trans (congrArg Request.key hr)) hne
  · rw [hrkey, hkey] at hmatched
    rw [Option.some.inj hmatched]
    rfl

/-- A package with nothing but its manifest is installed. -/
theorem isInstalled_treeWith {manifest : List Char}
    (hmap : exportsOf (treeWith manifest) (packageAt "/w".toList "p".toList) = .ok (some exports)) :
    IsInstalled (treeWith manifest) "/w".toList "p".toList exports importContext where
  named := .inl (by decide)
  place := ⟨["w", "node_modules", "p"].map fun n => FilePath.ofText n.toList, by decide +kernel,
    by decide +kernel⟩
  chars := forall_mem_of_all (by decide +kernel)
  manifest := by decide +kernel
  map := hmap

/-- A script that is given for its name is found again. -/
theorem resolve_exported_script :
    IsInstalled (treeWith importedManifest) "/w".toList "p".toList importedFiles importContext ∧
      importContext.resolveExport importedFiles "./a".toList = .ok (urlOf ["dist", "a.js"]) ∧
      ∃ path s, (urlOf ["dist", "a.js"]).toFilePath? = some (ofText path) ∧
        Subpath.resolve (treeWith importedManifest) path = .ok s ∧ s.head? = some '.' := by
  have hinstalled : IsInstalled (treeWith importedManifest) "/w".toList "p".toList importedFiles
      importContext := by
    refine isInstalled_treeWith ?_
    unfold importedFiles importedManifest packageAt
    cbv
  have hpaths : importedFiles.publishedPaths = [("./*".toList, "./dist/*.js".toList)] := by
    decide +kernel
  have hplain : IsPlainPath "./dist/*.js".toList :=
    ⟨by decide, forall_mem_of_all (by decide +kernel), by decide,
      forall_mem_of_all (by decide +kernel)⟩
  have hurl : importContext.resolveExport importedFiles "./a".toList =
      .ok (urlOf ["dist", "a.js"]) :=
    Context.resolveExport_eq_ok_iff.2 ⟨_, _, leadsTo_importedFiles, by decide +kernel⟩
  have hconditions : ∀ c ∈ importContext.conditions, c.head? ≠ some '.' := by decide
  have hsubpath : ∀ c ∈ "./a".toList, c ∈ subpathChars := forall_mem_of_all (by decide +kernel)
  refine ⟨hinstalled, hurl, resolve_exported hinstalled hconditions ?_ ?_ hsubpath hurl ?_⟩
  · rw [hpaths]
    exact fun e he => List.mem_singleton.1 he ▸ hplain
  · exact Context.starsStandUnderStars_of_subpaths rfl (by decide)
  · intro r target hleads
    have hkey : matchKey? "./*".toList "./a".toList = some "a".toList := by decide
    rw [filled_of_leadsTo hpaths hconditions (by decide) hkey hleads]
    exact ⟨forall_mem_of_all (by decide +kernel), by decide⟩

/-- Directories that start alike, by the ends of their names. -/
def openEndedFiles : Target := .branch [("./*".toList, .path "./node_*/x.js".toList)]

/-- The manifest with that exports map. -/
def openEndedManifest : List Char :=
  "\x7b\"exports\":\x7b\"./*\":\"./node_*/x.js\"\x7d\x7d".toList

/-- A text that makes an installation directory of the name with the star: the map gives the file,
whose path is not found under a subpath but without its extension. -/
theorem resolve_open_ended :
    IsInstalled (treeWith openEndedManifest) "/w".toList "p".toList openEndedFiles importContext ∧
      (∀ c ∈ importContext.conditions, c.head? ≠ some '.') ∧
      (∀ e ∈ openEndedFiles.publishedPaths, IsPlainPath e.2) ∧
      importContext.StarsStandUnderStars openEndedFiles ∧
      (∀ c ∈ "./modules".toList, c ∈ subpathChars) ∧
      importContext.resolveExport openEndedFiles "./modules".toList =
        .ok (urlOf ["node_modules", "x.js"]) ∧
      (urlOf ["node_modules", "x.js"]).toFilePath? =
        some (ofText "/w/node_modules/p/node_modules/x.js".toList) ∧
      Subpath.resolve (treeWith openEndedManifest)
        "/w/node_modules/p/node_modules/x.js".toList =
        .ok "/w/node_modules/p/node_modules/x".toList := by
  have hplain : IsPlainPath "./node_*/x.js".toList :=
    ⟨by decide, forall_mem_of_all (by decide +kernel), by decide,
      forall_mem_of_all (by decide +kernel)⟩
  have hpaths : openEndedFiles.publishedPaths = [("./*".toList, "./node_*/x.js".toList)] := by
    decide +kernel
  have hchoice : choice? (Context.mapOf openEndedFiles false)
      (!"./modules".toList.contains '*' && "./modules".toList.getLast? != some '/')
      "./modules".toList = some (⟨"./*".toList, "modules".toList, true⟩,
        .path "./node_*/x.js".toList) := by
    unfold openEndedFiles
    cbv
  refine ⟨isInstalled_treeWith ?_, by decide, ?_, ?_, forall_mem_of_all (by decide +kernel), ?_,
    by decide +kernel, by decide +kernel⟩
  · unfold openEndedFiles openEndedManifest packageAt
    cbv
  · rw [hpaths]
    exact fun e he => List.mem_singleton.1 he ▸ hplain
  · exact Context.starsStandUnderStars_of_subpaths rfl (by decide)
  · exact Context.resolveExport_eq_ok_iff.2
      ⟨_, _, ⟨false, _, rfl, hchoice, .path _⟩, by decide +kernel⟩

end Subpath

end EsModules
