import EsModules.Proofs.Declaration.ListedNames

/-!
# Comments in exported lists

A comment that is put in front of an entry of an exported list, or behind it, becomes part of the
entry.  So it changes the names unless they do not depend on that part of the entry: behind an entry
that exports a type, or in front of one with another name.

* `Side`, `ListEntry.withGap`, `ListPlace`: where a comment is put.
* `ListEntry.overlooks`: what is on one side of an entry has no part in its name.
* `LoneComment`: a comment between blanks, without commas and names of its own.
* `ListEntry.Bare.listNames_front_iff`, `ListEntry.Bare.listNames_behind_iff`: when the names of an
  entry stay the same.
* `ListPlace.names_comment`: when the names of a statement stay the same.
-/

namespace EsModules

open Pattern ExportRecord

/-! ## Places for comments -/

/-- The two sides of an entry. -/
inductive Side
  | front | behind
  deriving DecidableEq, Repr

/-- An entry with other spaces and comments on one side. -/
def ListEntry.withGap (e : ListEntry) : Side → ListGap → ListEntry
  | .front, g => { e with lead := g }
  | .behind, g => { e with trail := g }

/-- Whether an entry is named without regard to what stands on one of its sides: behind it, if it
exports a type, and in front of it, if it has another name and exports none. -/
def ListEntry.overlooks (e : ListEntry) : Side → Bool
  | .front => e.alias?.isSome && !e.isType
  | .behind => e.isType

/-- A statement without one of its items. -/
structure ListPlace where
  /-- The spaces behind the first word. -/
  spaces : List Char
  /-- The items in front of the one that is left out. -/
  before : List ListItem
  /-- The items behind it. -/
  after : List ListItem
  /-- What stands behind the list. -/
  tail : ListTail
  isSpace_spaces : ∀ c ∈ spaces, Ascii.isSpace c = true

namespace ListPlace

/-- The statement with an item in that place. -/
def fill (p : ListPlace) (i : ListItem) : ListStatement :=
  match p.before with
  | [] => ⟨p.spaces, i, p.after, p.tail, p.isSpace_spaces⟩
  | first :: more => ⟨p.spaces, first, more ++ i :: p.after, p.tail, p.isSpace_spaces⟩

theorem items_fill (p : ListPlace) (i : ListItem) :
    (p.fill i).items = p.before ++ i :: p.after := by
  unfold fill
  cases p.before <;> rfl

/-- The names of a statement are those of its items in order. -/
theorem listNames_fill (p : ListPlace) (i : ListItem) :
    listNames exportedName (p.fill i).inner =
      (p.before.map ListItem.text).flatMap (listNames exportedName) ++
        (listNames exportedName i.text ++
          (p.after.map ListItem.text).flatMap (listNames exportedName)) := by
  have hitems : (p.fill i).items = (p.fill i).first :: (p.fill i).more := rfl
  rw [ListStatement.inner, hitems, List.map_cons, listNames_joinWith, ← List.map_cons, ← hitems,
    items_fill]
  simp

end ListPlace

/-! ## Names of an entry with a comment -/

/-- A text that reads as part of a name: it starts with the mark of comments, does not end within
the word in front of another name, and has neither a comma nor another name in it. -/
structure ReadsAsName (x : List Char) : Prop where
  head : x.head? = some '/'
  last : ∀ c ∈ x.getLast?, c ≠ 'a' ∧ c ≠ 's'
  comma : ',' ∉ x
  unaliased : alias? x = none

/-- A comment between blanks, with neither a comma nor another name in it. -/
def LoneComment (g : ListGap) : Prop :=
  ∃ b f b', g.fillers = b ++ f :: b' ∧ (∀ c ∈ Filler.texts b, Text.isBlank c = true) ∧
    (∀ c ∈ Filler.texts b', Text.isBlank c = true) ∧ f.isComment = true ∧ ',' ∉ f.text ∧
      alias? f.text = none

theorem LoneComment.exists_text {g : ListGap} (h : LoneComment g) : ∃ u x v,
    g.text = u ++ (x ++ v) ∧ (∀ c ∈ u, Text.isBlank c = true) ∧
      (∀ c ∈ v, Text.isBlank c = true) ∧ ReadsAsName x := by
  obtain ⟨b, f, b', hg, hb, hb', hf, hcomma, halias⟩ := h
  refine ⟨_, f.text, _, ?_, hb, hb', ?_, ?_, hcomma, halias⟩
  · rw [ListGap.text, hg, Filler.texts_append, Filler.texts_cons]
  · cases f with
    | space => cases hf
    | line | block => rfl
  · cases f with
    | space => cases hf
    | line body ending _ hending =>
      intro c hc
      rw [Filler.text, List.getLast?_append_of_ne_nil _ (List.cons_ne_nil _ _)] at hc
      obtain rfl := Option.some.inj hc
      constructor <;>
      · rintro rfl
        cases hending
    | block body =>
      intro c hc
      rw [Filler.text, List.getLast?_append_of_ne_nil _ (by decide)] at hc
      obtain rfl := Option.some.inj hc
      decide

/-- A text up to its last character that is no blank. -/
theorem exists_append_blanks (x : List Char) : ∃ y z, x = y ++ z ∧
    (∀ c ∈ z, Text.isBlank c = true) ∧ ∀ c ∈ y.getLast?, Text.isBlank c = false := by
  induction x using List.reverseRecOn with
  | nil => exact ⟨[], [], rfl, by rintro c ⟨⟩, by rintro c ⟨⟩⟩
  | append_singleton x c ih =>
    cases hc : Text.isBlank c with
    | true =>
      obtain ⟨y, z, rfl, hz, hy⟩ := ih
      refine ⟨y, z ++ [c], List.append_assoc _ _ _, ?_, hy⟩
      exact List.forall_mem_append.2 ⟨hz, List.forall_mem_singleton.2 hc⟩
    | false =>
      refine ⟨x ++ [c], [], (List.append_nil _).symm, by rintro c ⟨⟩, fun d hd => ?_⟩
      rw [List.getLast?_append_of_ne_nil _ (List.cons_ne_nil _ _)] at hd
      obtain rfl := Option.some.inj hd
      exact hc

/-- A text that starts with the mark of comments does not start with a word. -/
theorem startsWithWord_slash (word : String) {d : Char} {r : List Char}
    (hword : word.toList = d :: r) (hd : d ≠ '/') (x : List Char) :
    startsWithWord word ('/' :: x) = false := by
  refine Bool.eq_false_iff.2 fun h => ?_
  obtain ⟨c, rest, htext, -⟩ := startsWithWord_iff.1 h
  rw [hword] at htext
  exact hd (List.cons.inj htext).1.symm

namespace ListEntry.Bare

variable {e : ListEntry} {u x v : List Char}

/-- An entry whose name is not the word in front of another does not start with that word. -/
theorem startsWithWord_as (h : e.Bare) (has : e.localName.text ≠ "as".toList) :
    startsWithWord "as" e.core = false := by
  refine Bool.eq_false_iff.2 fun hstarts => ?_
  obtain ⟨c, rest, htext, hc⟩ := startsWithWord_iff.1 hstarts
  unfold core markText at htext
  cases hm : e.mark? with
  | some g =>
    rw [hm] at htext
    cases (List.cons.inj htext).1
  | none =>
    rw [hm, Option.map_none, Option.getD_none, List.nil_append] at htext
    have hword : ∀ c ∈ "as".toList, Text.isBlank c = false := Text.forall_mem_of_all (by decide)
    have hlocal := startsWithWord_append hword e.localName.bare fun c hc =>
      .inl (h.head?_aliasText c hc)
    rw [beq_false_of_ne has, Bool.false_and] at hlocal
    rw [startsWithWord_iff.2 ⟨c, rest, htext, hc⟩] at hlocal
    cases hlocal

/-- A comment in front of an entry is part of its name, unless the entry has another name. -/
theorem listNames_front (h : e.Bare) (has : e.localName.text ≠ "as".toList)
    (hu : ∀ c ∈ u, Text.isBlank c = true) (hv : ∀ c ∈ v, Text.isBlank c = true)
    (hx : ReadsAsName x) : listNames exportedName (u ++ (x ++ v) ++ (e.core ++ e.trail.text)) =
      [if e.alias?.isSome then e.exported else x ++ (v ++ e.core)] := by
  have hblank : ∀ x : List Char, (∀ c ∈ x, Text.isBlank c = true) → ',' ∉ x :=
    fun x hx hmem => absurd (hx _ hmem) (by decide)
  obtain ⟨r, hcons⟩ := List.head?_eq_some_iff.1 hx.head
  have hassoc : u ++ (x ++ v) ++ (e.core ++ e.trail.text) =
      u ++ (x ++ (v ++ e.core) ++ e.trail.text) := by simp
  have hcomma : ',' ∉ u ++ (x ++ (v ++ e.core) ++ e.trail.text) := by
    simp only [List.mem_append, not_or]
    exact ⟨hblank u hu, ⟨hx.comma, hblank v hv, h.comma_notMem_core⟩, hblank _ h.trail⟩
  have htrim : Text.trim (u ++ (x ++ (v ++ e.core) ++ e.trail.text)) = x ++ (v ++ e.core) := by
    refine Text.trim_append hu h.trail (by simp [hcons]) ?_ ?_
    · rw [hcons]
      rintro c ⟨⟩
      rfl
    · rw [← List.append_assoc, List.getLast?_append_of_ne_nil _ e.core_ne_nil]
      exact e.getLast?_core
  have htype : isTypeEntry (x ++ (v ++ e.core)) = false := by
    rw [hcons]
    exact startsWithWord_slash "type" rfl (by decide) _
  have hcore := trimStart_eq_self e.head?_core
  have hstart : Text.trimStart (v ++ e.core) = e.core := by
    unfold Text.trimStart at hcore ⊢
    rw [List.dropWhile_append_of_pos hv, hcore]
  have hnot := h.startsWithWord_as has
  have halias : ExportRecord.alias? (x ++ (v ++ e.core)) = e.alias?.map fun a => a.name.text := by
    rw [alias?_append hx.unaliased hx.last (hstart.symm ▸ hnot), ← h.alias?_core_self fun _ => has]
    exact alias?_append_of_blank hv (hcore.symm ▸ hnot)
  have hname : exportedName (x ++ (v ++ e.core)) =
      if e.alias?.isSome then e.exported else x ++ (v ++ e.core) := by
    rw [exportedName, halias, exported]
    cases e.alias? <;> rfl
  have hne : exportedName (x ++ (v ++ e.core)) ≠ [] := by
    rw [hname]
    split
    · exact Word.text_ne_nil _
    · simp [hcons]
  rw [hassoc, listNames_of_notMem hcomma, htrim, entryNames_of_name htype hne, hname]

/-- In front of an entry a comment leaves its names as they are exactly if it has another name and
exports no type. -/
theorem listNames_front_iff (h : e.Bare) (has : e.localName.text ≠ "as".toList)
    (hu : ∀ c ∈ u, Text.isBlank c = true) (hv : ∀ c ∈ v, Text.isBlank c = true)
    (hx : ReadsAsName x) : listNames exportedName (u ++ (x ++ v) ++ (e.core ++ e.trail.text)) =
      listNames exportedName e.text ↔ e.alias?.isSome = true ∧ e.isType = false := by
  rw [h.listNames_front has hu hv hx, h.listNames_text]
  cases htype : e.isType with
  | true => simp
  | false =>
    cases ha : e.alias? with
    | some a => simp
    | none =>
      -- the comment is part of the name
      have hmark : e.mark? = none := by simpa using (Bool.or_eq_false_iff.1 htype).1
      have hcore := core_eq hmark ha
      obtain ⟨r, hcons⟩ := List.head?_eq_some_iff.1 hx.head
      have hne : x ++ (v ++ e.core) ≠ e.exported := by
        intro heq
        have hlength := congrArg List.length heq
        rw [hcore, hcons] at hlength
        simp at hlength
        omega
      simp [hne]

/-- Behind an entry a comment leaves its names as they are exactly if it exports a type. -/
theorem listNames_behind_iff (h : e.Bare) (hu : ∀ c ∈ u, Text.isBlank c = true)
    (hv : ∀ c ∈ v, Text.isBlank c = true) (hx : ReadsAsName x) :
    listNames exportedName (e.lead.text ++ (e.core ++ (u ++ (x ++ v)))) =
      listNames exportedName e.text ↔ e.isType = true := by
  have hblank : ∀ x : List Char, (∀ c ∈ x, Text.isBlank c = true) → ',' ∉ x :=
    fun x hx hmem => absurd (hx _ hmem) (by decide)
  obtain ⟨y, z, rfl, hz, hlast⟩ := exists_append_blanks x
  obtain ⟨r, rfl⟩ : ∃ r, y = '/' :: r := by
    cases y with
    | nil =>
      have hslash := hz '/' (List.mem_of_mem_head? hx.head)
      cases hslash
    | cons c r =>
      obtain rfl := Option.some.inj hx.head
      exact ⟨r, rfl⟩
  have hassoc : e.lead.text ++ (e.core ++ (u ++ ('/' :: r ++ z ++ v))) =
      e.lead.text ++ (e.core ++ (u ++ '/' :: r) ++ (z ++ v)) := by simp
  have hcomma : ',' ∉ e.lead.text ++ (e.core ++ (u ++ '/' :: r) ++ (z ++ v)) := by
    have hcomment := hx.comma
    simp only [List.mem_append, not_or] at hcomment ⊢
    exact ⟨hblank _ h.lead, ⟨h.comma_notMem_core, hblank u hu, hcomment.1⟩, hcomment.2, hblank v hv⟩
  have htrim : Text.trim (e.lead.text ++ (e.core ++ (u ++ '/' :: r) ++ (z ++ v))) =
      e.core ++ (u ++ '/' :: r) := by
    refine Text.trim_append h.lead (List.forall_mem_append.2 ⟨hz, hv⟩) (by simp) ?_ ?_
    · rw [List.head?_append_of_ne_nil _ e.core_ne_nil]
      exact e.head?_core
    · rw [← List.append_assoc, List.getLast?_append_of_ne_nil _ (List.cons_ne_nil _ _)]
      exact hlast
  rw [hassoc, listNames_of_notMem hcomma, htrim, h.listNames_text]
  cases htype : e.isType with
  | true =>
    have hmarked : isTypeEntry (e.core ++ (u ++ '/' :: r)) = true :=
      (h.isTypeEntry_core fun hnot => absurd (htype.symm.trans hnot) (by decide)).trans htype
    simp [entryNames_of_type hmarked]
  | false =>
    rw [if_neg Bool.false_ne_true]
    refine iff_of_false (fun heq => ?_) Bool.false_ne_true
    have hmark : e.mark? = none := by simpa using (Bool.or_eq_false_iff.1 htype).1
    have hname : e.exported = exportedName (e.core ++ (u ++ '/' :: r)) :=
      eq_of_mem_entryNames (heq ▸ List.mem_singleton_self _)
    have hhead : ∀ c ∈ (u ++ '/' :: r).head?, Text.isBlank c = true ∨ c = '/' := by
      intro c hc
      rw [List.head?_append] at hc
      rcases Option.or_eq_some_iff.1 hc with hc | ⟨-, hc⟩
      · exact .inl (hu c (List.mem_of_mem_head? hc))
      · exact .inr (Option.some.inj hc).symm
    have hread := h.alias?_core (fun hm => by simp [hmark] at hm) hhead
    have hlonger : ∀ w : List Char, w ≠ w ++ (u ++ '/' :: r) := by
      intro w hw
      have hlength := congrArg List.length hw
      simp at hlength
    rw [exportedName, hread] at hname
    cases ha : e.alias? with
    | none =>
      have hstart := startsWithWord_slash "as" rfl (by decide) r
      have hnone : ExportRecord.alias? (u ++ '/' :: r) = none := by
        rw [alias?_append_of_blank hu]
        · exact alias?_of_append hx.unaliased
        · rwa [trimStart_eq_self (by rintro c ⟨⟩; rfl)]
      rw [ha, core_eq hmark ha] at hname
      dsimp only at hname
      rw [hnone] at hname
      exact hlonger _ hname
    | some a =>
      have hbehind : Text.trim (a.behind.text ++ (a.name.text ++ (u ++ '/' :: r) ++ [])) =
          a.name.text ++ (u ++ '/' :: r) := by
        refine Text.trim_append (h.behind a ha) (by rintro c ⟨⟩) (by simp) ?_ ?_
        · rw [List.head?_append_of_ne_nil _ a.name.text_ne_nil]
          exact fun c hc => a.name.bare c (List.mem_of_mem_head? hc)
        · rw [← List.append_assoc, List.getLast?_append_of_ne_nil _ (List.cons_ne_nil _ _)]
          exact hlast
      rw [List.append_nil] at hbehind
      rw [ha] at hname
      dsimp only at hname
      rw [hbehind, exported, ha] at hname
      exact hlonger _ hname

end ListEntry.Bare

/-! ## Names of a statement with a comment -/

theorem ListEntry.text_withGap_front (e : ListEntry) (g : ListGap) :
    (e.withGap .front g).text = g.text ++ (e.core ++ e.trail.text) := rfl

theorem ListEntry.text_withGap_behind (e : ListEntry) (g : ListGap) :
    (e.withGap .behind g).text = e.lead.text ++ (e.core ++ g.text) := rfl

/-- With a comment among the blanks on one side an entry keeps its names exactly if it exports a
type, behind it, or has another name and exports no type, in front of it. -/
theorem ListEntry.Bare.listNames_withGap_iff {e : ListEntry} {side : Side} {l₁ g l₂ : ListGap}
    (h : (e.withGap side (l₁ ++ l₂)).Bare) (has : e.localName.text ≠ "as".toList)
    (hg : LoneComment g) :
    listNames exportedName (e.withGap side (l₁ ++ (g ++ l₂))).text =
        listNames exportedName (e.withGap side (l₁ ++ l₂)).text ↔ e.overlooks side = true := by
  obtain ⟨u, x, v, htext, hu, hv, hx⟩ := hg.exists_text
  have hgap : (l₁ ++ (g ++ l₂)).text = (l₁.text ++ u) ++ (x ++ (v ++ l₂.text)) := by
    rw [ListGap.text_append, ListGap.text_append, htext]
    simp only [List.append_assoc]
  have hblank : (∀ c ∈ (l₁ ++ l₂).text, Text.isBlank c = true) →
      (∀ c ∈ l₁.text ++ u, Text.isBlank c = true) ∧
        ∀ c ∈ v ++ l₂.text, Text.isBlank c = true := by
    intro hl
    rw [ListGap.text_append] at hl
    obtain ⟨hl₁, hl₂⟩ := List.forall_mem_append.1 hl
    exact ⟨List.forall_mem_append.2 ⟨hl₁, hu⟩, List.forall_mem_append.2 ⟨hv, hl₂⟩⟩
  cases side with
  | front =>
    obtain ⟨hu', hv'⟩ := hblank h.lead
    rw [text_withGap_front, hgap]
    have hoverlooks : e.overlooks .front = true ↔ e.alias?.isSome = true ∧ e.isType = false := by
      simp [overlooks]
    exact (h.listNames_front_iff has hu' hv' hx).trans hoverlooks.symm
  | behind =>
    obtain ⟨hu', hv'⟩ := hblank h.trail
    rw [text_withGap_behind, hgap]
    exact h.listNames_behind_iff hu' hv' hx

namespace ListPlace

variable (p : ListPlace) (e : ListEntry) (side : Side) (l₁ g l₂ : ListGap)

theorem inner_fill_ne_nil : (p.fill (.entry e)).inner ≠ [] := by
  have hjoin : ∀ (q : List Char) qs, q ≠ [] ∨ qs ≠ [] → Text.joinWith [','] (q :: qs) ≠ [] := by
    intro q qs h
    cases qs with
    | nil => exact h.resolve_right fun hne => hne rfl
    | cons q' qs => simp [Text.joinWith]
  have htext : e.text ≠ [] := fun hnil =>
    e.core_ne_nil (List.append_eq_nil_iff.1 (List.append_eq_nil_iff.1 hnil).2).1
  unfold fill
  cases p.before with
  | nil => exact hjoin _ _ (.inl htext)
  | cons first more => exact hjoin _ _ (.inr (by simp))

/-- Without a gap no second `export` has a place, if it has none with it. -/
theorem single_fill (h : (p.fill (.entry (e.withGap side (l₁ ++ (g ++ l₂))))).Single) :
    (p.fill (.entry (e.withGap side (l₁ ++ l₂)))).Single := by
  have hgap : (l₁ ++ l₂).fillers ⊆ (l₁ ++ (g ++ l₂)).fillers := by
    simp only [ListGap.fillers_append]
    intro f hf
    simp only [List.mem_append] at hf ⊢
    exact hf.imp_right .inr
  have hfillers : (e.withGap side (l₁ ++ l₂)).fillers ⊆
      (e.withGap side (l₁ ++ (g ++ l₂))).fillers := by
    intro f hf
    cases side with
    | front =>
      exact List.mem_append.2 ((List.mem_append.1 hf).imp_left fun h => hgap h)
    | behind =>
      simp only [ListEntry.withGap, ListEntry.fillers, List.mem_append] at hf ⊢
      exact hf.imp_right (.imp_right (.imp_right fun h => hgap h))
  have hwords : ∀ l, (e.withGap side l).words = e.words := by
    cases side <;> exact fun _ => rfl
  unfold ListStatement.Single at h ⊢
  rw [items_fill] at h ⊢
  simp only [List.forall_mem_append, List.forall_mem_cons, ListItem.words, ListItem.fillers,
    hwords] at h ⊢
  refine h.imp_right ?_
  rintro ⟨hbefore, hentry, hafter⟩
  exact ⟨hbefore, hentry.of_subset hfillers, hafter⟩

/-- **A comment in an exported list** leaves the names of the statement as they are exactly if the
text of its entry gives the same names.  For a lone comment among blanks this means: it stands
behind an entry that exports a type, or in front of one that has another name and exports none. -/
theorem names_comment (hsingle : (p.fill (.entry (e.withGap side (l₁ ++ (g ++ l₂))))).Single) :
    ∃ r r', Analyzer.standard.exports (p.fill (.entry (e.withGap side (l₁ ++ l₂)))).text = .ok [r] ∧
      Analyzer.standard.exports (p.fill (.entry (e.withGap side (l₁ ++ (g ++ l₂))))).text = .ok [r'] ∧
      (r'.names = r.names ↔ listNames exportedName (e.withGap side (l₁ ++ (g ++ l₂))).text =
        listNames exportedName (e.withGap side (l₁ ++ l₂)).text) ∧
      ((e.withGap side (l₁ ++ l₂)).Bare → e.localName.text ≠ "as".toList → LoneComment g →
        (r'.names = r.names ↔ e.overlooks side = true)) := by
  obtain ⟨-, r, -, hexports, hlists, -⟩ := ListStatement.exports_eq _
    (p.single_fill e side l₁ g l₂ hsingle) (p.inner_fill_ne_nil _)
  obtain ⟨-, r', -, hexports', hlists', -⟩ := ListStatement.exports_eq _ hsingle
    (p.inner_fill_ne_nil _)
  have hnames : r'.names = r.names ↔ listNames exportedName (e.withGap side (l₁ ++ (g ++ l₂))).text =
      listNames exportedName (e.withGap side (l₁ ++ l₂)).text := by
    rw [hlists.names, hlists'.names, p.listNames_fill, p.listNames_fill]
    exact (List.append_right_inj _).trans (List.append_left_inj _)
  exact ⟨r, r', hexports, hexports', hnames, fun hbare has hg =>
    hnames.trans (hbare.listNames_withGap_iff has hg)⟩

/-- In front of an entry with another name a comment changes nothing. -/
theorem names_comment_aliased : ∃ r r',
    Analyzer.standard.exports "export \x7b a as b\x7d;".toList = .ok [r] ∧
      Analyzer.standard.exports "export \x7b /* x */ a as b\x7d;".toList = .ok [r'] ∧
      r'.names = r.names := by
  let a : Word := ⟨['a'], by decide, Text.forall_mem_of_all (by decide),
    Text.forall_mem_of_all (by decide)⟩
  let b : Word := ⟨['b'], by decide, Text.forall_mem_of_all (by decide),
    Text.forall_mem_of_all (by decide)⟩
  let blank : ListGap := ⟨[.space ' ' rfl], Text.forall_mem_of_all (by decide)⟩
  let separator : Separator := ⟨blank, by decide⟩
  let comment : ListGap :=
    ⟨[.block " x ".toList (by decide), .space ' ' rfl], Text.forall_mem_of_all (by decide)⟩
  let e : ListEntry := ⟨.none, none, a, some ⟨separator, separator, b⟩, .none⟩
  let p : ListPlace := ⟨[' '], [], [], ⟨none, [], true, []⟩, Text.forall_mem_of_all (by decide)⟩
  have hspace : ∀ c ∈ [' '], Text.isBlank c = true := Text.forall_mem_of_all (by decide)
  have hbare : (e.withGap .front (blank ++ .none)).Bare := by
    refine ⟨hspace, by rintro g ⟨⟩, ?_, ?_, by rintro c ⟨⟩⟩
    · rintro _ ⟨⟩
      exact hspace
    · rintro _ ⟨⟩
      exact hspace
  have hlone : LoneComment comment :=
    ⟨[], .block " x ".toList (by decide), [.space ' ' rfl], rfl, by rintro c ⟨⟩, hspace, rfl,
      by decide, by decide⟩
  obtain ⟨r, r', hexports, hexports', -, hnames⟩ :=
    p.names_comment e .front blank comment .none (.inl (by decide))
  exact ⟨r, r', hexports, hexports', (hnames hbare (by decide) hlone).2 (by decide)⟩

/-- Not every comment leaves the names as they are: in front of an entry without another name it
becomes part of the name. -/
theorem names_comment_unaliased : ¬ ∀ (p : ListPlace) (e : ListEntry) (side : Side)
    (l₁ g l₂ : ListGap) (r r' : ExportRecord), LoneComment g →
      Analyzer.standard.exports (p.fill (.entry (e.withGap side (l₁ ++ l₂)))).text = .ok [r] →
      Analyzer.standard.exports (p.fill (.entry (e.withGap side (l₁ ++ (g ++ l₂))))).text =
        .ok [r'] → r'.names = r.names := by
  intro h
  let a : Word := ⟨['a'], by decide, Text.forall_mem_of_all (by decide),
    Text.forall_mem_of_all (by decide)⟩
  let b : Word := ⟨['b'], by decide, Text.forall_mem_of_all (by decide),
    Text.forall_mem_of_all (by decide)⟩
  let blank : ListGap := ⟨[.space ' ' rfl], Text.forall_mem_of_all (by decide)⟩
  let comment : ListGap :=
    ⟨[.block " x ".toList (by decide), .space ' ' rfl], Text.forall_mem_of_all (by decide)⟩
  let p : ListPlace := ⟨[' '], [.entry ⟨blank, none, a, none, .none⟩], [], ⟨none, [], true, []⟩,
    Text.forall_mem_of_all (by decide)⟩
  have hspace : ∀ c ∈ [' '], Text.isBlank c = true := Text.forall_mem_of_all (by decide)
  have hlone : LoneComment comment :=
    ⟨[], .block " x ".toList (by decide), [.space ' ' rfl], rfl, by rintro c ⟨⟩, hspace, rfl,
      by decide, by decide⟩
  have hplain : Analyzer.standard.exports "export \x7b a, b \x7d;".toList = .ok [
      { kind := .named, kindByForm := none, code := "export \x7b a, b \x7d".toList, span := ⟨0, 15⟩,
        name := none, names := [['a'], ['b']], specifier := none, declaration := none,
        declarationType := none, defaultName := none }] := by
    repeat rw [String.toList_ofList]
    decide +kernel
  have hcomment : Analyzer.standard.exports "export \x7b a, /* x */ b \x7d;".toList = .ok [
      { kind := .named, kindByForm := none, code := "export \x7b a, /* x */ b \x7d".toList,
        span := ⟨0, 23⟩, name := none, names := [['a'], "/* x */ b".toList], specifier := none,
        declaration := none, declarationType := none, defaultName := none }] := by
    repeat rw [String.toList_ofList]
    decide +kernel
  have hnames := h p ⟨.none, none, b, none, blank⟩ .front blank comment .none _ _ hlone hplain hcomment
  cases hnames

end ListPlace

end EsModules
