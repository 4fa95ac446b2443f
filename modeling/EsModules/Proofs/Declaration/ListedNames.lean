import EsModules.Proofs.Declaration.ListedExports

/-!
# The names of exported lists

The shape of lists fits a statement from its front up to the closing bracket of its list.  What it
takes for the entries is what stands between the brackets, perhaps without some spaces and commas in
front of the second one, which have no part in the names.

* `Shape.matches_listFront`: what the shape takes up to the closing bracket.
* `ListStatement.matchAt?_eq`: where it stands behind the list of a statement.
* `ListStatement.exports_eq`: a statement is one export, with the names of its list.
-/

namespace EsModules

open Pattern

/-! ## The shape up to the closing bracket -/

namespace Shape

/-- The shape of lists up to the closing bracket. -/
def listFront : Pattern Part :=
  exportFront ++ spaces ++ (char (· == '\x7b') ++ capture .entries (shortRun1 isListChar) ++ listEnd
    ++ char (· == '\x7d'))

theorem attempt_exportNamed {β : Type} (c : Cursor) (caps : Captures Part) (k : Follow Part β) :
    exportNamed.attempt c caps k =
      listFront.attempt c caps ((orNothing fromClause).followedBy k) := rfl

/-- Whether a character can stand between the entries and the closing bracket. -/
def isListEnd (c : Char) : Bool := Ascii.isSpace c || c == ','

/-- What a list takes up to its closing bracket. -/
theorem matches_listFront {c c' : Cursor} {caps caps' : Captures Part}
    (h : Matches listFront c caps c' caps') : ∃ sp w trail,
      c.rest = "export".toList ++ (sp ++ '\x7b' :: ((w ++ trail) ++ '\x7d' :: c'.rest)) ∧
      (∀ a ∈ sp, Ascii.isSpace a = true) ∧ (∀ a ∈ w, isListChar a = true) ∧
      (∀ a ∈ trail, isListEnd a = true) ∧ c'.before = some '\x7d' ∧
      c'.pos = c.pos + 6 + Text.byteLength sp + 1 + Text.byteLength (w ++ trail) + 1 ∧
      caps' = (.entries, ⟨c.pos + 6 + Text.byteLength sp + 1,
        c.pos + 6 + Text.byteLength sp + 1 + Text.byteLength w⟩) :: caps := by
  cases h with
  | seq hfront hlist =>
  cases hfront with
  | seq hexport hspaces =>
  cases hlist with
  | seq hentries hclosing =>
  cases hentries with
  | seq hentries hend =>
  cases hentries with
  | seq hopening hcapture =>
  cases hcapture with
  | capture hnames =>
  obtain ⟨hrest, -, hpos, rfl⟩ := matches_exportFront hexport
  obtain ⟨sp, hsp, hrest₁, hpast₁, rfl⟩ := hspaces.exists_text
  cases hopening with
  | char hbrace =>
  cases hnames with
  | seq hfirst hmore =>
  cases hfirst with
  | @char _ _ _ a _ _ ha =>
  obtain ⟨w, hw, hrest₂, hpast₂, rfl⟩ := hmore.exists_text
  obtain ⟨trail, htrail, hrest₃, hpast₃, rfl⟩ := hend.exists_text
  cases hclosing with
  | char hbrace' =>
  obtain rfl := eq_of_beq hbrace
  obtain rfl := eq_of_beq hbrace'
  have hopen : ('\x7b').utf8Size = 1 := rfl
  have hclose : ('\x7d').utf8Size = 1 := rfl
  have hpos₁ := congrArg Cursor.pos hpast₁
  have hpos₂ := congrArg Cursor.pos hpast₂
  have hpos₃ := congrArg Cursor.pos hpast₃
  dsimp only [Cursor.past] at hrest₁ hrest₂ hrest₃ hpos₁ hpos₂ hpos₃
  refine ⟨sp, a :: w, trail, ?_, hsp, List.forall_mem_cons.2 ⟨ha, hw⟩, htrail, rfl, ?_, ?_⟩
  · rw [hrest, hrest₁, hrest₂, hrest₃, List.append_assoc]
    rfl
  · rw [Text.byteLength_append, Text.byteLength_cons]
    dsimp only
    omega
  · rw [Text.byteLength_cons]
    refine congrArg (fun s => (Part.entries, s) :: _) ?_
    rw [Span.mk.injEq]
    dsimp only
    omega

/-- A list is taken as a whole, the spaces and commas at its end with the entries. -/
theorem exists_matches_listFront {before : Option Char} {pos : Nat} {caps : Captures Part}
    {sp w rest : List Char} (hbefore : before.any Ascii.isWordChar = false)
    (hsp : ∀ a ∈ sp, Ascii.isSpace a = true) (hne : w ≠ []) (hw : ∀ a ∈ w, isListChar a = true) :
    ∃ c' caps', Matches listFront
      ⟨before, pos, "export".toList ++ (sp ++ '\x7b' :: (w ++ '\x7d' :: rest))⟩ caps c' caps' := by
  obtain ⟨a, w, rfl⟩ := List.exists_cons_of_ne_nil hne
  obtain ⟨ha, hw⟩ := List.forall_mem_cons.1 hw
  have hedge : Cursor.isWordEdge
      ⟨before, pos, "export".toList ++ (sp ++ '\x7b' :: (a :: w ++ '\x7d' :: rest))⟩ = true := by
    unfold Cursor.isWordEdge
    rw [hbefore]
    rfl
  have hfront := Matches.seq (.seq (.wordEdge hedge) (matches_literal before pos "export".toList
    (sp ++ '\x7b' :: (a :: w ++ '\x7d' :: rest)) caps))
      (matches_many_char true hsp _ _ ('\x7b' :: (a :: w ++ '\x7d' :: rest)) caps)
  exact ⟨_, _, .seq hfront (.seq (.seq (.seq (.char rfl) (.capture (.seq (.char ha)
    (matches_many_char false hw _ _ ('\x7d' :: rest) caps)))) .manyDone) (.char rfl))⟩

end Shape

/-! ## Names of entries -/

theorem Word.text_ne_nil (w : Word) : w.text ≠ [] := by
  obtain ⟨c, r, hw, -⟩ := w.exists_cons
  rw [hw]
  exact List.cons_ne_nil c r

theorem Word.comma_notMem (w : Word) : ',' ∉ w.text := fun hmem =>
  (w.parts ',' hmem).elim (fun h => absurd h (by decide)) fun h => absurd h (by decide)

/-- Between two words stands at least one character. -/
theorem Separator.exists_cons (g : Separator) : ∃ c r, g.text = c :: r := by
  obtain ⟨f, fs, hfs⟩ := List.exists_cons_of_ne_nil g.ne_nil
  refine List.exists_cons_of_ne_nil fun hnil => f.text_ne_nil ?_
  rw [ListGap.text, hfs] at hnil
  exact (List.append_eq_nil_iff.1 hnil).1

namespace ListEntry

open ExportRecord

/-- Whether an entry exports a type: it is marked, or it gives another name to `type`. -/
def isType (e : ListEntry) : Bool :=
  e.mark?.isSome || (e.localName.text == "type".toList && e.alias?.isSome)

/-- The name under which an entry is exported. -/
def exported (e : ListEntry) : List Char := ((e.alias?.map Alias.name).getD e.localName).text

/-- Between the tokens of an entry stand only blanks. -/
structure Bare (e : ListEntry) : Prop where
  lead : ∀ c ∈ e.lead.text, Text.isBlank c = true
  mark : ∀ g ∈ e.mark?, ∀ c ∈ g.text, Text.isBlank c = true
  front : ∀ a ∈ e.alias?, ∀ c ∈ a.front.text, Text.isBlank c = true
  behind : ∀ a ∈ e.alias?, ∀ c ∈ a.behind.text, Text.isBlank c = true
  trail : ∀ c ∈ e.trail.text, Text.isBlank c = true

variable {e : ListEntry}

theorem core_ne_nil (e : ListEntry) : e.core ≠ [] := by
  intro hnil
  exact e.localName.text_ne_nil (List.append_eq_nil_iff.1 (List.append_eq_nil_iff.1 hnil).2).1

theorem head?_core (e : ListEntry) : ∀ c ∈ e.core.head?, Text.isBlank c = false := by
  intro c hc
  unfold core markText at hc
  cases hm : e.mark? with
  | none =>
    rw [hm, Option.map_none, Option.getD_none, List.nil_append,
      List.head?_append_of_ne_nil _ e.localName.text_ne_nil] at hc
    exact e.localName.bare c (List.mem_of_mem_head? hc)
  | some g =>
    rw [hm] at hc
    obtain rfl := Option.some.inj hc
    rfl

theorem getLast?_core (e : ListEntry) : ∀ c ∈ e.core.getLast?, Text.isBlank c = false := by
  have hword : ∀ (w : Word) x, ∀ c ∈ (x ++ w.text).getLast?, Text.isBlank c = false := by
    intro w x c hc
    rw [List.getLast?_append_of_ne_nil _ w.text_ne_nil] at hc
    exact w.bare c (List.mem_of_mem_getLast? hc)
  intro c hc
  unfold core aliasText at hc
  cases ha : e.alias? with
  | none =>
    rw [ha, Option.map_none, Option.getD_none, List.append_nil] at hc
    exact hword e.localName _ c hc
  | some a =>
    rw [ha, Option.map_some, Option.getD_some, Alias.text, ← List.append_assoc, ← List.append_assoc,
      ← List.append_assoc, ← List.append_assoc] at hc
    exact hword a.name _ c hc

/-- Behind the name in this module stands a blank, if another name does. -/
theorem Bare.head?_aliasText (h : e.Bare) : ∀ c ∈ e.aliasText.head?, Text.isBlank c = true := by
  intro c hc
  unfold aliasText at hc
  cases ha : e.alias? with
  | none =>
    rw [ha] at hc
    cases hc
  | some a =>
    obtain ⟨d, r, hfront⟩ := a.front.exists_cons
    rw [ha, Option.map_some, Option.getD_some, Alias.text, hfront] at hc
    obtain rfl := Option.some.inj hc
    exact h.front a ha d (by simp [hfront])

theorem Bare.comma_notMem_core (h : e.Bare) : ',' ∉ e.core := by
  have hblank : ∀ x : List Char, (∀ c ∈ x, Text.isBlank c = true) → ',' ∉ x :=
    fun x hx hmem => absurd (hx _ hmem) (by decide)
  have htype : ',' ∉ "type".toList := by decide
  have has : ',' ∉ "as".toList := by decide
  unfold core markText aliasText
  simp only [List.mem_append, not_or]
  refine ⟨?_, e.localName.comma_notMem, ?_⟩
  · cases hm : e.mark? with
    | none => exact List.not_mem_nil
    | some g => exact fun hmem => (List.mem_append.1 hmem).elim htype (hblank _ (h.mark g hm))
  · cases ha : e.alias? with
    | none => exact List.not_mem_nil
    | some a =>
      simp only [Option.map_some, Option.getD_some, Alias.text, List.mem_append, not_or]
      exact ⟨hblank _ (h.front a ha), has, hblank _ (h.behind a ha), a.name.comma_notMem⟩

/-- An entry is marked as a type at its front; what stands behind a type has no part in that. -/
theorem Bare.isTypeEntry_core (h : e.Bare) {t : List Char} (ht : e.isType = false → t = []) :
    isTypeEntry (e.core ++ t) = e.isType := by
  have htype : ∀ c ∈ "type".toList, Text.isBlank c = false := Text.forall_mem_of_all (by decide)
  -- behind a name that blanks follow stands the mark if it is that name
  have hname : ∀ (w : List Char) (g : Separator) r, (∀ c ∈ w, Text.isBlank c = false) →
      (∀ c ∈ g.text, Text.isBlank c = true) →
        startsWithWord "type" (w ++ (g.text ++ r)) = (w == "type".toList) := by
    intro w g r hw hg
    obtain ⟨c, r', hcons⟩ := g.exists_cons
    have hc : Text.isBlank c = true := hg c (by simp [hcons])
    rw [hcons, List.cons_append, startsWithWord_append htype hw (by rintro d ⟨⟩; exact .inl hc),
      List.head?_cons, Option.any_some, hc, Bool.and_true]
  show startsWithWord "type" (e.core ++ t) = e.isType
  unfold isType core markText aliasText at *
  cases hm : e.mark? with
  | some g =>
    have hmark := hname "type".toList g (e.localName.text ++ (e.alias?.map Alias.text).getD [] ++ t)
      htype (h.mark g hm)
    simpa [List.append_assoc] using hmark
  | none =>
    cases ha : e.alias? with
    | some a =>
      have hfront := hname e.localName.text a.front ("as".toList ++ (a.behind.text ++ a.name.text) ++ t)
        e.localName.bare (h.front a ha)
      simpa [Alias.text, List.append_assoc] using hfront
    | none =>
      rw [hm, ha] at ht
      obtain rfl := ht (by simp)
      have hlocal := startsWithWord_append htype e.localName.bare (y := []) (by rintro c ⟨⟩)
      simpa using hlocal

/-- The other name of an entry goes up to the end of the text; without one, the name may stand
behind the entry.  A name that is read as the word in front of another is left out. -/
theorem Bare.alias?_core (h : e.Bare) (has : e.mark?.isSome = true → e.localName.text ≠ "as".toList)
    {t : List Char} (ht : ∀ c ∈ t.head?, Text.isBlank c = true ∨ c = '/') :
    ExportRecord.alias? (e.core ++ t) = match e.alias? with
      | none => ExportRecord.alias? t
      | some a => some (Text.trim (a.behind.text ++ (a.name.text ++ t))) := by
  have hlocal : ExportRecord.alias? (e.localName.text ++ (e.aliasText ++ t)) = match e.alias? with
      | none => ExportRecord.alias? t
      | some a => some (Text.trim (a.behind.text ++ (a.name.text ++ t))) := by
    rw [alias?_append_of_bare e.localName.bare, aliasText]
    cases ha : e.alias? with
    | none => rfl
    | some a =>
      obtain ⟨c, r, hfront⟩ := a.front.exists_cons
      obtain ⟨d, r', hbehind⟩ := a.behind.exists_cons
      have hwritten := alias?_written (hfront ▸ List.cons_ne_nil c r) (h.front a ha)
        (hbehind ▸ List.cons_ne_nil d r') (h.behind a ha) (a.name.text ++ t)
      simpa [Alias.text, List.append_assoc] using hwritten
  rw [← hlocal, core, markText]
  cases hm : e.mark? with
  | none => rw [Option.map_none, Option.getD_none, List.nil_append, List.append_assoc]
  | some g =>
    have hbare : ∀ c ∈ "type".toList, Text.isBlank c = false := Text.forall_mem_of_all (by decide)
    have hword : ∀ c ∈ "as".toList, Text.isBlank c = false := Text.forall_mem_of_all (by decide)
    have hhead : ∀ c ∈ (e.aliasText ++ t).head?, Text.isBlank c = true ∨ c ∉ "as".toList := by
      intro c hc
      rw [List.head?_append] at hc
      rcases Option.or_eq_some_iff.1 hc with hc | ⟨-, hc⟩
      · exact .inl (h.head?_aliasText c hc)
      · refine (ht c hc).imp_right ?_
        rintro rfl
        decide
    have hstart : Text.trimStart (e.localName.text ++ (e.aliasText ++ t)) =
        e.localName.text ++ (e.aliasText ++ t) := by
      refine trimStart_eq_self fun c hc => ?_
      rw [List.head?_append_of_ne_nil _ e.localName.text_ne_nil] at hc
      exact e.localName.bare c (List.mem_of_mem_head? hc)
    have hnot : startsWithWord "as" (Text.trimStart (e.localName.text ++ (e.aliasText ++ t))) = false := by
      have hne : (e.localName.text == "as".toList) = false := beq_false_of_ne (has (by rw [hm]; rfl))
      rw [hstart, startsWithWord_append hword e.localName.bare hhead, hne, Bool.false_and]
    rw [Option.map_some, Option.getD_some, List.append_assoc, List.append_assoc, List.append_assoc,
      alias?_append_of_bare hbare, alias?_append_of_blank (h.mark g hm) hnot]

/-- The name that is read in an entry is its other name. -/
theorem Bare.alias?_core_self (h : e.Bare)
    (has : e.mark?.isSome = true → e.localName.text ≠ "as".toList) :
    ExportRecord.alias? e.core = e.alias?.map fun a => a.name.text := by
  have halias := h.alias?_core (t := []) has (by rintro c ⟨⟩)
  rw [List.append_nil] at halias
  rw [halias]
  cases ha : e.alias? with
  | none => rfl
  | some a =>
    exact congrArg some (Text.trim_append (h.behind a ha) (by rintro c ⟨⟩) a.name.text_ne_nil
      (fun c hc => a.name.bare c (List.mem_of_mem_head? hc))
      (fun c hc => a.name.bare c (List.mem_of_mem_getLast? hc)))

/-- An entry without a mark and another name is its name. -/
theorem core_eq (hmark : e.mark? = none) (halias : e.alias? = none) : e.core = e.exported := by
  simp [core, exported, markText, aliasText, hmark, halias]

/-- An entry without comments is exported under its name, unless it is a type. -/
theorem Bare.listNames_text (h : e.Bare) :
    listNames exportedName e.text = if e.isType then [] else [e.exported] := by
  have hblank : ∀ x : List Char, (∀ c ∈ x, Text.isBlank c = true) → ',' ∉ x :=
    fun x hx hmem => absurd (hx _ hmem) (by decide)
  have hcomma : ',' ∉ e.text := by
    unfold text
    simp only [List.mem_append, not_or]
    exact ⟨hblank _ h.lead, h.comma_notMem_core, hblank _ h.trail⟩
  have htrim : Text.trim e.text = e.core :=
    Text.trim_append h.lead h.trail e.core_ne_nil e.head?_core e.getLast?_core
  have htype := h.isTypeEntry_core (t := []) fun _ => rfl
  rw [List.append_nil] at htype
  rw [listNames_of_notMem hcomma, htrim]
  cases hIs : e.isType with
  | true => rw [if_pos rfl, entryNames_of_type (htype.trans hIs)]
  | false =>
    have hmark : e.mark? = none := by
      simpa using (Bool.or_eq_false_iff.1 hIs).1
    have hname : exportedName e.core = e.exported := by
      rw [exportedName, h.alias?_core_self fun hm => by simp [hmark] at hm]
      cases ha : e.alias? with
      | none => exact core_eq hmark ha
      | some a => rw [exported, ha]; rfl
    rw [if_neg Bool.false_ne_true, entryNames_of_name (htype.trans hIs) (hname ▸ Word.text_ne_nil _),
      hname]

end ListEntry

/-! ## The list of a statement -/

/-- A word has no character that ends a list. -/
theorem Word.isListChar_of_mem (w : Word) : ∀ c ∈ w.text, isListChar c = true := by
  intro c hc
  have hall : ∀ d ∈ "\x7d\"'\x60".toList, isWordPart d = false ∧ d ≠ '\\' :=
    Text.forall_mem_of_all (by decide)
  by_contra hnot
  unfold isListChar isNoneOf at hnot
  rw [Bool.not_eq_true', Bool.not_eq_false, List.contains_iff_mem] at hnot
  obtain ⟨hpart, hback⟩ := hall c hnot
  rcases w.parts c hc with h | h
  · rw [hpart] at h
    cases h
  · exact hback h

theorem ListEntry.isListChar_of_mem (e : ListEntry) : ∀ c ∈ e.text, isListChar c = true := by
  have htype : ∀ c ∈ "type".toList, isListChar c = true := Text.forall_mem_of_all (by decide)
  have has : ∀ c ∈ "as".toList, isListChar c = true := Text.forall_mem_of_all (by decide)
  intro c hc
  unfold text core markText aliasText at hc
  simp only [List.mem_append] at hc
  rcases hc with hlead | (hmark | hname | halias) | htrail
  · exact e.lead.listed c hlead
  · cases hm : e.mark? with
    | none =>
      rw [hm] at hmark
      cases hmark
    | some g =>
      rw [hm] at hmark
      rcases List.mem_append.1 hmark with h | h
      · exact htype c h
      · exact g.listed c h
  · exact e.localName.isListChar_of_mem c hname
  · cases ha : e.alias? with
    | none =>
      rw [ha] at halias
      cases halias
    | some a =>
      rw [ha] at halias
      simp only [Option.map_some, Option.getD_some, Alias.text, List.mem_append] at halias
      rcases halias with h | h | h | h
      · exact a.front.listed c h
      · exact has c h
      · exact a.behind.listed c h
      · exact a.name.isListChar_of_mem c h
  · exact e.trail.listed c htrail

theorem ListItem.isListChar_of_mem (i : ListItem) : ∀ c ∈ i.text, isListChar c = true := by
  cases i with
  | entry e => exact e.isListChar_of_mem
  | blank g => exact g.listed

namespace ListStatement

variable (d : ListStatement)

theorem isListChar_of_mem_inner : ∀ c ∈ d.inner, isListChar c = true := by
  unfold inner items
  generalize d.first = i
  induction d.more generalizing i with
  | nil => exact i.isListChar_of_mem
  | cons i' is ih =>
    intro c hc
    have hjoin : Text.joinWith [','] ((i :: i' :: is).map ListItem.text) =
        i.text ++ ',' :: Text.joinWith [','] ((i' :: is).map ListItem.text) := by
      simp [Text.joinWith]
    rw [hjoin, List.mem_append, List.mem_cons] at hc
    rcases hc with hc | rfl | hc
    · exact i.isListChar_of_mem c hc
    · rfl
    · exact ih i' c hc

/-- Where the entries start. -/
def entriesStart (d : ListStatement) : Nat := 6 + Text.byteLength d.spaces + 1

/-- Where the list ends, behind its closing bracket. -/
def listStop (d : ListStatement) : Nat := d.entriesStart + Text.byteLength d.inner + 1

/-- **Behind the list of a statement** it is asked for another module only; the entries are what
stands between the brackets, perhaps without some spaces and commas at its end. -/
theorem matchAt?_eq (hne : d.inner ≠ []) : ∃ w trail, d.inner = w ++ trail ∧
    (∀ a ∈ trail, Shape.isListEnd a = true) ∧
    Shape.exportNamed.matchAt? (.start d.text) =
      (orNothing Shape.fromClause).attempt ⟨some '\x7d', d.listStop, d.tail.text⟩
        [(.entries, ⟨d.entriesStart, d.entriesStart + Text.byteLength w⟩)]
        fun back captures => some ⟨.start d.text, back, captures⟩ := by
  let k : Follow Part (Match Part) := fun back captures => some ⟨.start d.text, back, captures⟩
  have hclose : ∀ c caps, ((orNothing Shape.fromClause).attempt c caps k).isSome = true :=
    fun c caps => isSome_attempt_of_matches (.altSecond .empty) rfl
  obtain ⟨c', caps', hmatch⟩ := @Shape.exists_matches_listFront none 0 [] d.spaces d.inner
    d.tail.text rfl d.isSpace_spaces hne d.isListChar_of_mem_inner
  have hsome : (Shape.exportNamed.matchAt? (.start d.text)).isSome = true := by
    rw [matchAt?, Shape.attempt_exportNamed]
    exact isSome_attempt_of_matches hmatch (hclose c' caps')
  obtain ⟨m, hm⟩ := Option.isSome_iff_exists.1 hsome
  rw [matchAt?, Shape.attempt_exportNamed] at hm
  obtain ⟨⟨before, pos, rest⟩, caps, hfront, hbehind⟩ := exists_matches_of_attempt hm
  obtain ⟨sp, w, trail, hrest, hsp, hw, htrail, rfl, rfl, rfl⟩ := Shape.matches_listFront hfront
  -- the brackets of the statement are the first ones in it
  have htext : d.spaces ++ '\x7b' :: (d.inner ++ '\x7d' :: d.tail.text) =
      sp ++ '\x7b' :: ((w ++ trail) ++ '\x7d' :: rest) := List.append_cancel_left hrest
  have hspaces : ∀ sp : List Char, (∀ a ∈ sp, Ascii.isSpace a = true) → '\x7b' ∉ sp :=
    fun sp hsp hmem => absurd (hsp _ hmem) (by decide)
  have hlisted : ∀ w : List Char, (∀ a ∈ w, isListChar a = true) → '\x7d' ∉ w :=
    fun w hw hmem => absurd (hw _ hmem) (by decide)
  have htrail' : '\x7d' ∉ trail := fun hmem => absurd (htrail _ hmem) (by decide)
  obtain ⟨rfl, hlist⟩ := Text.append_cons_inj (hspaces _ d.isSpace_spaces) (hspaces _ hsp) htext
  obtain ⟨hinner, rfl⟩ := Text.append_cons_inj (hlisted _ d.isListChar_of_mem_inner)
    (fun hmem => (List.mem_append.1 hmem).elim (hlisted w hw) htrail') hlist
  refine ⟨w, trail, hinner, htrail, ?_⟩
  have hpos : 0 + 6 + Text.byteLength d.spaces + 1 = d.entriesStart := by rw [entriesStart, Nat.zero_add]
  rw [matchAt?, Shape.attempt_exportNamed, hm, ← hbehind, ← hinner]
  simp only [Cursor.start, hpos]
  rfl

/-- The entries of a match are those of the list; it has no other name. -/
theorem listNames_of_matchAt? (hne : d.inner ≠ []) {m : Match Part}
    (hm : Shape.exportNamed.matchAt? (.start d.text) = some m) :
    ExportRecord.listNames ExportRecord.exportedName
        (((m.part? .entries).map (·.text d.text)).getD []) =
      ExportRecord.listNames ExportRecord.exportedName d.inner := by
  obtain ⟨w, trail, hinner, htrail, hattempt⟩ := d.matchAt?_eq hne
  rw [hm] at hattempt
  obtain ⟨c', caps', hmatch, hk⟩ := exists_matches_of_attempt hattempt.symm
  obtain rfl := Option.some.inj hk
  have hpart : Match.part? ⟨.start d.text, c', caps'⟩ .entries =
      some ⟨d.entriesStart, d.entriesStart + Text.byteLength w⟩ := by
    rw [Match.part?, hmatch.find?_of_forgets rfl]
    rfl
  have hcovers : Span.Covers d.text w ⟨d.entriesStart, d.entriesStart + Text.byteLength w⟩ := by
    have hstart : d.entriesStart = Text.byteLength ("export".toList ++ (d.spaces ++ ['\x7b'])) := by
      rw [Text.byteLength_append, Text.byteLength_append, entriesStart]
      exact Nat.add_assoc _ _ _
    refine ⟨"export".toList ++ (d.spaces ++ ['\x7b']), trail ++ '\x7d' :: d.tail.text, ?_, hstart,
      congrArg (· + Text.byteLength w) hstart⟩
    delta text
    rw [hinner, List.append_assoc, List.append_assoc, List.append_assoc, List.singleton_append]
  rw [hpart]
  show ExportRecord.listNames _ (Span.text _ d.text) = _
  rw [hcovers.text_eq, hinner]
  refine (ExportRecord.listNames_append_end rfl (fun c hc => ?_) w).symm
  simpa [Shape.isListEnd] using htrail c hc

end ListStatement

/-! ## The export of a statement -/

namespace ExportRecord

/-- The only one of some names. -/
def only? : List (List Char) → Option (List Char)
  | [name] => some name
  | _ => none

theorem only?_eq_some_iff {names : List (List Char)} {name : List Char} :
    only? names = some name ↔ names = [name] := by
  rcases names with - | ⟨n, - | ⟨n', ns⟩⟩ <;> simp [only?]

/-- What a record of a list says: its name is the only one of the listed names, and that of the
default export makes a default export. -/
structure Lists (list : List (List Char)) (r : ExportRecord) : Prop where
  names : r.names = list
  name : r.name = only? list
  kind : r.kind = if only? list = some "default".toList then .default else .named
  kindByForm : r.kindByForm = if only? list = some "default".toList then some .named else none

/-- A record of a list without another name lists its names. -/
theorem lists_normalize {r : ExportRecord} (hkind : r.kind = .named) (hform : r.kindByForm = none)
    (hname : r.name = none) : r.normalize.Lists r.names := by
  obtain ⟨kind, form, code, span, name, names, specifier, declaration, type, value⟩ := r
  obtain rfl : kind = .named := hkind
  obtain rfl : form = none := hform
  obtain rfl : name = none := hname
  match names with
  | [] => exact ⟨rfl, rfl, rfl, rfl⟩
  | _ :: _ :: _ => exact ⟨rfl, rfl, rfl, rfl⟩
  | [n] =>
    by_cases hn : n = "default".toList
    · subst hn
      exact ⟨rfl, rfl, rfl, rfl⟩
    · have hne : (some n == some "default".toList) = false :=
        beq_false_of_ne fun h => hn (Option.some.inj h)
      have honly : only? [n] ≠ some "default".toList := fun h => hn (Option.some.inj h)
      refine ⟨rfl, rfl, ?_, ?_⟩
      · rw [if_neg honly]
        show (if (some n == some "default".toList && _) = true then _ else _) = _
        rw [hne]
        rfl
      · rw [if_neg honly]
        show (if (some n == some "default".toList && _) = true then _ else _) = _
        rw [hne]
        rfl

end ExportRecord

namespace ListStatement

variable (d : ListStatement)

/-- A statement is one export, namely the match at its front. -/
theorem exports_of_matchAt? (hsingle : d.Single) {m : Match Part}
    (hm : Shape.exportNamed.matchAt? (.start d.text) = some m) :
    Analyzer.standard.exports d.text =
      .ok [(ExportRecord.ofList ExportRecord.exportedName d.text m).normalize] := by
  obtain ⟨tokens, comments, htokens, hkept, hfirst⟩ := d.start_of_keepsRange hsingle
  have hfront := front_of_matchAt? hm
  refine Analyzer.exports_of_list htokens hm (hkept m.span ?_ ?_) hfirst
  · exact congrArg Cursor.pos hfront
  · have hmatch := matches_of_matchAt? hm
    rw [hfront] at hmatch
    cases hmatch with
    | seq hword hlist =>
    cases hword with
    | seq hexport hspaces =>
    obtain ⟨-, -, hpos, -⟩ := Shape.matches_exportFront hexport
    obtain ⟨_, -, hpos'⟩ := hspaces.taken
    obtain ⟨_, -, hpos''⟩ := hlist.taken
    have hzero : (Cursor.start d.text).pos = 0 := rfl
    show 6 ≤ m.back.pos
    omega

/-- **A statement is one export**, with the names of its list; the module that it comes from is the
one that the match at its front remembers. -/
theorem exports_eq (hsingle : d.Single) (hne : d.inner ≠ []) : ∃ m r,
    Shape.exportNamed.matchAt? (.start d.text) = some m ∧
      Analyzer.standard.exports d.text = .ok [r] ∧
      r.Lists (ExportRecord.listNames ExportRecord.exportedName d.inner) ∧
      r.specifier = Specifier.ofMatch? d.text m := by
  obtain ⟨w, trail, -, -, hattempt⟩ := d.matchAt?_eq hne
  have hsome : (Shape.exportNamed.matchAt? (.start d.text)).isSome = true := by
    rw [hattempt]
    exact isSome_attempt_of_matches (.altSecond .empty) rfl
  obtain ⟨m, hm⟩ := Option.isSome_iff_exists.1 hsome
  refine ⟨m, _, hm, d.exports_of_matchAt? hsingle hm, ?_, rfl⟩
  have hname : m.part? .name = none := by
    rw [Match.part?, (matches_of_matchAt? hm).find?_of_forgets rfl]
    rfl
  rw [← d.listNames_of_matchAt? hne hm]
  have hrecord : (ExportRecord.ofList ExportRecord.exportedName d.text m).name = none := by
    show (m.part? .name).map _ = none
    rw [hname]
    rfl
  exact ExportRecord.lists_normalize (r := ExportRecord.ofList ExportRecord.exportedName d.text m)
    rfl rfl hrecord

end ListStatement

end EsModules
