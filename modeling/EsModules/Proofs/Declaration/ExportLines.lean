import EsModules.Proofs.Declaration.ListedNames
import EsModules.Proofs.Declaration.WrittenShape

/-!
# Written export lists

The names that a list exports and the module that they are passed on from, and the line that such an
export is usually written as.  The line is found as one export that says the same; a module without
a name is none.

* `Shape.fromClause_written`, `Shape.fromClause_semicolon`, `Shape.fromClause_unnamed`: what stands
  behind the list.
* `ExportEntry`, `ModuleName`, `ExportLine`: a line; `ExportLine.text` is its text.
* `ExportRecord.listNames_pieces`: the names of a written list.
* `ExportLine.exports_text`: the export of a line.
-/

namespace EsModules

open Pattern

/-! ## What stands behind a list -/

namespace Shape

variable {β : Type} {before : Option Char} {pos : Nat} {caps : Captures Part} {k : Follow Part β}

/-- What a quoted specifier takes: between the quotes stands more than spaces. -/
theorem matches_quoted {q : Char} {c c' : Cursor} {caps caps' : Captures Part}
    (h : Matches (quoted q) c caps c' caps') : ∃ s, c.rest = q :: (s ++ q :: c'.rest) ∧
      (∀ a ∈ s, a ≠ q ∨ Ascii.isSpace a = true) ∧ ∃ a ∈ s, Ascii.isSpace a = false := by
  cases h with
  | seq h hclosing =>
  cases h with
  | seq h hspaces' =>
  cases h with
  | seq h hcapture =>
  cases h with
  | seq hopening hspaces =>
  cases hopening with
  | char hquote =>
  cases hcapture with
  | capture hname =>
  cases hname with
  | seq hrun hlast =>
  cases hlast with
  | @char _ _ _ a _ _ ha =>
  cases hclosing with
  | char hquote' =>
  obtain rfl := eq_of_beq hquote
  obtain rfl := eq_of_beq hquote'
  obtain ⟨sp, hsp, hrest, -⟩ := hspaces.exists_text
  obtain ⟨w, hw, hrest', -⟩ := hrun.exists_text
  obtain ⟨sp', hsp', hrest'', -⟩ := hspaces'.exists_text
  simp only [Bool.and_eq_true, bne_iff_ne, Bool.not_eq_true'] at hw ha
  dsimp only at hrest hrest' hrest''
  refine ⟨sp ++ (w ++ a :: sp'), ?_, ?_, a, by simp, ha.2⟩
  · rw [hrest, hrest', hrest'']
    simp
  · intro b hb
    simp only [List.mem_append, List.mem_cons] at hb
    rcases hb with hb | hb | rfl | hb
    · exact .inr (hsp b hb)
    · exact .inl (hw b hb).1
    · exact .inl ha.1
    · exact .inr (hsp' b hb)

/-- What stands in front of another module. -/
theorem matches_fromClause {c c' : Cursor} {caps caps' : Captures Part}
    (h : Matches fromClause c caps c' caps') : ∃ sp sp' q s r, c.rest =
        sp ++ ("from".toList ++ (sp' ++ q :: (s ++ q :: r))) ∧ (q = '"' ∨ q = '\'') ∧
      (∀ a ∈ sp, Ascii.isSpace a = true) ∧ (∀ a ∈ sp', Ascii.isSpace a = true) ∧
      (∀ a ∈ s, a ≠ q ∨ Ascii.isSpace a = true) ∧ ∃ a ∈ s, Ascii.isSpace a = false := by
  cases h with
  | seq h _ =>
  cases h with
  | seq h hspecifier =>
  cases h with
  | seq h hspaces' =>
  cases h with
  | seq hspaces hword =>
  obtain ⟨sp, hsp, hrest, -⟩ := hspaces.exists_text
  obtain ⟨hrest', -⟩ := hword.of_literal
  obtain ⟨sp', hsp', hrest'', -⟩ := hspaces'.exists_text
  cases hspecifier with
  | altFirst hquoted =>
    obtain ⟨s, hs, hne, hsome⟩ := matches_quoted hquoted
    exact ⟨sp, sp', '"', s, _, by rw [hrest, hrest', hrest'', hs], .inl rfl, hsp, hsp', hne, hsome⟩
  | altSecond hquoted =>
    obtain ⟨s, hs, hne, hsome⟩ := matches_quoted hquoted
    exact ⟨sp, sp', '\'', s, _, by rw [hrest, hrest', hrest'', hs], .inr rfl, hsp, hsp', hne, hsome⟩

/-- The other module is found up to the end of the statement. -/
theorem fromClause_written (s : PlainSpecifier) (hk : Succeeds k) :
    fromClause.attempt ⟨before, pos, " from ".toList ++ '"' :: (s.text ++ "\";".toList)⟩ caps k =
      k ⟨some '"', pos + 7 + Text.byteLength s.text + 1, [';']⟩
        ((.specifier, ⟨pos + 7, pos + 7 + Text.byteLength s.text⟩) :: caps) := by
  let ending : Follow Part β := fun c caps => (run fun c => c != '\n' && c != ';').attempt c caps k
  let naming : Follow Part β := fun c caps => specifier.attempt c caps ending
  let spacing : Follow Part β := fun c caps => spaces.attempt c caps naming
  let joining : Follow Part β := fun c caps => (word "from").attempt c caps spacing
  have hending : ending ⟨some '"', pos + 7 + Text.byteLength s.text + 1, [] ++ [';']⟩
      ((.specifier, ⟨pos + 7, pos + 7 + Text.byteLength s.text⟩) :: caps) =
        k ⟨some '"', pos + 7 + Text.byteLength s.text + 1, [';']⟩
          ((.specifier, ⟨pos + 7, pos + 7 + Text.byteLength s.text⟩) :: caps) :=
    attempt_run (fun c hc => absurd hc List.not_mem_nil) (by rintro c ⟨⟩; rfl) (hk _ _)
  have hnaming : naming ⟨some ' ', pos + 6, '"' :: (s.text ++ '"' :: [';'])⟩ caps =
      ending ⟨some '"', pos + 7 + Text.byteLength s.text + 1, [';']⟩
        ((.specifier, ⟨pos + 7, pos + 7 + Text.byteLength s.text⟩) :: caps) :=
    specifier_written s ((congrArg Option.isSome hending).trans (hk _ _))
  have hspacing : spacing ⟨some 'm', pos + 5, [' '] ++ '"' :: (s.text ++ '"' :: [';'])⟩ caps =
      naming ⟨some ' ', pos + 6, '"' :: (s.text ++ '"' :: [';'])⟩ caps :=
    attempt_run (List.all_eq_true.1 (by decide)) (by rintro c ⟨⟩; rfl)
      ((congrArg Option.isSome (hnaming.trans hending)).trans (hk _ _))
  have hjoining : joining ⟨some ' ', pos + 1, "from".toList ++ ' ' :: '"' :: (s.text ++ '"' :: [';'])⟩
      caps = spacing ⟨some 'm', pos + 5, ' ' :: '"' :: (s.text ++ '"' :: [';'])⟩ caps :=
    attempt_literal "from".toList _
  have hspaces : spaces.attempt ⟨before, pos, [' '] ++ ("from".toList ++ ' ' :: '"' ::
      (s.text ++ '"' :: [';']))⟩ caps joining =
        joining ⟨some ' ', pos + 1, "from".toList ++ ' ' :: '"' :: (s.text ++ '"' :: [';'])⟩ caps :=
    attempt_run (List.all_eq_true.1 (by decide)) (by rintro c ⟨⟩; rfl)
      ((congrArg Option.isSome (hjoining.trans (hspacing.trans (hnaming.trans hending)))).trans
        (hk _ _))
  exact hspaces.trans (hjoining.trans (hspacing.trans (hnaming.trans hending)))

/-- In front of the end of a statement there is no other module. -/
theorem fromClause_semicolon : fromClause.attempt ⟨before, pos, [';']⟩ caps k = none := by
  refine attempt_eq_none fun c' caps' hmatch => ?_
  obtain ⟨sp, sp', q, s, r, hrest, -⟩ := matches_fromClause hmatch
  have hmem : 'f' ∈ [';'] := by
    rw [show [';'] = _ from hrest]
    simp
  exact absurd hmem (by decide)

/-- Two quotes with nothing in between name no module. -/
theorem fromClause_unnamed : fromClause.attempt ⟨before, pos, " from \"\";".toList⟩ caps k = none := by
  refine attempt_eq_none fun c' caps' hmatch => ?_
  obtain ⟨sp, sp', q, s, r, hrest, hq, hsp, hsp', hne, a, ha, hspace⟩ := matches_fromClause hmatch
  exfalso
  have hf : 'f' ∉ sp := fun h => absurd (hsp _ h) (by decide)
  have htext : [' '] ++ 'f' :: "rom \"\";".toList =
    sp ++ 'f' :: ("rom".toList ++ (sp' ++ q :: (s ++ q :: r))) := hrest
  obtain ⟨-, htext'⟩ := Text.append_cons_inj (by decide) hf htext
  have hbehind : " \"\";".toList = sp' ++ q :: (s ++ q :: r) :=
    (List.append_cancel_left_eq "rom".toList _ _).mp htext'
  rcases hq with rfl | rfl
  · have hquote : ∀ sp : List Char, (∀ a ∈ sp, Ascii.isSpace a = true) → '"' ∉ sp :=
      fun sp hsp hmem => absurd (hsp _ hmem) (by decide)
    obtain ⟨-, hs⟩ := Text.append_cons_inj (x := [' ']) (r := "\";".toList) (by decide)
      (hquote _ hsp') hbehind
    have hs' : '"' ∉ s := fun hmem => (hne _ hmem).elim (fun h => h rfl) (by decide)
    obtain ⟨rfl, -⟩ := Text.append_cons_inj (x := []) (r := [';']) (by decide) hs' hs
    cases ha
  · have hmem : '\'' ∈ " \"\";".toList := by
      rw [hbehind]
      simp
    exact absurd hmem (by decide)

end Shape

/-! ## Lines -/

/-- An exported name, with the name that it has in this module. -/
structure ExportEntry where
  /-- The name in this module. -/
  localName : Identifier
  /-- The exported name. -/
  exported : Identifier

/-- The text of an entry; a name that stays as it is, is written once. -/
def ExportEntry.text (e : ExportEntry) : List Char :=
  if e.localName.text = e.exported.text then e.localName.text
  else e.localName.text ++ " as ".toList ++ e.exported.text

/-- The name of a module that is written between quotes as it is: it has no quote, no backslash and
no line end in it, and no space around it.  It may be empty. -/
structure ModuleName where
  /-- Its text. -/
  text : List Char
  plain : ∀ c ∈ text, c ≠ '"' ∧ c ≠ '\'' ∧ c ≠ '\\' ∧ Ascii.isLineEnd c = false
  head : ∀ c ∈ text.head?, Ascii.isSpace c = false
  last : ∀ c ∈ text.getLast?, Ascii.isSpace c = false

/-- An export of a list that is not empty; none of the names in this module is the word that marks
types. -/
structure ExportLine where
  /-- The first entry. -/
  first : ExportEntry
  /-- The entries behind the first. -/
  more : List ExportEntry
  /-- The module that the names are passed on from, if they are. -/
  module? : Option ModuleName
  noType : ∀ e ∈ first :: more, e.localName.text ≠ "type".toList

/-! ## Lines as statements -/

/-- A single blank. -/
def ListGap.blank : ListGap := ⟨[.space ' ' rfl], Text.forall_mem_of_all (by decide)⟩

@[inherit_doc ListGap.blank]
def Separator.blank : Separator := ⟨.blank, List.cons_ne_nil _ _⟩

namespace ExportEntry

/-- The entry of a list, with a blank in front of it. -/
def listEntry (e : ExportEntry) (trail : ListGap) : ListEntry where
  lead := .blank
  mark? := none
  localName := e.localName.word
  alias? := if e.localName.text = e.exported.text then none
    else some ⟨.blank, .blank, e.exported.word⟩
  trail := trail

theorem text_listEntry (e : ExportEntry) (trail : ListGap) :
    (e.listEntry trail).text = ' ' :: (e.text ++ trail.text) := by
  unfold listEntry text ListEntry.text ListEntry.core ListEntry.aliasText
  split
  · simp [ListEntry.markText, ListGap.text, ListGap.blank, Filler.text, Identifier.word]
  · simp [ListEntry.markText, ListGap.text, ListGap.blank, Separator.blank, Filler.text,
      Identifier.word, Alias.text]

/-- Only blanks stand between the tokens of an entry. -/
theorem fillers_listEntry (e : ExportEntry) {trail : ListGap}
    (htrail : ∀ f ∈ trail.fillers, f = .space ' ' rfl) :
    ∀ f ∈ (e.listEntry trail).fillers, f = .space ' ' rfl := by
  intro f hf
  unfold listEntry ListEntry.fillers at hf
  dsimp only at hf
  split at hf <;>
    simp [ListGap.blank, Separator.blank] at hf <;>
    · rcases hf with rfl | hf
      · rfl
      · exact htrail f hf

theorem bare_listEntry (e : ExportEntry) {trail : ListGap}
    (htrail : ∀ f ∈ trail.fillers, f = .space ' ' rfl) : (e.listEntry trail).Bare := by
  have hblank : ∀ c ∈ ListGap.blank.text, Text.isBlank c = true := Text.forall_mem_of_all (by decide)
  refine ⟨hblank, fun g hg => (by cases hg), fun a ha => ?_, fun a ha => ?_, fun c hc => ?_⟩
  · obtain ⟨-, halias⟩ := Option.ite_none_left_eq_some.1 (show _ = some a from ha)
    obtain rfl := Option.some.inj halias
    exact hblank
  · obtain ⟨-, halias⟩ := Option.ite_none_left_eq_some.1 (show _ = some a from ha)
    obtain rfl := Option.some.inj halias
    exact hblank
  · obtain ⟨f, hf, hc⟩ := List.mem_flatMap.1 (show c ∈ trail.fillers.flatMap Filler.text from hc)
    rw [htrail f hf] at hc
    obtain rfl := List.mem_singleton.1 hc
    rfl

theorem isType_listEntry (e : ExportEntry) (h : e.localName.text ≠ "type".toList) (trail : ListGap) :
    (e.listEntry trail).isType = false := by
  show (false || (e.localName.text == "type".toList && _)) = false
  rw [beq_false_of_ne h]
  rfl

theorem exported_listEntry (e : ExportEntry) (trail : ListGap) :
    (e.listEntry trail).exported = e.exported.text := by
  unfold listEntry ListEntry.exported
  dsimp only
  split
  · rename_i heq
    exact heq
  · rfl

end ExportEntry

namespace ExportLine

/-- The exported names in order. -/
def names (l : ExportLine) : List (List Char) := (l.first :: l.more).map fun e => e.exported.text

/-- What stands behind the closing bracket. -/
def ending (l : ExportLine) : List Char :=
  (l.module?.map fun m => " from ".toList ++ '"' :: (m.text ++ ['"'])).getD [] ++ [';']

/-- The line of an export. -/
def text (l : ExportLine) : List Char :=
  "export \x7b".toList ++ Text.joinWith [','] ((l.first :: l.more).map fun e => ' ' :: e.text) ++
    " \x7d".toList ++ l.ending

/-- The first of some entries; a blank stands behind the last one. -/
def firstItem (e : ExportEntry) (es : List ExportEntry) : ListItem :=
  .entry (e.listEntry (if es.isEmpty then .blank else .none))

/-- The items of some entries. -/
def items : List ExportEntry → List ListItem
  | [] => []
  | e :: es => firstItem e es :: items es

/-- The statement that a line consists of. -/
def statement (l : ExportLine) : ListStatement where
  spaces := [' ']
  first := firstItem l.first l.more
  more := items l.more
  tail := {
    from? := l.module?.map fun m => ⟨[.space ' ' rfl], [.space ' ' rfl], '"', m.text, .inl rfl,
      fun c hc => ⟨(m.plain c hc).1, (m.plain c hc).2.2⟩⟩
    finish := []
    semicolon := true
    final := [] }
  isSpace_spaces := Text.forall_mem_of_all (by decide)

theorem joinWith_items (e : ExportEntry) (es : List ExportEntry) :
    Text.joinWith [','] ((items (e :: es)).map ListItem.text) =
      Text.joinWith [','] ((e :: es).map fun e => ' ' :: e.text) ++ [' '] := by
  induction es generalizing e with
  | nil =>
    simp [items, firstItem, ListItem.text, Text.joinWith, ExportEntry.text_listEntry, ListGap.text,
      ListGap.blank, Filler.text]
  | cons e' es ih =>
    have hfirst : (firstItem e (e' :: es)).text = ' ' :: e.text := by
      simp [firstItem, ListItem.text, ExportEntry.text_listEntry, ListGap.text, ListGap.none]
    calc Text.joinWith [','] ((items (e :: e' :: es)).map ListItem.text)
      _ = (firstItem e (e' :: es)).text ++ [','] ++
          Text.joinWith [','] ((items (e' :: es)).map ListItem.text) := rfl
      _ = (' ' :: e.text) ++ [','] ++
          (Text.joinWith [','] ((e' :: es).map fun e => ' ' :: e.text) ++ [' ']) := by rw [hfirst, ih e']
      _ = (' ' :: e.text) ++ [','] ++ Text.joinWith [','] ((e' :: es).map fun e => ' ' :: e.text) ++
          [' '] := (List.append_assoc _ _ _).symm

theorem text_tail (l : ExportLine) : l.statement.tail.text = l.ending := by
  unfold statement ListTail.text ending
  dsimp only
  cases l.module? with
  | none => rfl
  | some m => simp [PassedFrom.text, Filler.text]

theorem inner_statement (l : ExportLine) : l.statement.inner =
    Text.joinWith [','] ((l.first :: l.more).map fun e => ' ' :: e.text) ++ [' '] :=
  joinWith_items l.first l.more

/-- A line is the text of its statement. -/
theorem text_statement (l : ExportLine) : l.statement.text = l.text := by
  delta ListStatement.text
  rw [inner_statement, text_tail]
  unfold text
  generalize Text.joinWith [','] ((l.first :: l.more).map fun e => ' ' :: e.text) = x
  generalize l.ending = y
  show "export".toList ++ ([' '] ++ '\x7b' :: (x ++ [' '] ++ '\x7d' :: y)) = _
  simp

/-- The items of a line are entries in which only blanks stand between the tokens. -/
theorem exists_of_mem_items {es : List ExportEntry} {i : ListItem} (h : i ∈ items es) :
    ∃ e ∈ es, ∃ trail : ListGap, (∀ f ∈ trail.fillers, f = .space ' ' rfl) ∧
      i = .entry (e.listEntry trail) := by
  induction es with
  | nil => cases h
  | cons e es ih =>
    rcases List.mem_cons.1 h with rfl | h
    · refine ⟨e, List.mem_cons_self, _, ?_, rfl⟩
      cases es with
      | nil => exact List.forall_mem_singleton.2 rfl
      | cons e' es => exact fun f hf => absurd hf List.not_mem_nil
    · obtain ⟨e', he', trail, htrail, rfl⟩ := ih h
      exact ⟨e', List.mem_cons_of_mem e he', trail, htrail, rfl⟩

/-- No comment stands in a line. -/
theorem single_statement (l : ExportLine) : l.statement.Single := by
  refine .inr fun i hi f hf hcomment => ?_
  obtain ⟨e, -, trail, htrail, rfl⟩ := @exists_of_mem_items (l.first :: l.more) i hi
  rw [e.fillers_listEntry htrail f hf] at hcomment
  cases hcomment

theorem listNames_items {es : List ExportEntry} (h : ∀ e ∈ es, e.localName.text ≠ "type".toList) :
    ((items es).map ListItem.text).flatMap (ExportRecord.listNames ExportRecord.exportedName) =
      es.map fun e => e.exported.text := by
  induction es with
  | nil => rfl
  | cons e es ih =>
    obtain ⟨he, hes⟩ := List.forall_mem_cons.1 h
    have hitem : ExportRecord.listNames ExportRecord.exportedName (firstItem e es).text =
        [e.exported.text] := by
      have hbare : ∀ trail : ListGap, (∀ f ∈ trail.fillers, f = .space ' ' rfl) →
          ExportRecord.listNames ExportRecord.exportedName (e.listEntry trail).text =
            [e.exported.text] := by
        intro trail htrail
        rw [(e.bare_listEntry htrail).listNames_text, e.isType_listEntry he,
          if_neg Bool.false_ne_true, e.exported_listEntry]
      cases es with
      | nil => exact hbare .blank (List.forall_mem_singleton.2 rfl)
      | cons e' es => exact hbare .none fun f hf => absurd hf List.not_mem_nil
    rw [items, List.map_cons, List.flatMap_cons, hitem, ih hes]
    rfl

/-- The names of a line are those of its entries. -/
theorem listNames_inner (l : ExportLine) :
    ExportRecord.listNames ExportRecord.exportedName l.statement.inner = l.names :=
  (ExportRecord.listNames_joinWith _ _ _).trans (listNames_items l.noType)

/-- The list of a line is not empty. -/
theorem inner_ne_nil (l : ExportLine) : l.statement.inner ≠ [] := by
  rw [inner_statement]
  simp

/-- The module that a line is found to come from. -/
theorem specifier_of_matchAt? (l : ExportLine) {m : Match Part}
    (hm : Shape.exportNamed.matchAt? (.start l.statement.text) = some m) :
    (Specifier.ofMatch? l.statement.text m).map (·.text) =
      (l.module?.map (·.text)).filter fun m => !m.isEmpty := by
  obtain ⟨w, trail, -, -, hattempt⟩ := l.statement.matchAt?_eq l.inner_ne_nil
  rw [hm, text_tail] at hattempt
  let k : Follow Part (Match Part) := fun back captures => some ⟨.start l.statement.text, back, captures⟩
  let caps : Captures Part :=
    [(.entries, ⟨l.statement.entriesStart, l.statement.entriesStart + Text.byteLength w⟩)]
  let c : Cursor := ⟨some '\x7d', l.statement.listStop, l.ending⟩
  have hattempt : some m = (Shape.fromClause.attempt c caps k).orElse fun _ => k c caps := hattempt
  have hnone : Shape.fromClause.attempt c caps k = none →
      (Specifier.ofMatch? l.statement.text m).map (·.text) = none := by
    intro hfrom
    rw [hfrom] at hattempt
    obtain rfl := Option.some.inj hattempt
    rfl
  cases hmodule : l.module? with
  | none =>
    have hending : l.ending = [';'] := by rw [ending, hmodule]; rfl
    refine hnone ?_
    show Shape.fromClause.attempt ⟨_, _, l.ending⟩ caps k = none
    rw [hending]
    exact Shape.fromClause_semicolon
  | some name =>
    have hending : l.ending = " from ".toList ++ '"' :: (name.text ++ "\";".toList) := by
      rw [ending, hmodule]
      simp
    by_cases hne : name.text = []
    · have hfilter : ((some name).map (·.text)).filter (fun m => !m.isEmpty) = none := by
        simp [hne]
      rw [hfilter]
      refine hnone ?_
      show Shape.fromClause.attempt ⟨_, _, l.ending⟩ caps k = none
      rw [hending, hne]
      exact Shape.fromClause_unnamed
    · have hfilter : ((some name).map (·.text)).filter (fun m => !m.isEmpty) = some name.text := by
        simp [hne]
      let s : PlainSpecifier := ⟨name.text, hne, name.plain, name.head, name.last⟩
      have hwritten : Shape.fromClause.attempt ⟨some '\x7d', l.statement.listStop,
          " from ".toList ++ '"' :: (s.text ++ "\";".toList)⟩ caps k = _ :=
        Shape.fromClause_written s fun _ _ => rfl
      rw [← hending] at hwritten
      have hm' := hattempt.trans (congrArg (Option.orElse · fun _ => k c caps) hwritten)
      obtain rfl := Option.some.inj hm'
      have hcovers : Span.Covers l.statement.text name.text ⟨l.statement.listStop + 7,
          l.statement.listStop + 7 + Text.byteLength name.text⟩ := by
        have hfrom : Text.byteLength " from \"".toList = 7 := rfl
        have hstart : l.statement.listStop + 7 = Text.byteLength ("export".toList ++
            (l.statement.spaces ++ '\x7b' :: (l.statement.inner ++ '\x7d' :: " from \"".toList))) := by
          have hexport : Text.byteLength "export".toList = 6 := rfl
          have hopen : ('\x7b').utf8Size = 1 := rfl
          have hclose : ('\x7d').utf8Size = 1 := rfl
          simp only [Text.byteLength_append, Text.byteLength_cons, ListStatement.listStop,
            ListStatement.entriesStart]
          omega
        refine ⟨_, "\";".toList, ?_, hstart, congrArg (· + Text.byteLength name.text) hstart⟩
        delta ListStatement.text
        rw [text_tail, hending]
        simp only [List.append_assoc, List.cons_append]
        rfl
      rw [hfilter]
      exact congrArg some hcovers.text_eq

end ExportLine

/-- **A written list is one export**: its names are the exported ones in order, it has a name of its
own exactly if there is one entry, it is a default export exactly if that name is `default`, and it
comes from the module that is named; an empty name names no module. -/
theorem ExportLine.exports_text (l : ExportLine) : ∃ r,
    Analyzer.standard.exports l.text = .ok [r] ∧ r.names = l.names ∧
      r.name = ExportRecord.only? l.names ∧ (r.name.isSome = true ↔ l.more = []) ∧
      r.specifier.map (·.text) = (l.module?.map (·.text)).filter (fun m => !m.isEmpty) ∧
      (r.kind, r.kindByForm) = if l.names = ["default".toList] then (.default, some .named)
        else (.named, none) := by
  obtain ⟨m, r, hm, hexports, hlists, hspecifier⟩ :=
    l.statement.exports_eq l.single_statement l.inner_ne_nil
  rw [l.text_statement] at hexports
  rw [l.listNames_inner] at hlists
  refine ⟨r, hexports, hlists.names, hlists.name, ?_, ?_, ?_⟩
  · rw [hlists.name, ExportLine.names]
    cases l.more <;> simp [ExportRecord.only?]
  · rw [hspecifier]
    exact l.specifier_of_matchAt? hm
  · rw [hlists.kind, hlists.kindByForm]
    simp only [ExportRecord.only?_eq_some_iff]
    split <;> rfl

/-- Not every export says which module is written behind it: one without a name is left out. -/
theorem ExportLine.exports_unnamed : ¬ ∀ (l : ExportLine) (r : ExportRecord),
    Analyzer.standard.exports l.text = .ok [r] →
      r.specifier.map (·.text) = l.module?.map (·.text) := by
  intro h
  let a : Identifier := ⟨['a'], by decide⟩
  let l : ExportLine :=
    ⟨⟨a, a⟩, [], some ⟨[], by rintro c ⟨⟩, by rintro c ⟨⟩, by rintro c ⟨⟩⟩, by decide⟩
  have htext : l.text = "export \x7b a \x7d from \"\";".toList := by decide
  have hexports : Analyzer.standard.exports "export \x7b a \x7d from \"\";".toList = .ok [
      { kind := .named, kindByForm := none, code := "export \x7b a \x7d".toList, span := ⟨0, 12⟩,
        name := some ['a'], names := [['a']], specifier := none, declaration := none,
        declarationType := none, defaultName := none }] := by
    repeat rw [String.toList_ofList]
    decide +kernel
  cases h l _ ((congrArg Analyzer.standard.exports htext).trans hexports)

end EsModules
