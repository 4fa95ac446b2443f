import EsModules.Proofs.Declaration.ListNames
import EsModules.Proofs.Declaration.Openings

/-!
# Exported lists as they are written

An `export` with a list in curly brackets, with whatever spaces and comments between its tokens,
is found as one export with the names that the text of its list gives.

* `ListGap`, `ListEntry`, `ListItem`, `ListTail`, `ListStatement`: the parts of a statement, with
  what makes them valid; `ListStatement.text` is its text.
* `Quiet`: a text that the lexer passes and in which no export starts.
* `ListStatement.lexemize_text`: the tokens of a statement.
* `ListStatement.exists_match`: what the shape of lists makes of a statement.
* `ListStatement.exports_eq`: the export that is found.
-/

namespace EsModules

open Pattern

/-! ## Statements -/

/-- The characters that a list can have: neither a closing bracket nor a quote. -/
def isListChar : Char → Bool := isNoneOf "\x7d\"'\x60"

/-- The spaces and comments at one place of a list. -/
structure ListGap where
  /-- The spaces and comments in order. -/
  fillers : List Filler
  listed : ∀ c ∈ Filler.texts fillers, isListChar c = true

namespace ListGap

/-- The text of a gap. -/
def text (g : ListGap) : List Char := Filler.texts g.fillers

instance : Append ListGap where
  append g h := ⟨g.fillers ++ h.fillers, fun c hc =>
    (List.mem_append.1 (Filler.texts_append _ _ ▸ hc)).elim (g.listed c) (h.listed c)⟩

theorem text_append (g h : ListGap) : (g ++ h).text = g.text ++ h.text := Filler.texts_append _ _

theorem fillers_append (g h : ListGap) : (g ++ h).fillers = g.fillers ++ h.fillers := rfl

/-- No space and no comment. -/
def none : ListGap := ⟨[], fun _ hc => absurd hc List.not_mem_nil⟩

end ListGap

/-- The spaces and comments between two words: there is at least one. -/
structure Separator extends ListGap where
  ne_nil : fillers ≠ []

/-- The other name under which an entry is exported. -/
structure Alias where
  /-- What stands in front of the word `as`. -/
  front : Separator
  /-- What stands behind it. -/
  behind : Separator
  /-- The name. -/
  name : Word

/-- The text of another name, with the word in front of it. -/
def Alias.text (a : Alias) : List Char :=
  a.front.text ++ ("as".toList ++ (a.behind.text ++ a.name.text))

/-- An entry of a list. -/
structure ListEntry where
  /-- What stands in front of it. -/
  lead : ListGap
  /-- What stands behind the word that marks it as a type, if it is marked. -/
  mark? : Option Separator
  /-- The name in this module. -/
  localName : Word
  /-- The other name under which it is exported, if there is one. -/
  alias? : Option Alias
  /-- What stands behind it. -/
  trail : ListGap

namespace ListEntry

/-- The mark of a type. -/
def markText (e : ListEntry) : List Char := (e.mark?.map fun g => "type".toList ++ g.text).getD []

/-- The word in front of another name and that name. -/
def aliasText (e : ListEntry) : List Char := (e.alias?.map Alias.text).getD []

/-- What stands between the first word and the last. -/
def core (e : ListEntry) : List Char := e.markText ++ (e.localName.text ++ e.aliasText)

/-- The text between two commas. -/
def text (e : ListEntry) : List Char := e.lead.text ++ (e.core ++ e.trail.text)

/-- The names. -/
def words (e : ListEntry) : List Word := e.localName :: (e.alias?.map Alias.name).toList

/-- All spaces and comments. -/
def fillers (e : ListEntry) : List Filler :=
  e.lead.fillers ++ ((e.mark?.map fun g => g.fillers).getD [] ++
    ((e.alias?.map fun a => a.front.fillers ++ a.behind.fillers).getD [] ++ e.trail.fillers))

end ListEntry

/-- What stands between two commas of a list: an entry, or no entry. -/
inductive ListItem
  | entry (e : ListEntry)
  | blank (g : ListGap)

namespace ListItem

/-- The text of an item. -/
def text : ListItem → List Char
  | entry e => e.text
  | blank g => g.text

/-- The names of an item. -/
def words : ListItem → List Word
  | entry e => e.words
  | blank _ => []

/-- The spaces and comments of an item. -/
def fillers : ListItem → List Filler
  | entry e => e.fillers
  | blank g => g.fillers

end ListItem

/-- The other module that a list is passed on from: a name between two quotes of one kind, without
that quote, backslashes and line ends. -/
structure PassedFrom where
  /-- What stands in front of the word `from`. -/
  front : List Filler
  /-- What stands behind it. -/
  behind : List Filler
  /-- The quote. -/
  quote : Char
  /-- The name. -/
  specifier : List Char
  isQuote : quote = '"' ∨ quote = '\''
  plain : ∀ c ∈ specifier, c ≠ quote ∧ c ≠ '\\' ∧ Ascii.isLineEnd c = false

/-- The text of the other module. -/
def PassedFrom.text (p : PassedFrom) : List Char :=
  Filler.texts p.front ++ ("from".toList ++ (Filler.texts p.behind ++
    (p.quote :: (p.specifier ++ [p.quote]))))

/-- What stands behind the closing bracket of a list. -/
structure ListTail where
  /-- The other module, if there is one. -/
  from? : Option PassedFrom
  /-- What stands behind it. -/
  finish : List Filler
  /-- Whether a semicolon ends the statement. -/
  semicolon : Bool
  /-- What stands behind the statement. -/
  final : List Filler

/-- The text of a tail. -/
def ListTail.text (t : ListTail) : List Char :=
  (t.from?.map PassedFrom.text).getD [] ++ (Filler.texts t.finish ++
    ((if t.semicolon then [';'] else []) ++ Filler.texts t.final))

/-- An `export` with a list. -/
structure ListStatement where
  /-- The spaces behind the first word. -/
  spaces : List Char
  /-- The items of the list. -/
  first : ListItem
  /-- The items behind the first. -/
  more : List ListItem
  /-- What stands behind the list. -/
  tail : ListTail
  isSpace_spaces : ∀ c ∈ spaces, Ascii.isSpace c = true

namespace ListStatement

/-- All items. -/
def items (s : ListStatement) : List ListItem := s.first :: s.more

/-- What stands between the brackets. -/
def inner (s : ListStatement) : List Char := Text.joinWith [','] (s.items.map ListItem.text)

/-- The text of a statement. -/
def text (s : ListStatement) : List Char :=
  "export".toList ++ (s.spaces ++ ('\x7b' :: (s.inner ++ '\x7d' :: s.tail.text)))

end ListStatement

/-! ## Ends of words -/

variable {s : List Char}

theorem isWordPart_of_isSpace {c : Char} (h : isSpace c = true) : isWordPart c = false := by
  refine Bool.eq_false_iff.2 fun hpart => ?_
  rw [isSpace_of_isWordPart hpart] at h
  cases h

/-- A space, a comment or a mark other than an opening bracket ends a word. -/
theorem endsWord_of_head (h : ∀ c ∈ s.head?, isSpace c = true ∨ c ∈ ['/', ',', '\x7d', ';', '"', '\'']) :
    EndsWord s := by
  intro c hc
  rcases h c hc with hspace | hmark
  · refine ⟨isWordPart_of_isSpace hspace, ?_, ?_⟩ <;>
    · rintro rfl
      cases hspace
  · have hall : ∀ d ∈ ['/', ',', '\x7d', ';', '"', '\''],
        isWordPart d = false ∧ d ≠ '\\' ∧ d ≠ '\x7b' := Text.forall_mem_of_all (by decide)
    exact hall c hmark

theorem endsWord_fillers {fs : List Filler} (hne : fs ≠ []) (s : List Char) :
    EndsWord (Filler.texts fs ++ s) := by
  refine endsWord_of_head fun c hc => (Filler.head?_texts hne s c hc).imp_right ?_
  rintro rfl
  decide

theorem EndsWord.fillers (hs : EndsWord s) (fs : List Filler) : EndsWord (Filler.texts fs ++ s) := by
  cases fs with
  | nil => exact hs
  | cons f fs => exact endsWord_fillers (List.cons_ne_nil f fs) s

/-! ## What may stand behind `export` in a list -/

/-- Behind the spaces at the front of a text nothing stands that an export goes on with. -/
def Settled (s : List Char) : Prop :=
  ¬ StartsWithOne Shape.openings (s.dropWhile Ascii.isSpace)

theorem Settled.not_opens (h : Settled s) : ¬ Opens Shape.openings s := fun hopens => h hopens.starts

/-- The characters that an export can go on with. -/
def openingChars : List Char := "\x7b*dafclev".toList

theorem mem_openingChars {c : Char} {s : List Char} (h : StartsWithOne Shape.openings (c :: s)) :
    c ∈ openingChars := by
  obtain ⟨w, hw, rest, hrest⟩ := h
  have hall : ∀ w ∈ Shape.openings, w.toList.head?.any (fun d => openingChars.contains d) = true := by
    decide
  obtain ⟨d, hd, hmem⟩ := (Option.any_eq_true _ _).1 (hall w hw)
  obtain ⟨r, hr⟩ := List.head?_eq_some_iff.1 hd
  rw [hr] at hrest
  obtain rfl := (List.cons.inj hrest).1
  exact List.elem_iff.1 hmem

theorem settled_of_head {c : Char} (hspace : Ascii.isSpace c = false) (h : c ∉ openingChars)
    (s : List Char) : Settled (c :: s) := by
  intro hstarts
  rw [List.dropWhile_cons_of_neg (by simp [hspace])] at hstarts
  exact h (mem_openingChars hstarts)

theorem Settled.filler (hs : Settled s) (f : Filler) : Settled (f.text ++ s) := by
  cases f with
  | space c hspace =>
    cases hascii : Ascii.isSpace c with
    | true =>
      have hdrop : (c :: s).dropWhile Ascii.isSpace = s.dropWhile Ascii.isSpace :=
        List.dropWhile_cons_of_pos hascii
      intro hstarts
      exact hs (hdrop ▸ hstarts)
    | false =>
      refine settled_of_head hascii (fun hmem => ?_) s
      have hall : ∀ d ∈ openingChars, isSpace d = false := Text.forall_mem_of_all (by decide)
      rw [hall c hmem] at hspace
      cases hspace
  | line | block => exact settled_of_head (by decide) (by decide) _

theorem Settled.fillers (hs : Settled s) (fs : List Filler) : Settled (Filler.texts fs ++ s) := by
  induction fs with
  | nil => exact hs
  | cons f fs ih =>
    rw [Filler.texts_cons, List.append_assoc]
    exact ih.filler f

/-- The word in front of another name is none of the openings. -/
theorem settled_as (hs : EndsWord s) : Settled ("as".toList ++ s) := by
  intro hstarts
  obtain ⟨w, hw, hprefix⟩ := hstarts
  have hprefix : w.toList <+: 'a' :: 's' :: s := hprefix
  have hall : ∀ w ∈ Shape.openings, w.toList.head? = some 'a' → w.toList[2]? = some 'y' := by decide
  have hne : ∀ w ∈ Shape.openings, w.toList ≠ [] := by decide
  obtain ⟨rest, hrest⟩ := hprefix
  have hthird := hall w hw (by
    rw [← List.head?_append_of_ne_nil _ (hne w hw), hrest]
    rfl)
  have hhead : s.head? = some 'y' := by
    have hget : (w.toList ++ rest)[2]? = w.toList[2]? :=
      List.getElem?_append_left (List.getElem?_eq_some_iff.1 hthird).1
    rw [hrest, hthird] at hget
    cases s with
    | nil => cases hget
    | cons c s => exact hget
  exact absurd (hs 'y' hhead).1 (by decide)

/-! ## Quiet texts -/

/-- In front of another text a text is passed, with a token for `export` only if something holds,
and, given something else, no export starts in it. -/
structure Quiet (Q R : Prop) (u s : List Char) : Prop where
  passes : Lexer.Passes Q u s
  shut : R → Shut u s

namespace Quiet

variable {Q R : Prop} {u v : List Char}

theorem nil : Quiet Q R [] s := ⟨Lexer.passes_nil, fun _ => shut_nil⟩

theorem append (h : Quiet Q R u (v ++ s)) (h' : Quiet Q R v s) : Quiet Q R (u ++ v) s :=
  ⟨h.passes.append h'.passes, fun hR => (h.shut hR).append (h'.shut hR)⟩

/-- Behind spaces and comments, of which none holds `export` if one of the conditions is met. -/
theorem fillers {fs : List Filler}
    (h : R → ∀ f ∈ fs, f.isComment = true → ¬ "export".toList <:+: f.text) :
    Quiet Q R (Filler.texts fs) s := by
  refine ⟨Lexer.passes_fillers fs, fun hR => ?_⟩
  have hfs := h hR
  clear h
  induction fs with
  | nil => exact shut_nil
  | cons f fs ih =>
    obtain ⟨hf, hfs⟩ := List.forall_mem_cons.1 hfs
    refine Shut.append ?_ (ih hfs)
    cases f with
    | space c hspace =>
      refine shut_of_ne ?_
      rintro rfl
      cases hspace
    | line body ending hbody hending =>
      refine shut_of_notInfix ?_ (hf rfl)
      intro hmem
      have hall : ∀ d ∈ "export".toList, Ascii.isLineEnd d = false :=
        Text.forall_mem_of_all (by decide)
      rw [hall _ hmem] at hending
      cases hending
    | block body hclosed =>
      have hlast : Filler.text (.block body hclosed) = ("/*".toList ++ body ++ ['*']) ++ ['/'] := by
        simp [Filler.text]
      have hnot := hf rfl
      rw [hlast] at hnot ⊢
      exact shut_of_notInfix (by decide) hnot

theorem word (w : Word) (hs : EndsWord s) (hQ : w.text = "export".toList → Q)
    (hend : "export".toList <:+ w.text → Settled s) : Quiet Q R w.text s :=
  ⟨(Lexer.passes_word w hs).mono hQ,
    fun _ => shut_of_parts w.parts (fun c hc => (hs c hc).1) fun hsuffix => (hend hsuffix).not_opens⟩

theorem spaces {sp : List Char} (h : ∀ c ∈ sp, Ascii.isSpace c = true) : Quiet Q R sp s := by
  induction sp with
  | nil => exact nil
  | cons c sp ih =>
    obtain ⟨hc, hsp⟩ := List.forall_mem_cons.1 h
    have hspace : isSpace c = true := by simp [isSpace, hc]
    have hone : Quiet Q R [c] (sp ++ s) := by
      refine ⟨Lexer.passes_filler (.space c hspace), fun _ => shut_of_ne ?_⟩
      rintro rfl
      cases hc
    exact hone.append (ih hsp)

theorem openBrace : Quiet Q R ['\x7b'] s :=
  ⟨Lexer.passes_openBrace, fun _ => shut_of_ne (by decide)⟩

theorem comma : Quiet Q R [','] s := ⟨Lexer.passes_comma, fun _ => shut_of_ne (by decide)⟩

end Quiet

/-! ## Quiet lists -/

/-- The words of a list that are no names. -/
def typeWord : Word :=
  ⟨"type".toList, by decide, Text.forall_mem_of_all (by decide), Text.forall_mem_of_all (by decide)⟩

@[inherit_doc typeWord]
def asWord : Word :=
  ⟨"as".toList, by decide, Text.forall_mem_of_all (by decide), Text.forall_mem_of_all (by decide)⟩

/-- None of some spaces and comments is a comment that holds `export`. -/
def Unexported (fs : List Filler) : Prop :=
  ∀ f ∈ fs, f.isComment = true → ¬ "export".toList <:+: f.text

theorem Unexported.of_subset {fs gs : List Filler} (h : Unexported fs) (hgs : gs ⊆ fs) :
    Unexported gs := fun f hf => h f (hgs hf)

section Lists

variable {Q R : Prop}

theorem Alias.endsWord (a : Alias) (s : List Char) : EndsWord (a.text ++ s) := by
  unfold text
  rw [List.append_assoc]
  exact endsWord_fillers a.front.ne_nil _

theorem Alias.settled (a : Alias) (s : List Char) : Settled (a.text ++ s) := by
  unfold text
  rw [List.append_assoc]
  refine Settled.fillers ?_ a.front.fillers
  rw [List.append_assoc, List.append_assoc]
  exact settled_as (endsWord_fillers a.behind.ne_nil _)

theorem Alias.quiet (a : Alias) (hs : EndsWord s) (hset : Settled s)
    (hQ : a.name.text = "export".toList → Q)
    (hR : R → Unexported (a.front.fillers ++ a.behind.fillers)) : Quiet Q R a.text s := by
  have hfront : ∀ s, Quiet Q R a.front.text s :=
    fun s => .fillers fun h => (hR h).of_subset (List.subset_append_left _ _)
  have hbehind : ∀ s, Quiet Q R a.behind.text s :=
    fun s => .fillers fun h => (hR h).of_subset (List.subset_append_right _ _)
  have hname : Quiet Q R a.name.text s := .word a.name hs hQ fun _ => hset
  have has : Quiet Q R "as".toList ((a.behind.text ++ a.name.text) ++ s) := by
    refine .word asWord ?_ (fun h => absurd h (by decide)) fun h => absurd h (by decide)
    rw [List.append_assoc]
    exact endsWord_fillers a.behind.ne_nil _
  exact (hfront _).append (has.append ((hbehind _).append hname))

namespace ListEntry

variable (e : ListEntry)

/-- What stands behind the name in this module ends it. -/
theorem endsWord_aliasText (hs : EndsWord s) : EndsWord (e.aliasText ++ s) := by
  unfold aliasText
  cases e.alias? with
  | none => exact hs
  | some a => exact a.endsWord s

theorem settled_aliasText (hs : Settled s) : Settled (e.aliasText ++ s) := by
  unfold aliasText
  cases e.alias? with
  | none => exact hs
  | some a => exact a.settled s

theorem quiet_aliasText (hs : EndsWord s) (hset : Settled s)
    (hQ : ∀ w ∈ e.words, w.text = "export".toList → Q) (hR : R → Unexported e.fillers) :
    Quiet Q R e.aliasText s := by
  unfold aliasText
  cases ha : e.alias? with
  | none => exact .nil
  | some a =>
    refine a.quiet hs hset (hQ a.name (by simp [words, ha])) fun h => (hR h).of_subset ?_
    rw [fillers, ha]
    exact List.subset_append_of_subset_right _ (List.subset_append_of_subset_right _
      (List.subset_append_left _ _))

theorem quiet_markText (s : List Char) (hR : R → Unexported e.fillers) :
    Quiet Q R e.markText s := by
  unfold markText
  cases hm : e.mark? with
  | none => exact .nil
  | some g =>
    have hgap : Quiet Q R g.text s := .fillers fun h => (hR h).of_subset (by simp [fillers, hm])
    have hword : Quiet Q R "type".toList (g.text ++ s) :=
      .word typeWord (endsWord_fillers g.ne_nil s) (fun h => absurd h (by decide))
        fun h => absurd h (by decide)
    exact hword.append hgap

/-- An entry in front of the end of an item is quiet. -/
theorem quiet (hs : EndsWord s) (hset : Settled s)
    (hQ : ∀ w ∈ e.words, w.text = "export".toList → Q) (hR : R → Unexported e.fillers) :
    Quiet Q R e.text s := by
  have hlead : ∀ s, Quiet Q R e.lead.text s :=
    fun s => .fillers fun h => (hR h).of_subset (by simp [fillers])
  have htrail : Quiet Q R e.trail.text s :=
    .fillers fun h => (hR h).of_subset fun f hf => by simp [fillers, hf]
  have hs' : EndsWord (e.trail.text ++ s) := hs.fillers _
  have hset' : Settled (e.trail.text ++ s) := hset.fillers _
  have hname : Quiet Q R e.localName.text (e.aliasText ++ (e.trail.text ++ s)) :=
    .word e.localName (e.endsWord_aliasText hs') (hQ e.localName (by simp [words]))
      fun _ => e.settled_aliasText hset'
  have hcore : Quiet Q R e.core (e.trail.text ++ s) :=
    (e.quiet_markText _ hR).append (hname.append (e.quiet_aliasText hs' hset' hQ hR))
  exact (hlead _).append (hcore.append htrail)

end ListEntry

theorem ListItem.quiet (i : ListItem) (hs : EndsWord s) (hset : Settled s)
    (hQ : ∀ w ∈ i.words, w.text = "export".toList → Q) (hR : R → Unexported i.fillers) :
    Quiet Q R i.text s := by
  cases i with
  | entry e => exact e.quiet hs hset hQ hR
  | blank g => exact .fillers hR

/-- Items with commas between them are quiet in front of the closing bracket. -/
theorem quiet_items (i : ListItem) (is : List ListItem) (hs : EndsWord s) (hset : Settled s)
    (hQ : ∀ i' ∈ i :: is, ∀ w ∈ i'.words, w.text = "export".toList → Q)
    (hR : R → ∀ i' ∈ i :: is, Unexported i'.fillers) :
    Quiet Q R (Text.joinWith [','] ((i :: is).map ListItem.text)) s := by
  induction is generalizing i with
  | nil =>
    exact i.quiet hs hset (hQ i List.mem_cons_self) fun h => hR h i List.mem_cons_self
  | cons i' is ih =>
    have hrest := ih i' (fun j hj => hQ j (List.mem_cons_of_mem i hj))
      fun h j hj => hR h j (List.mem_cons_of_mem i hj)
    have hcomma : ∀ r, EndsWord (',' :: r) ∧ Settled (',' :: r) := fun r =>
      ⟨endsWord_of_head (by rintro c ⟨⟩; decide), settled_of_head (by decide) (by decide) r⟩
    have hitem : ∀ r, Quiet Q R i.text (',' :: r) := fun r =>
      i.quiet (hcomma r).1 (hcomma r).2 (hQ i List.mem_cons_self) fun h => hR h i List.mem_cons_self
    exact ((hitem _).append .comma).append hrest

end Lists

/-! ## The tokens of a statement -/

/-- The word in front of the other module. -/
def fromWord : Word :=
  ⟨"from".toList, by decide, Text.forall_mem_of_all (by decide), Text.forall_mem_of_all (by decide)⟩

theorem PassedFrom.passes (p : PassedFrom) (s : List Char) : Lexer.Passes False p.text s := by
  have hquote : ∀ r, EndsWord (p.quote :: r) := by
    intro r
    refine endsWord_of_head ?_
    rintro c ⟨⟩
    rcases p.isQuote with h | h <;> rw [h] <;> decide
  have hword : Lexer.Passes False "from".toList ((Filler.texts p.behind ++
      (p.quote :: (p.specifier ++ [p.quote]))) ++ s) := by
    refine (Lexer.passes_word fromWord ?_).mono fun h => absurd h (by decide)
    rw [List.append_assoc]
    exact (hquote _).fillers p.behind
  exact (Lexer.passes_fillers _).append (hword.append ((Lexer.passes_fillers _).append
    (Lexer.passes_string p.isQuote p.plain)))

/-- What stands behind a list is passed, and `export` is none of its tokens. -/
theorem ListTail.passes (t : ListTail) : Lexer.Passes False t.text [] := by
  have hfrom : ∀ s, Lexer.Passes False ((t.from?.map PassedFrom.text).getD []) s := by
    intro s
    cases t.from? with
    | none => exact Lexer.passes_nil
    | some p => exact p.passes s
  have hend : ∀ s, Lexer.Passes False (if t.semicolon then [';'] else []) s := by
    intro s
    cases t.semicolon with
    | false => exact Lexer.passes_nil
    | true => exact Lexer.passes_semicolon
  exact (hfrom _).append ((Lexer.passes_fillers _).append ((hend _).append
    (Lexer.passes_fillers _)))

namespace ListStatement

variable {Q R : Prop} (d : ListStatement)

/-- What stands between the first word and the closing bracket. -/
def opening (d : ListStatement) : List Char := d.spaces ++ (['\x7b'] ++ d.inner)

theorem text_eq : d.text = "export".toList ++ (d.opening ++ '\x7d' :: d.tail.text) := by
  delta text opening
  rw [List.append_assoc d.spaces, List.append_assoc ['\x7b'], List.singleton_append]

/-- The list of a statement is quiet in front of its closing bracket. -/
theorem quiet_opening (hQ : ∀ i ∈ d.items, ∀ w ∈ i.words, w.text = "export".toList → Q)
    (hR : R → ∀ i ∈ d.items, Unexported i.fillers) :
    Quiet Q R d.opening ('\x7d' :: d.tail.text) := by
  have hinner : Quiet Q R d.inner ('\x7d' :: d.tail.text) :=
    quiet_items d.first d.more (endsWord_of_head (by rintro c ⟨⟩; decide))
      (settled_of_head (by decide) (by decide) _) hQ hR
  exact (Quiet.spaces d.isSpace_spaces).append (Quiet.openBrace.append hinner)

/-- Behind the first word stands a space or a bracket. -/
theorem head?_opening (s : List Char) : ∀ c ∈ (d.opening ++ s).head?,
    isWordPart c = false ∧ c ≠ '\\' := by
  unfold opening
  intro c hc
  cases hsp : d.spaces with
  | nil =>
    rw [hsp] at hc
    obtain rfl := Option.some.inj hc
    decide
  | cons b sp =>
    rw [hsp] at hc
    obtain rfl := Option.some.inj hc
    have hspace := d.isSpace_spaces b (by rw [hsp]; exact List.mem_cons_self)
    refine ⟨isWordPart_of_isSpace (by simp [isSpace, hspace]), ?_⟩
    rintro rfl
    cases hspace

/-- **The tokens of a statement**: the first word, those of the list, the closing bracket and those
behind it.  Only names give further tokens for `export`. -/
theorem lexemize_text (hQ : ∀ i ∈ d.items, ∀ w ∈ i.words, w.text = "export".toList → Q) :
    ∃ ts ts' cs closing, lexemize d.text =
        .ok (⟨.keyword .exportKw, ⟨0, 6⟩⟩ :: (ts ++ closing :: ts'), cs) ∧
      closing.span.start = Text.byteLength ("export".toList ++ d.opening) ∧
      (∀ t ∈ ts, t.kind = .keyword .exportKw → Q) ∧
      ∀ t ∈ closing :: ts', t.kind ≠ .keyword .exportKw := by
  have hstart : Lexer.start d.text = ⟨d.text, 0, 0, true, false, [], []⟩ := rfl
  have hfront : (Lexer.start d.text).InFront
      ("export".toList ++ (d.opening ++ '\x7d' :: d.tail.text)) :=
    ⟨d.text_eq, rfl, List.not_mem_nil⟩
  have hnext := Lexer.step_export (l := Lexer.start d.text) rfl (d.head?_opening _) hfront
  let l₁ : Lexer := ((Lexer.start d.text).advance ⟨"export".toList,
    d.opening ++ '\x7d' :: d.tail.text, 0⟩).after (.keyword .exportKw)
  have hfront₁ : l₁.InFront (d.opening ++ '\x7d' :: d.tail.text) := ⟨rfl, rfl, List.not_mem_nil⟩
  have hlimit₁ : l₁.limit = (Lexer.start d.text).limit :=
    Lexer.limit_advance (x := ⟨"export".toList, d.opening ++ '\x7d' :: d.tail.text, 0⟩)
      d.text_eq.symm rfl
  obtain ⟨ts, l₂, hleads, hfront₂, hlimit₂, hwords⟩ :=
    (d.quiet_opening (R := False) hQ False.elim).passes l₁ hfront₁
  obtain ⟨l₃, hclosing, hfront₃, hlimit₃⟩ := Lexer.step_closeBrace hfront₂
  obtain ⟨ts', l₄, hleads', hfront₄, -, hwords'⟩ := d.tail.passes l₃ (by
    rw [List.append_nil]
    exact hfront₃)
  have hend : l₄.AtEnd := ⟨hfront₄.rest, hfront₄.owed, hfront₄.braces⟩
  have hall := (((Lexer.leads_of_step hnext (by simp)).trans hleads).trans
    (Lexer.leads_of_step hclosing (by simp))).trans hleads'
  refine ⟨ts, ts', l₄.commentPlaces, ⟨.punct .rBrace, ⟨l₂.pos, l₂.pos + 1⟩⟩, ?_, ?_, hwords, ?_⟩
  · rw [lexemize, hall, hend.lexemes_eq]
    simp [Except.map]
    rfl
  · have hsize : Text.byteLength d.text = Text.byteLength ("export".toList ++ d.opening) +
        Text.byteLength ('\x7d' :: d.tail.text) := by
      rw [text_eq, ← List.append_assoc, Text.byteLength_append]
    have hlimit : l₂.limit = Text.byteLength d.text := by
      rw [hlimit₂, hlimit₁, hstart]
      simp [Lexer.limit]
    simp only [Lexer.limit, hfront₂.rest, hfront₂.owed] at hlimit
    show l₂.pos = _
    omega
  · rintro t ht hk
    rcases List.mem_cons.1 ht with rfl | ht
    · cases hk
    · exact hwords' t ht hk

/-- No second `export` has a place in a list: no name is that word, or no comment holds it. -/
def Single (d : ListStatement) : Prop :=
  (∀ i ∈ d.items, ∀ w ∈ i.words, w.text ≠ "export".toList) ∨ ∀ i ∈ d.items, Unexported i.fillers

/-- No export starts behind the first word and in front of the closing bracket. -/
theorem shut_front (hR : ∀ i ∈ d.items, Unexported i.fillers) :
    Shut ("xport".toList ++ d.opening) ('\x7d' :: d.tail.text) := by
  have hword : Shut "xport".toList (d.opening ++ '\x7d' :: d.tail.text) :=
    shut_of_parts (Text.forall_mem_of_all (by decide)) (fun c hc => (d.head?_opening _ c hc).1)
      fun h => absurd h (by decide)
  have hquiet := d.quiet_opening (Q := True) (R := True) (fun _ _ _ _ _ => trivial) fun _ => hR
  exact hword.append (hquiet.shut trivial)

/-- An export that starts behind the front of a statement starts behind all its words `export`. -/
theorem start_lt_of_opensAt {ts : List Token} {closing : Token} {range : Span}
    (hR : ∀ i ∈ d.items, Unexported i.fillers) (hopens : OpensAt d.text Shape.openings range)
    (hbehind : range.start ≠ 0)
    (hclosing : closing.span.start = Text.byteLength ("export".toList ++ d.opening))
    (hordered : ∀ t ∈ ts, t.span.start < closing.span.start) :
    ∀ t ∈ ts, t.span.start < range.start := by
  intro t ht
  have hlt := hordered t ht
  obtain ⟨a, b, hs, hstart, hopens⟩ := hopens
  cases a with
  | nil => exact absurd hstart hbehind
  | cons c a =>
    have htext : 'e' :: ("xport".toList ++ (d.opening ++ '\x7d' :: d.tail.text)) =
        c :: (a ++ ("export".toList ++ b)) := d.text_eq.symm.trans hs
    obtain ⟨rfl, hrest⟩ := List.cons.inj htext
    have hs' : ("xport".toList ++ d.opening) ++ '\x7d' :: d.tail.text =
        a ++ ("export".toList ++ b) := (List.append_assoc _ _ _).trans hrest
    have hlong : ("xport".toList ++ d.opening).length ≤ a.length :=
      Nat.le_of_not_lt fun hshort => d.shut_front hR a b hs' hshort hopens
    obtain ⟨m, rfl⟩ := List.prefix_of_prefix_length_le ⟨_, rfl⟩ ⟨_, hs'.symm⟩ hlong
    have hsize : Text.byteLength ('e' :: ("xport".toList ++ d.opening ++ m)) =
        Text.byteLength ("export".toList ++ d.opening) + Text.byteLength m :=
      Text.byteLength_append ("export".toList ++ d.opening) m
    omega

/-- The only place at which an export starts that is kept is the front. -/
theorem start_of_keepsRange (hsingle : d.Single) :
    ∃ tokens comments, tokenize d.text = .ok (tokens, comments) ∧
      (∀ range : Span, range.start = 0 → 6 ≤ range.stop →
        keepsRange tokens .exportKw range = true) ∧
      ∀ range, OpensAt d.text Shape.openings range → keepsRange tokens .exportKw range = true →
        range.start = 0 := by
  let Q := ∃ i ∈ d.items, ∃ w ∈ i.words, w.text = "export".toList
  obtain ⟨ts, ts', comments, closing, hlexemes, hclosing, hwords, hbehind⟩ :=
    d.lexemize_text (Q := Q) fun i hi w hw hexport => ⟨i, hi, w, hw, hexport⟩
  refine ⟨_, _, tokenize_eq_ok.2 ⟨_, comments, hlexemes, rfl, rfl⟩,
    fun range hstart hstop => keepsRange_of_first (by decide) hstart hstop,
    fun range hopens hkept => ?_⟩
  by_contra hzero
  refine absurd hkept (ne_true_of_eq_false (keepsRange_of_forall_lt fun t' ht' hk => ?_))
  obtain ⟨t, ht, rfl⟩ := List.mem_map.1 ht'
  refine Nat.lt_of_le_of_lt t.span.start_wrapped_le ?_
  rcases List.mem_cons.1 ht with rfl | ht
  · exact Nat.pos_of_ne_zero hzero
  rcases List.mem_append.1 ht with ht | ht
  · -- a name in the list is the word, so no comment holds it
    obtain ⟨i, hi, w, hw, hexport⟩ := hwords t ht hk
    have hR : ∀ i ∈ d.items, Unexported i.fillers :=
      hsingle.resolve_left fun h => h i hi w hw hexport
    obtain ⟨hne, hordered⟩ := ordered_of_lexemize hlexemes
    refine d.start_lt_of_opensAt hR hopens hzero hclosing (fun t ht => ?_) t ht
    have hstop : t.span.stop ≤ closing.span.start :=
      (List.pairwise_append.1 (List.pairwise_cons.1 hordered).2).2.2 t ht closing
        List.mem_cons_self
    have hlt := hne t (List.mem_cons_of_mem _ (List.mem_append_left _ ht))
    omega
  · exact absurd hk (hbehind t ht)

end ListStatement

end EsModules
