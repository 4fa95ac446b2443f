import EsModules.Declaration.Clause
import EsModules.Proofs.Text.Pieces
import EsModules.Proofs.Token.Barrier
import Mathlib.Data.List.Chain

/-!
# Written import declarations

What an import declaration binds and the module that it asks for, and the line that it is usually
written as.

* `Identifier`, `ImportEntry`, `EntryList`, `PlainSpecifier`: the parts, with what makes them valid.
* `ImportClause`, `ImportLine`: a declaration; `ImportLine.text` is its line.
* `Tidy`, `Calm`: what holds of the text of every clause.
-/

namespace EsModules

/-! ## Names -/

/-- The characters of a name: the letters and digits of ASCII, the underscore and the dollar
sign. -/
def isNameChar (c : Char) : Bool := Ascii.isWordChar c || c == '$'

/-- Whether a text is a name: it is not empty and does not start with a digit. -/
def isIdentifier (cs : List Char) : Bool :=
  cs.all isNameChar && cs.head?.any fun c => !Ascii.isDigit c

/-- A name. -/
structure Identifier where
  /-- Its text. -/
  text : List Char
  isIdentifier : isIdentifier text = true

theorem ne_of_isNameChar {c d : Char} (hc : isNameChar c = true) (hd : isNameChar d = false) :
    c ≠ d := by
  rintro rfl
  rw [hc] at hd
  cases hd

theorem bounds_of_isNameChar {c : Char} (h : isNameChar c = true) :
    0x24 ≤ c.toNat ∧ c.toNat ≤ 0x7A := by
  simp only [isNameChar, Ascii.isWordChar, Ascii.isAlphanumeric, Ascii.isLetter, Ascii.isDigit,
    Char.le_def, UInt32.le_iff_toNat_le, Bool.or_eq_true, Bool.and_eq_true, decide_eq_true_eq,
    beq_iff_eq] at h
  unfold Char.toNat
  rcases h with (((h | h) | h) | rfl) | rfl
  · change 97 ≤ c.val.toNat ∧ c.val.toNat ≤ 122 at h
    omega
  · change 65 ≤ c.val.toNat ∧ c.val.toNat ≤ 90 at h
    omega
  · change 48 ≤ c.val.toNat ∧ c.val.toNat ≤ 57 at h
    omega
  · decide
  · decide

theorem isBlank_of_isNameChar {c : Char} (h : isNameChar c = true) : Text.isBlank c = false := by
  have hbounds := bounds_of_isNameChar h
  simp only [Text.isBlank, Bool.or_eq_false_iff, Bool.and_eq_false_iff, decide_eq_false_iff_not,
    beq_eq_false_iff_ne]
  omega

theorem isSpace_of_isNameChar {c : Char} (h : isNameChar c = true) : Ascii.isSpace c = false := by
  refine Bool.eq_false_iff.2 fun hspace => ?_
  simp only [Ascii.isSpace, Ascii.isLineEnd, Bool.or_eq_true, beq_iff_eq] at hspace
  rcases hspace with (((rfl | rfl) | rfl) | rfl) | rfl | rfl <;> cases h

namespace Identifier

theorem text_ne_nil (i : Identifier) : i.text ≠ [] := by
  intro hnil
  have h := i.isIdentifier
  rw [hnil] at h
  cases h

theorem isNameChar_of_mem (i : Identifier) {c : Char} (hc : c ∈ i.text) : isNameChar c = true := by
  have h := i.isIdentifier
  simp only [EsModules.isIdentifier, Bool.and_eq_true, List.all_eq_true] at h
  exact h.1 c hc

/-- A character that is none of a name does not stand in one. -/
theorem not_mem (i : Identifier) {d : Char} (hd : isNameChar d = false) : d ∉ i.text :=
  fun h => ne_of_isNameChar (i.isNameChar_of_mem h) hd rfl

end Identifier

/-! ## Declarations -/

/-- An entry of a list: the name in the other module and the one in this module. -/
structure ImportEntry where
  /-- The name in the other module. -/
  imported : Identifier
  /-- The name in this module. -/
  localName : Identifier

/-- The text of an entry; a name that stays as it is, is written once. -/
def ImportEntry.text (e : ImportEntry) : List Char :=
  if e.imported.text = e.localName.text then e.imported.text
  else e.imported.text ++ " as ".toList ++ e.localName.text

/-- The entries of a list: each name is asked for once, and none is the word that marks types. -/
structure EntryList where
  /-- The entries in the order in which they are written. -/
  entries : List ImportEntry
  nodup : (entries.map fun e => e.imported.text).Nodup
  noType : ∀ e ∈ entries, e.imported.text ≠ "type".toList

/-- The entries of a list, each with the space in front of it. -/
def EntryList.pieces (l : EntryList) : List (List Char) := l.entries.map fun e => ' ' :: e.text

/-- What stands between the brackets of a list, up to the space in front of the second. -/
def EntryList.inner (l : EntryList) : List Char := Text.joinWith [','] l.pieces

/-- What a clause binds besides the default export. -/
inductive FurtherBinding
  /-- The whole module. -/
  | all (name : Identifier)
  /-- Some of its exports. -/
  | named (list : EntryList)

/-- The text of a further binding. -/
def FurtherBinding.text : FurtherBinding → List Char
  | .all name => "* as ".toList ++ name.text
  | .named list => '\x7b' :: list.inner ++ " \x7d".toList

/-- What a clause binds: the default export, something else, or both. -/
inductive ImportClause
  | default (name : Identifier)
  | further (binding : FurtherBinding)
  | both (name : Identifier) (binding : FurtherBinding)

namespace ImportClause

/-- The text of a clause. -/
def text : ImportClause → List Char
  | .default name => name.text
  | .further binding => binding.text
  | .both name binding => name.text ++ ", ".toList ++ binding.text

/-- The default binding, up to what is bound besides. -/
def front : ImportClause → List Char
  | .default name => name.text
  | .further _ => []
  | .both name _ => name.text ++ ", ".toList

/-- The name of the default binding. -/
def defaultName : ImportClause → Option (List Char)
  | .default name | .both name _ => some name.text
  | .further _ => none

/-- What is bound besides the default export. -/
def binding? : ImportClause → Option FurtherBinding
  | .default _ => none
  | .further binding | .both _ binding => some binding

/-- The name of the namespace binding. -/
def namespaceName (c : ImportClause) : Option (List Char) :=
  c.binding?.bind fun
    | .all name => some name.text
    | .named _ => none

/-- The names asked for, each with its local name. -/
def named (c : ImportClause) : List (List Char × List Char) :=
  match c.binding? with
  | some (.named list) => list.entries.map fun e => (e.imported.text, e.localName.text)
  | _ => []

theorem text_eq (c : ImportClause) :
    c.text = c.front ++ (c.binding?.map FurtherBinding.text).getD [] := by
  cases c with
  | default name => exact (List.append_nil _).symm
  | further binding => rfl
  | both name binding => rfl

end ImportClause

/-- The name of a module that is written between quotes as it is: it is not empty, has no quote, no
backslash and no line end in it, and no space around it. -/
structure PlainSpecifier where
  /-- Its text. -/
  text : List Char
  ne_nil : text ≠ []
  plain : ∀ c ∈ text, c ≠ '"' ∧ c ≠ '\'' ∧ c ≠ '\\' ∧ Ascii.isLineEnd c = false
  head : ∀ c ∈ text.head?, Ascii.isSpace c = false
  last : ∀ c ∈ text.getLast?, Ascii.isSpace c = false

/-- An import declaration. -/
structure ImportLine where
  /-- What it binds; a bare one binds nothing. -/
  clause : Option ImportClause
  /-- The module that it asks for. -/
  specifier : PlainSpecifier

namespace ImportLine

/-- What stands between the word in front and the quoted specifier. -/
def front (d : ImportLine) : List Char :=
  match d.clause with
  | none => []
  | some c => c.text ++ " from ".toList

/-- The line of a declaration. -/
def text (d : ImportLine) : List Char :=
  "import ".toList ++ d.front ++ ['"'] ++ d.specifier.text ++ "\";\n".toList

example :
    let a : Identifier := ⟨['a'], by decide⟩
    let b : Identifier := ⟨['b'], by decide⟩
    let list : EntryList := ⟨[⟨b, a⟩, ⟨a, a⟩], by decide, by decide⟩
    let name : PlainSpecifier := ⟨"from".toList, by decide,
      fun c hc => by simp at hc; rcases hc with rfl | rfl | rfl | rfl <;> decide,
      by rintro c ⟨⟩; decide, by rintro c ⟨⟩; decide⟩
    text ⟨some (.both b (.named list)), name⟩ =
      "import b, \x7b b as a, a \x7d from \"from\";\n".toList := by
  decide

/-- What stands behind the first word of a line. -/
def behind (d : ImportLine) (r : List Char) : List Char :=
  d.front ++ '"' :: (d.specifier.text ++ "\";\n".toList ++ r)

theorem text_append_eq (d : ImportLine) (r : List Char) :
    d.text ++ r = "import".toList ++ ([' '] ++ d.behind r) := by
  have happend : ∀ x y z w : List Char, x ++ y ++ ['"'] ++ z ++ w ++ r =
      x ++ (y ++ '"' :: (z ++ w ++ r)) := by simp
  exact happend "import ".toList d.front d.specifier.text "\";\n".toList

theorem byteLength_text (d : ImportLine) : Text.byteLength d.text =
    7 + Text.byteLength d.front + 1 + Text.byteLength d.specifier.text + 3 := by
  have himport : Text.byteLength "import ".toList = 7 := rfl
  have hquote : Text.byteLength ['"'] = 1 := rfl
  have hend : Text.byteLength "\";\n".toList = 3 := rfl
  unfold ImportLine.text
  simp only [Text.byteLength_append]
  omega

/-- The source that consists of some lines. -/
def source (ds : List ImportLine) : List Char := ds.flatMap text

end ImportLine

/-! ## Characters that stand nowhere -/

section NotMem

variable {d : Char} (hname : isNameChar d = false) (hspace : d ≠ ' ') (hcomma : d ≠ ',')
include hname hspace

theorem ImportEntry.not_mem (e : ImportEntry) : d ∉ e.text := by
  unfold text
  split
  · exact e.imported.not_mem hname
  · have hwords : d ∉ " as ".toList := by
      have ha : d ≠ 'a' := fun h => ne_of_isNameChar (c := 'a') (by decide) hname h.symm
      have hs : d ≠ 's' := fun h => ne_of_isNameChar (c := 's') (by decide) hname h.symm
      simp [hspace, ha, hs]
    simp only [List.mem_append, not_or]
    exact ⟨⟨e.imported.not_mem hname, hwords⟩, e.localName.not_mem hname⟩

include hcomma

theorem EntryList.not_mem (l : EntryList) : d ∉ l.inner := by
  unfold inner pieces
  induction l.entries with
  | nil => exact List.not_mem_nil
  | cons e es ih =>
    have hpiece : d ∉ ' ' :: e.text := by
      rw [List.mem_cons, not_or]
      exact ⟨hspace, e.not_mem hname hspace⟩
    cases es with
    | nil => exact hpiece
    | cons e' es =>
      show d ∉ ' ' :: e.text ++ [','] ++ _
      simp only [List.mem_append, not_or, List.mem_singleton]
      exact ⟨⟨hpiece, hcomma⟩, ih⟩

theorem ImportClause.not_mem_front (c : ImportClause) : d ∉ c.front := by
  have hwords : d ∉ ", ".toList := by simp [hspace, hcomma]
  cases c with
  | default name => exact name.not_mem hname
  | further binding => exact List.not_mem_nil
  | both name binding =>
    exact fun h => (List.mem_append.1 h).elim (name.not_mem hname) hwords

end NotMem

/-! ## The texts of clauses -/

/-- A text that starts and ends with something else than a space and has no two spaces in a row. -/
structure Tidy (cs : List Char) : Prop where
  ne_nil : cs ≠ []
  head : cs.head? ≠ some ' '
  last : cs.getLast? ≠ some ' '
  single : cs.IsChain fun a b => ¬ (a = ' ' ∧ b = ' ')

namespace Tidy

variable {x y : List Char}

/-- Of two texts in a row only the first must end with something else than a space. -/
theorem isChain_append (hx : Tidy x) (hy : y.IsChain fun a b => ¬ (a = ' ' ∧ b = ' ')) :
    (x ++ y).IsChain fun a b => ¬ (a = ' ' ∧ b = ' ') := by
  refine List.isChain_append.2 ⟨hx.single, hy, fun a ha b _ hab => hx.last ?_⟩
  rw [ha, hab.1]

theorem append (hx : Tidy x) (hy : Tidy y) : Tidy (x ++ y) where
  ne_nil h := hx.ne_nil (List.append_eq_nil_iff.1 h).1
  head := by
    rw [List.head?_append_of_ne_nil _ hx.ne_nil]
    exact hx.head
  last := by
    rw [List.getLast?_append_of_ne_nil _ hy.ne_nil]
    exact hy.last
  single := hx.isChain_append hy.single

theorem append_space (hx : Tidy x) (hy : Tidy y) : Tidy (x ++ ' ' :: y) where
  ne_nil h := hx.ne_nil (List.append_eq_nil_iff.1 h).1
  head := by
    rw [List.head?_append_of_ne_nil _ hx.ne_nil]
    exact hx.head
  last := by
    obtain ⟨a, y, rfl⟩ := List.exists_cons_of_ne_nil hy.ne_nil
    rw [List.getLast?_append_of_ne_nil _ (List.cons_ne_nil _ _), List.getLast?_cons_cons]
    exact hy.last
  single := by
    refine hx.isChain_append (List.isChain_cons.2 ⟨fun a ha hab => hy.head ?_, hy.single⟩)
    rw [ha, hab.2]

/-- A text without spaces. -/
theorem of_not_mem (hne : x ≠ []) (h : ' ' ∉ x) : Tidy x where
  ne_nil := hne
  head hhead := h (List.mem_of_mem_head? hhead)
  last hlast := h (List.mem_of_mem_getLast? hlast)
  single := by
    have hpairs : x.Pairwise fun a b => ¬ (a = ' ' ∧ b = ' ') :=
      List.pairwise_of_forall_mem_list fun a ha b _ hab => h (hab.1 ▸ ha)
    exact hpairs.isChain

end Tidy

theorem Identifier.tidy (i : Identifier) : Tidy i.text := .of_not_mem i.text_ne_nil (i.not_mem rfl)

theorem ImportEntry.tidy (e : ImportEntry) : Tidy e.text := by
  unfold text
  split
  · exact e.imported.tidy
  · have hword : Tidy "as".toList := .of_not_mem (by decide) (by decide)
    rw [List.append_assoc]
    exact e.imported.tidy.append_space (hword.append_space e.localName.tidy)

/-- Entries with a space in front of each can be put behind any text. -/
theorem Tidy.append_pieces {x : List Char} (hx : Tidy x) (es : List ImportEntry) :
    Tidy (x ++ Text.joinWith [','] (es.map fun e => ' ' :: e.text)) := by
  induction es generalizing x with
  | nil => exact (List.append_nil x).symm ▸ hx
  | cons e es ih =>
    have hentry := hx.append_space e.tidy
    cases es with
    | nil => exact hentry
    | cons e' es =>
      have hcomma : Tidy (x ++ ' ' :: e.text ++ [',']) :=
        hentry.append (.of_not_mem (by decide) (by decide))
      have hrest := ih hcomma
      simpa [Text.joinWith] using hrest

theorem FurtherBinding.tidy (b : FurtherBinding) : Tidy b.text := by
  cases b with
  | all name =>
    have hstar : Tidy "*".toList := .of_not_mem (by decide) (by decide)
    have hword : Tidy "as".toList := .of_not_mem (by decide) (by decide)
    exact hstar.append_space (hword.append_space name.tidy)
  | named list =>
    have hopen : Tidy "\x7b".toList := .of_not_mem (by decide) (by decide)
    have hclose : Tidy "\x7d".toList := .of_not_mem (by decide) (by decide)
    exact (hopen.append_pieces list.entries).append_space hclose

theorem ImportClause.tidy (c : ImportClause) : Tidy c.text := by
  cases c with
  | default name => exact name.tidy
  | further binding => exact binding.tidy
  | both name binding =>
    have hcomma : Tidy ",".toList := .of_not_mem (by decide) (by decide)
    have hfront : Tidy (name.text ++ ",".toList ++ ' ' :: binding.text) :=
      (name.tidy.append hcomma).append_space binding.tidy
    simpa [text] using hfront

/-- The characters that clauses are written with. -/
def isCalm (c : Char) : Bool := isNameChar c || " ,\x7b\x7d*".toList.contains c

theorem ne_of_isCalm {c d : Char} (hc : isCalm c = true) (hd : isCalm d = false) : c ≠ d := by
  rintro rfl
  rw [hc] at hd
  cases hd

/-- The only spaces of clauses are blanks. -/
theorem eq_of_isCalm_of_isSpace {c : Char} (hc : isCalm c = true) (hs : Ascii.isSpace c = true) :
    c = ' ' := by
  have hne := fun d hd => ne_of_isCalm (d := d) hc hd
  simp only [Ascii.isSpace, Ascii.isLineEnd, Bool.or_eq_true, beq_iff_eq] at hs
  rcases hs with (((rfl | rfl) | rfl) | rfl) | rfl | rfl
  · rfl
  all_goals exact absurd rfl (hne _ (by decide))

theorem isSpace_of_isCalm {c : Char} (hc : isCalm c = true) (hne : c ≠ ' ') : isSpace c = false := by
  have hascii : Ascii.isSpace c = false :=
    Bool.eq_false_iff.2 fun h => hne (eq_of_isCalm_of_isSpace hc h)
  have hunicode : isUnicodeSpace c = false := by
    rcases Bool.or_eq_true_iff.1 hc with h | h
    · have hbounds := bounds_of_isNameChar h
      simp only [isUnicodeSpace, Bool.or_eq_false_iff, Bool.and_eq_false_iff,
        decide_eq_false_iff_not, beq_eq_false_iff_ne]
      omega
    · have hall : " ,\x7b\x7d*".toList.all (fun d => !isUnicodeSpace d) = true := by decide
      exact (Bool.not_eq_true' _).mp (List.all_eq_true.1 hall c (List.elem_iff.1 h))
  rw [isSpace, hascii, hunicode]
  rfl

/-- A text in which only such characters stand. -/
def Calm (cs : List Char) : Prop := ∀ c ∈ cs, isCalm c = true

instance (cs : List Char) : Decidable (Calm cs) :=
  decidable_of_iff (cs.all isCalm = true) List.all_eq_true

theorem Calm.append {x y : List Char} (hx : Calm x) (hy : Calm y) : Calm (x ++ y) :=
  fun c hc => (List.mem_append.1 hc).elim (hx c) (hy c)

theorem Identifier.calm (i : Identifier) : Calm i.text :=
  fun _ hc => Bool.or_eq_true_iff.2 (.inl (i.isNameChar_of_mem hc))

theorem ImportEntry.calm (e : ImportEntry) : Calm e.text := by
  have hword : Calm " as ".toList := by decide
  unfold text
  split
  · exact e.imported.calm
  · exact (e.imported.calm.append hword).append e.localName.calm

theorem EntryList.calm (l : EntryList) : Calm l.inner := by
  unfold inner pieces
  induction l.entries with
  | nil => exact fun c hc => absurd hc List.not_mem_nil
  | cons e es ih =>
    have hspace : Calm [' '] := by decide
    have hcomma : Calm [','] := by decide
    have hpiece := hspace.append e.calm
    cases es with
    | nil => exact hpiece
    | cons e' es => exact (hpiece.append hcomma).append ih

theorem FurtherBinding.calm (b : FurtherBinding) : Calm b.text := by
  cases b with
  | all name =>
    have hwords : Calm "* as ".toList := by decide
    exact hwords.append name.calm
  | named list =>
    have hopen : Calm ['\x7b'] := by decide
    have hclose : Calm " \x7d".toList := by decide
    exact (hopen.append list.calm).append hclose

theorem ImportClause.calm (c : ImportClause) : Calm c.text := by
  cases c with
  | default name => exact name.calm
  | further binding => exact binding.calm
  | both name binding =>
    have hcomma : Calm ", ".toList := by decide
    exact (name.calm.append hcomma).append binding.calm

theorem ImportLine.calm_front (d : ImportLine) : Calm d.front := by
  have hword : Calm " from ".toList := by decide
  unfold front
  cases d.clause with
  | none => exact fun c hc => absurd hc List.not_mem_nil
  | some c => exact c.calm.append hword

end EsModules
