import EsModules.Proofs.Declaration.FurtherDeclarators
import EsModules.Proofs.Declaration.Openings
import EsModules.Proofs.Token.Slices

/-!
# Written declarations of variables

The line that variables are usually exported with, and the names that are read off it.  Commas within
the values are mistaken for those between the declarators unless no word follows them, and of a name
behind a comma only the characters in front of the first dollar sign are read.

* `balanced`: values in which every bracket has its partner and all commas stand within brackets.
* `Declarator`, `VariableLine`: a line; `VariableLine.text` is its text.
* `Shape.matchAt?_const`: what the shape of declarations finds in a line.
* `VariableLine.found`: the names that are read behind the first one.
* `VariableLine.exports_declared`: the export of a line, and when its names are those that it declares.
-/

namespace EsModules

open Pattern

/-! ## Brackets -/

/-- The bracket that closes another. -/
def closing? (c : Char) : Option Char := if c = '(' then some ')' else groupEnd? c

/-- The closing brackets. -/
def closings : List Char := [')', ']', '\x7d']

/-- In a text on one line every bracket has its partner and all commas stand within brackets, when
the given ones are still to be closed. -/
def balanced : List Char → List Char → Bool
  | stack, [] => stack.isEmpty
  | stack, c :: r =>
    match closing? c with
    | some d => balanced (d :: stack) r
    | none =>
      if closings.contains c then stack.head? == some c && balanced stack.tail r
      else c != '\n' && (c != ',' || !stack.isEmpty) && balanced stack r

variable {stack x : List Char}

theorem mem_closings {c d : Char} (h : closing? c = some d) : d ∈ closings := by
  unfold closing? at h
  split at h
  · obtain rfl := Option.some.inj h
    decide
  · rcases cases_of_groupEnd? h with ⟨-, rfl⟩ | ⟨-, rfl⟩ <;> decide

/-- What is still to be closed is closed. -/
theorem mem_of_balanced (h : balanced stack x = true) : ∀ d ∈ stack, d ∈ x := by
  induction x generalizing stack with
  | nil =>
    have hnil : stack = [] := List.isEmpty_iff.1 h
    rw [hnil]
    exact fun d hd => absurd hd List.not_mem_nil
  | cons c r ih =>
    intro d hd
    unfold balanced at h
    split at h
    · exact List.mem_cons_of_mem c (ih h d (List.mem_cons_of_mem _ hd))
    · split at h
      · obtain ⟨hc, hr⟩ := Bool.and_eq_true_iff.1 h
        cases stack with
        | nil => cases hd
        | cons d' stack =>
          obtain rfl : d' = c := Option.some.inj (eq_of_beq hc)
          rcases List.mem_cons.1 hd with rfl | hd
          · exact List.mem_cons_self
          · exact List.mem_cons_of_mem _ (ih hr d hd)
      · exact List.mem_cons_of_mem c (ih (Bool.and_eq_true_iff.1 h).2 d hd)

theorem Sealed.cons {c : Char} {r : List Char} (hgroup : ∀ d, groupEnd? c = some d → d ∈ r)
    (hcomma : c = ',' → ∃ s ∈ r, Ascii.isSpace s = false ∧ Ascii.isWordChar s = false)
    (hr : Sealed r) : Sealed (c :: r) := by
  intro a c' b h
  cases a with
  | nil =>
    obtain ⟨rfl, rfl⟩ := List.cons.inj h
    exact ⟨hgroup, hcomma⟩
  | cons a as => exact hr as c' b (List.cons.inj h).2

/-- Balanced texts are sealed and have no line end. -/
theorem sealed_of_balanced (h : balanced stack x = true) (hstack : ∀ d ∈ stack, d ∈ closings) :
    Sealed x ∧ ∀ c ∈ x, isInLine c = true := by
  induction x generalizing stack with
  | nil => exact ⟨fun a c b hab => by simp at hab, fun c hc => absurd hc List.not_mem_nil⟩
  | cons c r ih =>
    unfold balanced at h
    split at h
    · rename_i d hd
      obtain ⟨hsealed, hline⟩ := ih h (List.forall_mem_cons.2 ⟨mem_closings hd, hstack⟩)
      refine ⟨hsealed.cons (fun d' hd' => ?_) ?_, List.forall_mem_cons.2 ⟨?_, hline⟩⟩
      · have heq : closing? c = some d' := by
          rcases cases_of_groupEnd? hd' with ⟨rfl, rfl⟩ | ⟨rfl, rfl⟩ <;> rfl
        obtain rfl := Option.some.inj (hd.symm.trans heq)
        exact mem_of_balanced h d List.mem_cons_self
      · rintro rfl
        cases hd
      · refine bne_iff_ne.2 ?_
        rintro rfl
        cases hd
    · rename_i hnone
      have hgroup : ∀ d, groupEnd? c ≠ some d := by
        intro d hd
        unfold closing? at hnone
        split at hnone
        · cases hnone
        · rw [hd] at hnone
          cases hnone
      split at h
      · rename_i hc
        obtain ⟨-, hr⟩ := Bool.and_eq_true_iff.1 h
        obtain ⟨hsealed, hline⟩ := ih hr fun d hd => hstack d (List.mem_of_mem_tail hd)
        have hcloses : c ∈ closings := by simpa using hc
        refine ⟨hsealed.cons (fun d hd => absurd hd (hgroup d)) ?_,
          List.forall_mem_cons.2 ⟨?_, hline⟩⟩
        · rintro rfl
          exact absurd hcloses (by decide)
        · exact List.all_eq_true.1 (show closings.all isInLine = true by decide) c hcloses
      · simp only [Bool.and_eq_true, Bool.or_eq_true, bne_iff_ne, Bool.not_eq_true',
          List.isEmpty_eq_false_iff] at h
        obtain ⟨⟨hline, hwithin⟩, hr⟩ := h
        obtain ⟨hsealed, hlines⟩ := ih hr hstack
        refine ⟨hsealed.cons (fun d hd => absurd hd (hgroup d)) fun hcomma => ?_,
          List.forall_mem_cons.2 ⟨bne_iff_ne.2 hline, hlines⟩⟩
        -- the bracket that the comma stands in is closed behind it
        obtain ⟨d, hd⟩ := List.exists_mem_of_ne_nil _ (hwithin.resolve_left (not_not_intro hcomma))
        refine ⟨d, mem_of_balanced hr d hd, ?_⟩
        have hall : ∀ d ∈ closings, Ascii.isSpace d = false ∧ Ascii.isWordChar d = false :=
          Text.forall_mem_of_all (by decide)
        exact hall d (hstack d hd)

/-! ## The shape of declarations -/

namespace Shape

variable {β : Type} {before : Option Char} {pos : Nat} {caps : Captures Part} {k : Follow Part β}
  {rest : List Char}

/-- The declaring word in front of a name is `const`, and not a longer one that the name goes on. -/
theorem attempt_valueWords (n : Identifier) (y : List Char)
    (hk : (k ⟨some 't', pos + 5, ' ' :: (n.text ++ ' ' :: '=' :: y)⟩ caps).isSome = true)
    (henum : ∀ before pos m, n.text = "enum".toList ++ m →
      k ⟨before, pos, m ++ ' ' :: '=' :: y⟩ caps = none) :
    valueWords.attempt ⟨before, pos, "const".toList ++ ' ' :: (n.text ++ ' ' :: '=' :: y)⟩ caps k =
      k ⟨some 't', pos + 5, ' ' :: (n.text ++ ' ' :: '=' :: y)⟩ caps := by
  let c : Cursor := ⟨before, pos, "const".toList ++ ' ' :: (n.text ++ ' ' :: '=' :: y)⟩
  have hother : ∀ a text (k : Follow Part β), a ≠ 'c' → (literal (a :: text)).attempt c caps k = none :=
    fun a text k ha => attempt_literal_ne fun h => ha (Option.some.inj h).symm
  let behind : Follow Part β := (spaces : Pattern Part).followedBy
    ((orNothing (char (· == '*'))).followedBy k)
  have hasync : (functionWords "async function").attempt c caps k = none :=
    hother 'a' "sync function".toList behind (by decide)
  have hfunction : (functionWords "function").attempt c caps k = none :=
    hother 'f' "unction".toList behind (by decide)
  have hlet : (word "let").attempt c caps k = none := hother 'l' "et".toList _ (by decide)
  have hconstEnum : (word "const enum").attempt c caps k = none := by
    refine attempt_eq_none fun c' caps' hmatch => ?_
    obtain ⟨before', pos', r⟩ := c'
    obtain ⟨hrest, -, rfl⟩ := hmatch.of_literal
    have hsplit : n.text ++ ' ' :: '=' :: y = "enum".toList ++ r :=
      (List.append_cancel_left_eq "const ".toList _ _).mp hrest
    rcases List.append_eq_append_iff.1 hsplit with ⟨m, hm, hm'⟩ | ⟨m, hm, rfl⟩
    · cases m with
      | nil =>
        rw [← show ' ' :: '=' :: y = r from hm']
        exact henum _ _ [] (by rw [hm, List.append_nil, List.append_nil])
      | cons d m =>
        obtain ⟨rfl, -⟩ := List.cons.inj hm'
        have hspace : ' ' ∈ "enum".toList := by
          rw [hm]
          simp
        exact absurd hspace (by decide)
    · exact henum _ _ m hm
  have hconst : (word "const").attempt c caps k =
      k ⟨some 't', pos + 5, ' ' :: (n.text ++ ' ' :: '=' :: y)⟩ caps := attempt_literal "const".toList _
  let others : Option β := (oneWord ["enum", "var", "class"]).attempt c caps k
  show ((functionWords "async function").attempt c caps k).orElse (fun _ =>
    ((functionWords "function").attempt c caps k).orElse fun _ =>
      ((word "let").attempt c caps k).orElse fun _ =>
        ((word "const enum").attempt c caps k).orElse fun _ =>
          ((word "const").attempt c caps k).orElse fun _ => others) = _
  rw [hasync, hfunction, hlet, hconstEnum, hconst]
  exact orElse_eq_left (.inr hk)

/-- A name is taken up to the space behind it. -/
theorem attempt_name (n : Identifier) (y : List Char) (hk : Succeeds k) :
    (capture .name identifier).attempt ⟨before, pos, n.text ++ ' ' :: y⟩ caps k =
      k (.past before pos n.text (' ' :: y))
        ((.name, ⟨pos, pos + Text.byteLength n.text⟩) :: caps) := by
  obtain ⟨a, t, hat⟩ := List.exists_cons_of_ne_nil n.text_ne_nil
  have hchar : ∀ c ∈ a :: t, isIdentifierChar c = true := by
    intro c hc
    have hname := n.isNameChar_of_mem (hat ▸ hc)
    simp only [isNameChar, Bool.or_eq_true] at hname
    simp only [isIdentifierChar, Bool.or_eq_true]
    exact .inl hname.symm
  obtain ⟨ha, ht⟩ := List.forall_mem_cons.1 hchar
  let ending : Follow Part β := fun c caps => k c ((.name, ⟨pos, c.pos⟩) :: caps)
  have hrun : (run isIdentifierChar).attempt ⟨some a, pos + a.utf8Size, t ++ ' ' :: y⟩ caps ending =
      ending (.past (some a) (pos + a.utf8Size) t (' ' :: y)) caps :=
    attempt_run ht (by rintro c ⟨⟩; rfl) (hk _ _)
  have hplace : (Cursor.past (some a) (pos + a.utf8Size) t (' ' :: y)).pos =
      pos + Text.byteLength (a :: t) := by
    rw [Text.byteLength_cons, ← Nat.add_assoc]
    rfl
  rw [hat, Cursor.past_cons, ← hplace]
  exact (if_pos ha).trans hrun

/-- In front of an equals sign stands no name. -/
theorem attempt_name_none {y : List Char} :
    (orNothing (char (· == '*')) ++ capture .name identifier : Pattern Part).attempt
      ⟨before, pos, '=' :: y⟩ caps k = none := rfl

/-- **What the shape of declarations finds in a line**: the first name, and what it takes for the
declarators behind it. -/
theorem matchAt?_const (n : Identifier) {x y : List Char} (hsplit : x = ' ' :: '=' :: y)
    (hline : ∀ c ∈ x, isInLine c = true) :
    ∃ m, exportDeclaration.matchAt? (.start ("export const ".toList ++ (n.text ++ x))) = some m ∧
      13 ≤ m.span.stop ∧ m.part? .name = some ⟨13, 13 + Text.byteLength n.text⟩ ∧
      m.part? .declaration = some ⟨7, 12⟩ ∧
      m.part? .extra = if reach x = [] then none
        else some ⟨13 + Text.byteLength n.text,
          13 + Text.byteLength n.text + Text.byteLength (reach x)⟩ := by
  subst hsplit
  let x := ' ' :: '=' :: y
  let source := "export const ".toList ++ (n.text ++ x)
  let found : Follow Part (Match Part) := fun back captures => some ⟨.start source, back, captures⟩
  let extra : Follow Part (Match Part) := fun c caps =>
    (many true (capture .extra furtherDeclarator)).attempt c caps found
  let name : Follow Part (Match Part) := fun c caps => (capture .name identifier).attempt c caps extra
  let star : Follow Part (Match Part) := fun c caps =>
    (orNothing (char (· == '*'))).attempt c caps name
  let space : Follow Part (Match Part) := fun c caps => spaces1.attempt c caps star
  let words : Follow Part (Match Part) := fun c caps =>
    (capture .declaration valueWords).attempt c caps space
  let caps : Captures Part := [(.declaration, ⟨7, 12⟩)]
  let caps' : Captures Part := (.name, ⟨13, 13 + Text.byteLength n.text⟩) :: caps
  obtain ⟨a, t, hat⟩ := List.exists_cons_of_ne_nil n.text_ne_nil
  have hname : ∀ c, isNameChar c = true → Ascii.isSpace c = false ∧ c ≠ '*' := fun c hc =>
    ⟨isSpace_of_isNameChar hc, ne_of_isNameChar hc rfl⟩
  have ha := hname a (n.isNameChar_of_mem (hat ▸ List.mem_cons_self))
  have hsucceeds : Succeeds extra := fun c caps => isSome_attempt_of_matches .manyDone rfl
  have hfound : name ⟨some ' ', 13, n.text ++ x⟩ caps =
      extra (.past (some ' ') 13 n.text x) caps' := attempt_name n ('=' :: y) hsucceeds
  have hstar : star ⟨some ' ', 13, n.text ++ x⟩ caps = name ⟨some ' ', 13, n.text ++ x⟩ caps := by
    have hnone : (char (· == '*') : Pattern Part).attempt ⟨some ' ', 13, n.text ++ x⟩ caps name =
        none := by
      rw [hat]
      exact attempt_char_neg (by exact beq_false_of_ne ha.2) _
    exact congrArg (Option.orElse · fun _ => name ⟨some ' ', 13, n.text ++ x⟩ caps) hnone
  have hspace : space ⟨some 't', 12, ' ' :: (n.text ++ x)⟩ caps =
      star ⟨some ' ', 13, n.text ++ x⟩ caps := by
    refine attempt_spaces1 fun c hc => ?_
    rw [hat] at hc
    obtain rfl := Option.some.inj hc
    exact ha.1
  have hdeclared := hspace.trans (hstar.trans hfound)
  have hwords : words ⟨some ' ', 7, "const".toList ++ ' ' :: (n.text ++ x)⟩ [] =
      space ⟨some 't', 12, ' ' :: (n.text ++ x)⟩ caps := by
    refine attempt_valueWords (k := fun c' caps => space c' ((.declaration, ⟨7, c'.pos⟩) :: caps))
      n y ((congrArg Option.isSome hdeclared).trans (hsucceeds _ _)) fun before pos m hm => ?_
    cases m with
    | nil => exact (attempt_spaces1 (by rintro c ⟨⟩; rfl)).trans attempt_name_none
    | cons d m =>
      have hd := hname d (n.isNameChar_of_mem (by rw [hm]; simp))
      exact attempt_char_neg (k := (run Ascii.isSpace).followedBy star) hd.1 _
  have hmatch : exportDeclaration.matchAt? (.start source) =
      extra (.past (some ' ') 13 n.text x) caps' :=
    (attempt_exportFront (k := spaces1.followedBy words)).trans
      ((attempt_spaces1 (by rintro c ⟨⟩; rfl)).trans (hwords.trans hdeclared))
  obtain ⟨r, hx, hr⟩ := exists_reach x
  rw [hmatch, show extra (.past (some ' ') 13 n.text x) caps' = _ from
    attempt_extra hline hx hr fun _ _ => rfl]
  have hlong : 13 ≤ (Cursor.past (some ' ') 13 n.text x).pos := Nat.le_add_right 13 _
  split
  · exact ⟨_, rfl, hlong, rfl, rfl, rfl⟩
  · exact ⟨_, rfl, Nat.le_trans hlong (Nat.le_add_right _ _), rfl, rfl, rfl⟩

/-- A name is not taken apart. -/
theorem matchAt?_destructured (n : Identifier) (y : List Char) :
    exportDestructured.matchAt? (.start ("export const ".toList ++ (n.text ++ y))) = none := by
  obtain ⟨a, t, hat⟩ := List.exists_cons_of_ne_nil n.text_ne_nil
  have ha := n.isNameChar_of_mem (hat ▸ List.mem_cons_self)
  let k : Follow Part (Match Part) := fun back captures =>
    some ⟨.start ("export const ".toList ++ (n.text ++ y)), back, captures⟩
  let equals : Follow Part (Match Part) := spaces1.followedBy ((char (· == '=')).followedBy k)
  let names : Follow Part (Match Part) :=
    (alt (bracketed '\x7b' '\x7d') (bracketed '[' ']')).followedBy equals
  let space : Follow Part (Match Part) := spaces1.followedBy names
  let words : Follow Part (Match Part) := (oneWord ["let", "var", "const"]).followedBy space
  have hbracketed : ∀ opening closing, a ≠ opening →
      (bracketed opening closing).attempt ⟨some ' ', 13, a :: (t ++ y)⟩ [] equals = none :=
    fun opening closing hne => if_neg (show ¬ (a == opening) = true by simpa using hne)
  have hnames : names ⟨some ' ', 13, n.text ++ y⟩ [] = none := by
    rw [hat]
    exact congrArg₂ (Option.orElse · fun _ => ·)
      (hbracketed '\x7b' '\x7d' (ne_of_isNameChar ha rfl))
      (hbracketed '[' ']' (ne_of_isNameChar ha rfl))
  have hspace : space ⟨some 't', 12, ' ' :: (n.text ++ y)⟩ [] = none := by
    refine (attempt_spaces1 fun c hc => ?_).trans hnames
    rw [hat] at hc
    obtain rfl := Option.some.inj hc
    exact isSpace_of_isNameChar ha
  have hwords : words ⟨some ' ', 7, "const".toList ++ ' ' :: (n.text ++ y)⟩ [] = none := by
    have hother : ∀ b text (k : Follow Part (Match Part)), b ≠ 'c' → (literal (b :: text)).attempt
        ⟨some ' ', 7, "const".toList ++ ' ' :: (n.text ++ y)⟩ [] k = none :=
      fun b text k hb => attempt_literal_ne fun h => hb (Option.some.inj h).symm
    have hlet := hother 'l' "et".toList space (by decide)
    have hvar := hother 'v' "ar".toList space (by decide)
    have hconst : (word "const").attempt ⟨some ' ', 7, "const".toList ++ ' ' :: (n.text ++ y)⟩ [] space =
        none := (attempt_literal "const".toList _).trans hspace
    exact congrArg₂ (Option.orElse · fun _ => ·) hlet
      (congrArg₂ (Option.orElse · fun _ => ·) hvar hconst)
  exact (attempt_exportFront (k := spaces1.followedBy words)).trans
    ((attempt_spaces1 (by rintro c ⟨⟩; rfl)).trans hwords)

end Shape

/-! ## Lines -/

/-- A value on one line in which every bracket has its partner and all commas stand within brackets.
No export starts in it: where the word `export` stands, it goes on otherwise. -/
structure Initializer where
  /-- Its text. -/
  text : List Char
  isBalanced : balanced [] text = true
  shut : Shut text []

/-- A name with its value. -/
structure Declarator where
  /-- The name. -/
  name : Identifier
  /-- The value. -/
  value : Initializer

/-- An exported declaration of variables; the first one is not called as the default export is. -/
structure VariableLine where
  /-- The first declarator. -/
  first : Declarator
  /-- The declarators behind the first. -/
  more : List Declarator
  named : first.name.text ≠ "default".toList

/-- The text of a declarator. -/
def Declarator.text (d : Declarator) : List Char := d.name.text ++ " = ".toList ++ d.value.text

namespace VariableLine

/-- The line of a declaration. -/
def text (l : VariableLine) : List Char :=
  "export const ".toList ++ Text.joinWith ", ".toList ((l.first :: l.more).map Declarator.text) ++ [';']

/-- The declared names. -/
def names (l : VariableLine) : List (List Char) := (l.first :: l.more).map fun d => d.name.text

/-- What stands behind a value. -/
def behind : List Declarator → List Char
  | [] => [';']
  | d :: ds => ',' :: ' ' :: (d.name.text ++ ' ' :: '=' :: ' ' :: (d.value.text ++ behind ds))

/-- What stands behind the first name. -/
def tail (l : VariableLine) : List Char := ' ' :: '=' :: ' ' :: (l.first.value.text ++ behind l.more)

theorem joinWith_text (d : Declarator) (ds : List Declarator) :
    Text.joinWith ", ".toList ((d :: ds).map Declarator.text) ++ [';'] =
      d.name.text ++ ' ' :: '=' :: ' ' :: (d.value.text ++ behind ds) := by
  induction ds generalizing d with
  | nil => simp [Text.joinWith, Declarator.text, behind]
  | cons d' ds ih =>
    calc Text.joinWith ", ".toList ((d :: d' :: ds).map Declarator.text) ++ [';']
      _ = d.text ++ ", ".toList ++
          (Text.joinWith ", ".toList ((d' :: ds).map Declarator.text) ++ [';']) :=
        List.append_assoc _ _ _
      _ = d.text ++ ", ".toList ++
          (d'.name.text ++ ' ' :: '=' :: ' ' :: (d'.value.text ++ behind ds)) := by rw [ih d']
      _ = _ := by simp [Declarator.text, behind]

theorem text_eq (l : VariableLine) :
    l.text = "export const ".toList ++ (l.first.name.text ++ l.tail) :=
  (List.append_assoc _ _ _).trans
    (congrArg ("export const ".toList ++ ·) (joinWith_text l.first l.more))

/-! ### What stands in a line -/

theorem forall_mem_behind {test : Char → Bool} (hname : ∀ c, isNameChar c = true → test c = true)
    (hmarks : ∀ c ∈ [',', ' ', '=', ';'], test c = true) {ds : List Declarator}
    (hvalue : ∀ d ∈ ds, ∀ c ∈ d.value.text, test c = true) : ∀ c ∈ behind ds, test c = true := by
  induction ds with
  | nil => exact List.forall_mem_singleton.2 (hmarks ';' (by decide))
  | cons d ds ih =>
    obtain ⟨hd, hds⟩ := List.forall_mem_cons.1 hvalue
    intro c hc
    simp only [behind, List.mem_cons, List.mem_append] at hc
    rcases hc with rfl | rfl | hc | rfl | rfl | rfl | hc | hc
    · exact hmarks ',' (by decide)
    · exact hmarks ' ' (by decide)
    · exact hname c (d.name.isNameChar_of_mem hc)
    · exact hmarks ' ' (by decide)
    · exact hmarks '=' (by decide)
    · exact hmarks ' ' (by decide)
    · exact hd c hc
    · exact ih hds c hc

end VariableLine

theorem Initializer.sealed (v : Initializer) : Sealed v.text :=
  (sealed_of_balanced v.isBalanced fun _ hd => absurd hd List.not_mem_nil).1

theorem Initializer.isInLine_of_mem (v : Initializer) : ∀ c ∈ v.text, isInLine c = true :=
  (sealed_of_balanced v.isBalanced fun _ hd => absurd hd List.not_mem_nil).2

namespace VariableLine

/-- A line has no line end. -/
theorem isInLine_tail (l : VariableLine) : ∀ c ∈ l.tail, isInLine c = true := by
  have hbehind := @forall_mem_behind isInLine
    (fun c hc => bne_iff_ne.2 (ne_of_isNameChar hc rfl)) (Text.forall_mem_of_all (by decide)) l.more
    fun d (_ : d ∈ l.more) => d.value.isInLine_of_mem
  intro c hc
  simp only [tail, List.mem_cons, List.mem_append] at hc
  rcases hc with rfl | rfl | rfl | hc | hc
  · rfl
  · rfl
  · rfl
  · exact l.first.value.isInLine_of_mem c hc
  · exact hbehind c hc

/-- Every opening brace has a closing one behind it. -/
def Closes (x : List Char) : Prop := ∀ a b, x = a ++ '\x7b' :: b → '\x7d' ∈ b

theorem closes_of_not_mem (h : '\x7b' ∉ x) : Closes x := by
  rintro a b rfl
  exact absurd (List.mem_append_right a List.mem_cons_self) h

theorem Closes.append {y : List Char} (hx : Closes x) (hy : Closes y) : Closes (x ++ y) := by
  intro a b h
  rcases List.append_eq_append_iff.1 h with ⟨m, -, hm⟩ | ⟨m, hm, hm'⟩
  · exact hy m b hm
  · cases m with
    | nil => exact hy [] b hm'.symm
    | cons c m =>
      obtain ⟨rfl, rfl⟩ := List.cons.inj hm'
      exact List.mem_append_left y (hx a m hm)

theorem closes_value (v : Initializer) : Closes v.text := fun a b h => (v.sealed a '\x7b' b h).1 _ rfl

theorem closes_name (n : Identifier) : Closes n.text := closes_of_not_mem (n.not_mem rfl)

theorem closes_behind (ds : List Declarator) : Closes (behind ds) := by
  induction ds with
  | nil => exact closes_of_not_mem (by decide)
  | cons d ds ih =>
    have hequals : Closes " = ".toList := closes_of_not_mem (by decide)
    have hcomma : Closes ", ".toList := closes_of_not_mem (by decide)
    exact hcomma.append ((closes_name d.name).append (hequals.append ((closes_value d.value).append ih)))

theorem tokenize_ne_overrun (l : VariableLine) : tokenize l.text ≠ .error .overrun := by
  have hfront : Closes "export const ".toList := closes_of_not_mem (by decide)
  have hequals : Closes " = ".toList := closes_of_not_mem (by decide)
  have htext : Closes l.text := l.text_eq ▸ hfront.append ((closes_name l.first.name).append
    (hequals.append ((closes_value l.first.value).append (closes_behind l.more))))
  exact EsModules.tokenize_ne_overrun htext

/-! ### Where exports start -/

/-- No export starts in a name and the equals sign behind it. -/
theorem shut_name (n : Identifier) (s : List Char) : Shut (n.text ++ " = ".toList) s := by
  have hname : Shut n.text (" = ".toList ++ s) := by
    refine shut_of_parts n.word.parts (fun c hc => ?_) fun _ hopens => ?_
    · obtain rfl := Option.some.inj hc
      decide
    · obtain ⟨w, hw, r, hr⟩ := hopens.starts
      rw [show (" = ".toList ++ s).dropWhile Ascii.isSpace = '=' :: ' ' :: s from rfl] at hr
      have hhead : ∀ w ∈ Shape.openings, w.toList.head?.any (· != '=') = true := by decide
      have hw := hhead w hw
      cases htext : w.toList with
      | nil => simp [htext] at hw
      | cons c t =>
        rw [htext] at hw hr
        obtain ⟨rfl, -⟩ := List.cons.inj hr
        simp at hw
  exact hname.append (shut_of_notInfix (u := " =".toList) (d := ' ') (by decide) (by decide))

theorem head?_behind (ds : List Declarator) : ∃ c s, behind ds = c :: s ∧ (c = ',' ∨ c = ';') := by
  cases ds with
  | nil => exact ⟨';', [], rfl, .inr rfl⟩
  | cons d ds => exact ⟨',', _, rfl, .inl rfl⟩

theorem shut_value (v : Initializer) (ds : List Declarator) : Shut v.text (behind ds) := by
  obtain ⟨c, s, hcs, hc⟩ := head?_behind ds
  exact hcs ▸ v.shut.followed hc

theorem shut_behind (ds : List Declarator) : Shut (behind ds) [] := by
  induction ds with
  | nil => exact shut_of_ne (by decide)
  | cons d ds ih =>
    have hcomma : Shut ", ".toList ((d.name.text ++ " = ".toList) ++ (d.value.text ++ behind ds) ++ []) :=
      shut_of_notInfix (u := [',']) (d := ' ') (by decide) (by decide)
    have hvalue : Shut (d.value.text ++ behind ds) [] :=
      Shut.append (by rw [List.append_nil]; exact shut_value d.value ds) ih
    have hall := hcomma.append ((shut_name d.name _).append hvalue)
    have htext : ", ".toList ++ ((d.name.text ++ " = ".toList) ++ (d.value.text ++ behind ds)) =
        behind (d :: ds) := by simp [behind]
    rwa [htext] at hall

theorem shut_text (l : VariableLine) :
    Shut ("xport const ".toList ++ (l.first.name.text ++ l.tail)) [] := by
  have htail : l.first.name.text ++ l.tail = (l.first.name.text ++ " = ".toList) ++
      (l.first.value.text ++ behind l.more) := by simp [tail]
  have hconst : Shut "xport const ".toList ((l.first.name.text ++ l.tail) ++ []) :=
    shut_of_notInfix (u := "xport const".toList) (d := ' ') (by decide) (by decide +kernel)
  have hvalue : Shut (l.first.value.text ++ behind l.more) [] :=
    Shut.append (by rw [List.append_nil]; exact shut_value l.first.value l.more)
      (shut_behind l.more)
  exact hconst.append (htail ▸ (shut_name l.first.name _).append hvalue)

/-- Exports start at the front of a line only. -/
theorem start_of_opensAt (l : VariableLine) {range : Span}
    (h : OpensAt l.text Shape.openings range) : range.start = 0 := by
  have hsplit : l.text = "export".toList ++ (" const ".toList ++ (l.first.name.text ++ l.tail)) :=
    l.text_eq
  rw [hsplit] at h
  exact h.start_eq_zero l.shut_text

/-! ### Names -/

/-- What is read of a name behind a comma: what stands in front of its first dollar sign. -/
def readName (n : List Char) : List (List Char) :=
  if n.takeWhile Ascii.isWordChar = [] then [] else [n.takeWhile Ascii.isWordChar]

/-- The names that are read behind a value and in front of the end of a line. -/
def found : List Char → List Declarator → List (List Char)
  | v, [] => commaNames (reach v)
  | v, d :: ds => commaNames v ++ (readName d.name.text ++ found d.value.text ds)

/-- A name behind a comma. -/
theorem commaNames_name (n : Identifier) {y : List Char}
    (hy : ∀ c ∈ y.head?, Ascii.isWordChar c = false) :
    commaNames (',' :: ' ' :: (n.text ++ y)) = readName n.text ++ commaNames y := by
  have hplain : ∀ c, isNameChar c = true → groupEnd? c = none ∧ c ≠ ',' := by
    intro c hc
    refine ⟨?_, ne_of_isNameChar hc rfl⟩
    unfold groupEnd?
    rw [if_neg (ne_of_isNameChar hc rfl), if_neg (ne_of_isNameChar hc rfl)]
  have hdrop : (' ' :: (n.text ++ y)).dropWhile Ascii.isSpace = n.text ++ y := by
    obtain ⟨c, t, hct⟩ := List.exists_cons_of_ne_nil n.text_ne_nil
    have hc := n.isNameChar_of_mem (hct ▸ List.mem_cons_self)
    rw [List.dropWhile_cons_of_pos rfl, hct, List.cons_append, List.dropWhile_cons_of_neg]
    simp [isSpace_of_isNameChar hc]
  obtain ⟨w, v, hwv, hw, hv⟩ : ∃ w v, n.text = w ++ v ∧ (∀ c ∈ w, Ascii.isWordChar c = true) ∧
      ∀ c ∈ v.head?, Ascii.isWordChar c = false :=
    ⟨_, _, List.takeWhile_append_dropWhile.symm, fun c hc => List.mem_takeWhile_imp hc,
      head?_dropWhile⟩
  have hstop : ∀ {z : List Char}, (∀ c ∈ z.head?, Ascii.isWordChar c = false) →
      (w ++ z).takeWhile Ascii.isWordChar = w ∧ (w ++ z).dropWhile Ascii.isWordChar = z := by
    intro z hz
    exact ⟨Text.takeWhile_append_stop hw hz, Text.dropWhile_append_stop hw hz⟩
  have hvy : ∀ c ∈ (v ++ y).head?, Ascii.isWordChar c = false := by
    intro c hc
    rw [List.head?_append] at hc
    rcases Option.or_eq_some_iff.1 hc with hc | ⟨-, hc⟩
    · exact hv c hc
    · exact hy c hc
  have hread : n.text.takeWhile Ascii.isWordChar = w := hwv ▸ (hstop hv).1
  have hfront : frontName (' ' :: (n.text ++ y)) = w := by
    rw [frontName, hdrop, hwv, List.append_assoc, (hstop hvy).1]
  rw [commaNames_comma, hfront, hdrop, readName, hread]
  split
  · rename_i hnil
    have hspaced : ∀ c ∈ ' ' :: n.text, groupEnd? c = none ∧ c ≠ ',' :=
      List.forall_mem_cons.2 ⟨by decide, fun c hc => hplain c (n.isNameChar_of_mem hc)⟩
    exact commaNames_append_of_plain hspaced y
  · rw [hwv, List.append_assoc, (hstop hvy).2]
    exact congrArg (w :: ·) (commaNames_append_of_plain
      (fun c hc => hplain c (n.isNameChar_of_mem (hwv ▸ List.mem_append_right w hc))) y)

/-- What stands in front of a text without commas and brackets has no part in the names. -/
theorem commaNames_reach_append (hx : ∀ c ∈ x, groupEnd? c = none ∧ c ≠ ',') (y : List Char) :
    commaNames (reach (x ++ y)) = commaNames (reach y) := by
  by_cases hy : reach y = []
  · rw [reach_append_nil (fun c hc => (hx c hc).2) hy, hy]
  · rw [reach_append hy, commaNames_append_of_plain hx]

/-- What is taken of a declarator behind a comma. -/
theorem commaNames_reach_declarator (n : Identifier) (y : List Char) :
    reach (',' :: ' ' :: (n.text ++ ' ' :: '=' :: y)) ≠ [] ∧
      commaNames (reach (',' :: ' ' :: (n.text ++ ' ' :: '=' :: y))) =
        readName n.text ++ commaNames (reach y) := by
  have hname : ∀ c ∈ n.text, c ≠ ',' := fun c hc => ne_of_isNameChar (n.isNameChar_of_mem hc) rfl
  by_cases hy : reach y = []
  · have htaken := taken_name n.text_ne_nil (fun c hc => n.isNameChar_of_mem hc) y
    have hnone : reach (' ' :: (n.text ++ ' ' :: '=' :: y)) = [] :=
      reach_append_nil (x := [' ']) (Text.forall_mem_of_all (by decide))
        (reach_append_nil hname
          (reach_append_nil (x := [' ', '=']) (Text.forall_mem_of_all (by decide)) hy))
    rw [reach_comma hnone (by rw [htaken]; exact List.cons_ne_nil _ _), htaken]
    refine ⟨List.cons_ne_nil _ _, ?_⟩
    have hread := commaNames_name n (y := []) (by rintro c ⟨⟩)
    rw [List.append_nil] at hread
    rw [hread, hy]
  · have hsplit : reach (',' :: ' ' :: (n.text ++ ' ' :: '=' :: y)) =
        ',' :: ' ' :: (n.text ++ ' ' :: '=' :: reach y) := by
      have happend := reach_append hy (',' :: ' ' :: (n.text ++ [' ', '=']))
      simpa using happend
    rw [hsplit]
    refine ⟨List.cons_ne_nil _ _, ?_⟩
    rw [commaNames_name n (by rintro c ⟨⟩; rfl)]
    exact congrArg _
      (commaNames_append_of_plain (x := [' ', '=']) (Text.forall_mem_of_all (by decide)) _)

/-- **The names that are read behind a value.** -/
theorem commaNames_reach (v : Initializer) (ds : List Declarator) :
    commaNames (reach (v.text ++ behind ds)) = found v.text ds := by
  induction ds generalizing v with
  | nil => exact congrArg commaNames (reach_semicolon v.text)
  | cons d ds ih =>
    obtain ⟨hne, hnames⟩ := commaNames_reach_declarator d.name (' ' :: (d.value.text ++ behind ds))
    have hvalue : commaNames (reach (' ' :: (d.value.text ++ behind ds))) = found d.value.text ds :=
      (commaNames_reach_append (x := [' ']) (Text.forall_mem_of_all (by decide)) _).trans (ih d.value)
    rw [hvalue] at hnames
    rw [behind, reach_append hne, v.sealed.commaNames_append, hnames, found]

/-! ### The names that a line declares -/

theorem isWordChar_of_commaNames (y : List Char) :
    ∀ n ∈ commaNames y, ∀ c ∈ n, Ascii.isWordChar c = true := by
  fun_induction commaNames y with
  | case1 => exact fun n hn => absurd hn List.not_mem_nil
  | case2 c r d hd hmem ih => exact ih
  | case3 c r d hd hmem ih => exact ih
  | case4 r hempty hgroup ih => exact ih
  | case5 r hne hgroup ih =>
    exact List.forall_mem_cons.2 ⟨fun c hc => List.mem_takeWhile_imp hc, ih⟩
  | case6 c r hgroup hcomma ih => exact ih

/-- No name that is read behind the first has a dollar sign. -/
theorem isWordChar_of_found (v : List Char) (ds : List Declarator) :
    ∀ n ∈ found v ds, ∀ c ∈ n, Ascii.isWordChar c = true := by
  induction ds generalizing v with
  | nil => exact isWordChar_of_commaNames _
  | cons d ds ih =>
    intro n hn
    simp only [found, List.mem_append] at hn
    rcases hn with hn | hn | hn
    · exact isWordChar_of_commaNames v n hn
    · unfold readName at hn
      split at hn
      · cases hn
      · obtain rfl := List.mem_singleton.1 hn
        exact fun c hc => List.mem_takeWhile_imp hc
    · exact ih _ n hn

/-- A name without a dollar sign is read as it is. -/
theorem readName_eq (n : Identifier) (h : '$' ∉ n.text) : readName n.text = [n.text] := by
  have hall : n.text.takeWhile Ascii.isWordChar = n.text := by
    refine List.takeWhile_eq_self_iff.2 fun c hc => ?_
    have hname := n.isNameChar_of_mem hc
    simp only [isNameChar, Bool.or_eq_true, beq_iff_eq] at hname
    refine hname.resolve_right ?_
    rintro rfl
    exact h hc
  rw [readName, hall, if_neg n.text_ne_nil]

/-- If no name has a dollar sign at least as many names are read as are declared, and if as many are,
none is read within the values. -/
theorem le_length_found {ds : List Declarator} (hds : ∀ d ∈ ds, '$' ∉ d.name.text)
    (v : List Char) : ds.length ≤ (found v ds).length ∧
      ((found v ds).length = ds.length →
        (∀ w ∈ (v :: ds.map fun d => d.value.text).dropLast, commaNames w = []) ∧
          commaNames (reach ((v :: ds.map fun d => d.value.text).getLast (List.cons_ne_nil _ _))) =
            []) := by
  induction ds generalizing v with
  | nil => exact ⟨Nat.zero_le _, fun h => ⟨fun w hw => (by cases hw), List.length_eq_zero_iff.1 h⟩⟩
  | cons d ds ih =>
    obtain ⟨hd, hds⟩ := List.forall_mem_cons.1 hds
    obtain ⟨hle, hnone⟩ := ih hds d.value.text
    have hlength : (found v (d :: ds)).length =
        (commaNames v).length + (1 + (found d.value.text ds).length) := by
      rw [found, readName_eq d.name hd, List.length_append, List.length_append, List.length_singleton]
    rw [hlength, List.length_cons]
    refine ⟨by omega, fun h => ?_⟩
    obtain ⟨hvalues, hlast⟩ := hnone (by omega)
    have hv : commaNames v = [] := List.length_eq_zero_iff.1 (by omega)
    exact ⟨List.forall_mem_cons.2 ⟨hv, hvalues⟩, hlast⟩

/-- If none is read within the values, the names are those that are declared. -/
theorem found_eq {ds : List Declarator} (hds : ∀ d ∈ ds, '$' ∉ d.name.text) (v : List Char)
    (hvalues : ∀ w ∈ (v :: ds.map fun d => d.value.text).dropLast, commaNames w = [])
    (hlast : commaNames
      (reach ((v :: ds.map fun d => d.value.text).getLast (List.cons_ne_nil _ _))) = []) :
    found v ds = ds.map fun d => d.name.text := by
  induction ds generalizing v with
  | nil => exact hlast
  | cons d ds ih =>
    obtain ⟨hd, hds⟩ := List.forall_mem_cons.1 hds
    obtain ⟨hv, hvalues⟩ := List.forall_mem_cons.1 hvalues
    rw [found, hv, readName_eq d.name hd, ih hds d.value.text hvalues hlast]
    rfl

/-- The values of a line. -/
def values (l : VariableLine) : List (List Char) := (l.first :: l.more).map fun d => d.value.text

/-- The value of the last declarator. -/
def lastValue (l : VariableLine) : List Char := l.values.getLast (List.cons_ne_nil _ _)

/-- A line in which every further name can be read, and nothing within the values is mistaken for
one: behind the first name stands no dollar sign in a name, and behind no comma of a value a word,
other than in brackets that are left out; in the last value this is asked up to where something is
taken for a declarator. -/
structure Legible (l : VariableLine) : Prop where
  noDollar : ∀ d ∈ l.more, '$' ∉ d.name.text
  values : ∀ v ∈ l.values.dropLast, commaNames v = []
  lastValue : commaNames (reach l.lastValue) = []

theorem found_eq_iff (l : VariableLine) :
    l.first.name.text :: found l.first.value.text l.more = l.names ↔ l.Legible := by
  rw [names, List.map_cons, List.cons_inj_right]
  constructor
  · intro h
    have hdollar : ∀ d ∈ l.more, '$' ∉ d.name.text := by
      intro d hd hmem
      have hword := isWordChar_of_found l.first.value.text l.more d.name.text
        (h ▸ List.mem_map_of_mem hd) '$' hmem
      exact absurd hword (by decide)
    obtain ⟨hvalues, hlast⟩ := (le_length_found hdollar l.first.value.text).2 (by rw [h, List.length_map])
    exact ⟨hdollar, hvalues, hlast⟩
  · intro h
    exact found_eq h.noDollar l.first.value.text h.values h.lastValue

/-- Lines without commas in their values declare what they are found to, unless a name behind the
first has a dollar sign. -/
theorem legible_of_commaless (l : VariableLine)
    (hnames : ∀ d ∈ l.more, '$' ∉ d.name.text) (hvalues : ∀ v ∈ l.values, ',' ∉ v) : l.Legible := by
  have hnone : ∀ v : List Char, ',' ∉ v → commaNames v = [] := by
    intro v
    fun_induction commaNames v with
    | case1 => exact fun _ => rfl
    | case2 c r d hd hmem ih =>
      refine fun h => ih fun hcomma => h (List.mem_cons_of_mem c ?_)
      exact (List.dropWhile_suffix _).subset (List.mem_of_mem_drop hcomma)
    | case3 c r d hd hmem ih => exact fun h => ih fun hcomma => h (List.mem_cons_of_mem c hcomma)
    | case4 r hempty hgroup ih => exact fun h => absurd List.mem_cons_self h
    | case5 r hne hgroup ih => exact fun h => absurd List.mem_cons_self h
    | case6 c r hgroup hcomma ih => exact fun h => ih fun hmem => h (List.mem_cons_of_mem c hmem)
  refine ⟨hnames, fun v hv => hnone v (hvalues v (List.dropLast_subset _ hv)), ?_⟩
  have hlast := hvalues l.lastValue (List.getLast_mem _)
  have hreach := reach_append_nil (x := l.lastValue) (y := []) (fun c hc => ne_of_mem_of_not_mem hc hlast)
    rfl
  rw [List.append_nil] at hreach
  rw [hreach, commaNames]

end VariableLine

/-! ## The export of a line -/

namespace ExportRecord

/-- What a record of a declaration says. -/
structure Declares (word name : List Char) (names : List (List Char)) (r : ExportRecord) : Prop where
  kind : r.kind = .declaration
  declaration : r.declaration = some word
  name : r.name = some name
  names : r.names = names

/-- A record of a declaration with a name of its own keeps it; it is the only one if no further
names are known. -/
theorem declares_normalize {r : ExportRecord} {word name : List Char} (hkind : r.kind = .declaration)
    (hword : r.declaration = some word) (hname : r.name = some name) (hne : name ≠ "default".toList) :
    r.normalize.Declares word name (if r.names.isEmpty then [name] else r.names) := by
  obtain ⟨kind, form, code, span, own, names, specifier, declaration, type, value⟩ := r
  obtain rfl : kind = .declaration := hkind
  obtain rfl : declaration = some word := hword
  obtain rfl : own = some name := hname
  have hdefault : ((some name == some "default".toList) && (ExportKind.declaration != .default)) =
      false := by
    rw [beq_false_of_ne fun h => hne (Option.some.inj h)]
    rfl
  refine ⟨?_, rfl, rfl, rfl⟩
  show (if _ then ExportKind.default else ExportKind.declaration) = _
  rw [if_neg (by rw [hdefault]; exact Bool.false_ne_true)]

end ExportRecord

namespace VariableLine

/-- The record of a line declares the names that are read. -/
theorem declares_record (l : VariableLine) {m : Match Part}
    (hname : m.part? .name = some ⟨13, 13 + Text.byteLength l.first.name.text⟩)
    (hword : m.part? .declaration = some ⟨7, 12⟩)
    (hextra : m.part? .extra = if reach l.tail = [] then none
      else some ⟨13 + Text.byteLength l.first.name.text,
        13 + Text.byteLength l.first.name.text + Text.byteLength (reach l.tail)⟩) :
    (ExportRecord.ofDeclaration l.text m).normalize.Declares "const".toList l.first.name.text
      (l.first.name.text :: found l.first.value.text l.more) := by
  let n := l.first.name.text
  let base := ExportRecord.ofMatch .declaration l.text m
  have hcovers : Span.Covers l.text n ⟨13, 13 + Text.byteLength n⟩ :=
    ⟨"export const ".toList, l.tail, l.text_eq, rfl, rfl⟩
  have hconst : Span.Covers l.text "const".toList ⟨7, 12⟩ :=
    ⟨"export ".toList, ' ' :: (n ++ l.tail), l.text_eq, rfl, rfl⟩
  have hbase : base.name = some n := by
    show (m.part? .name).map (·.text l.text) = some n
    rw [hname]
    exact congrArg some hcovers.text_eq
  have hdeclaration : base.declaration = some "const".toList := by
    show (m.part? .declaration).map (·.text l.text) = some "const".toList
    rw [hword]
    exact congrArg some hconst.text_eq
  have hfound : commaNames (reach l.tail) = found l.first.value.text l.more :=
    (commaNames_reach_append (x := " = ".toList) (Text.forall_mem_of_all (by decide)) _).trans
      (commaNames_reach l.first.value l.more)
  by_cases hreach : reach l.tail = []
  · rw [if_pos hreach] at hextra
    have hrecord : ExportRecord.ofDeclaration l.text m = base := by
      unfold ExportRecord.ofDeclaration
      dsimp only
      rw [hextra]
      split
      · contradiction
      · rfl
    rw [hrecord, ← hfound, hreach, commaNames]
    exact ExportRecord.declares_normalize (r := base) rfl hdeclaration hbase l.named
  · rw [if_neg hreach] at hextra
    have hrecord : ExportRecord.ofDeclaration l.text m =
        { base with names := n :: found l.first.value.text l.more } := by
      obtain ⟨r, hr, -⟩ := exists_reach l.tail
      have hextraCovers : Span.Covers l.text (reach l.tail) ⟨13 + Text.byteLength n,
          13 + Text.byteLength n + Text.byteLength (reach l.tail)⟩ := by
        have hfront : 13 + Text.byteLength n = Text.byteLength ("export const ".toList ++ n) :=
          (Text.byteLength_append "export const ".toList n).symm
        refine ⟨"export const ".toList ++ n, r, ?_, hfront, congrArg (· + _) hfront⟩
        rw [← hr, List.append_assoc]
        exact l.text_eq
      have hline : ∀ c ∈ reach l.tail, isInLine c = true := fun c hc =>
        l.isInLine_tail c (hr ▸ List.mem_append_left r hc)
      unfold ExportRecord.ofDeclaration
      dsimp only
      rw [hextra, show (ExportRecord.ofMatch .declaration l.text m).name = some n from hbase,
        show (ExportRecord.ofMatch .declaration l.text m).declaration = _ from hdeclaration]
      dsimp only
      rw [hextraCovers.text_eq, ExportRecord.declaratorNames_eq hline, hfound]
      exact if_pos (by decide)
    rw [hrecord]
    exact ExportRecord.declares_normalize (r := { base with names := n :: _ }) rfl hdeclaration hbase
      l.named

/-- A line has one candidate, which declares the names that are read. -/
theorem candidates_eq (l : VariableLine) : ∃ r, ExportRecord.candidates l.text = [r] ∧
    r.span.start = 0 ∧ 6 ≤ r.span.stop ∧ r.Declares "const".toList l.first.name.text
      (l.first.name.text :: found l.first.value.text l.more) := by
  let n := l.first.name
  obtain ⟨m, hm, hstop, hname, hword, hextra⟩ := Shape.matchAt?_const n (x := l.tail) rfl l.isInLine_tail
  rw [← l.text_eq] at hm
  have hfirst : ∀ {words : List String}, words ⊆ Shape.openings → ∀ range,
      OpensAt l.text words range → range.start = 0 := by
    rintro words hwords range ⟨a, b, hs, hstart, hopens⟩
    exact l.start_of_opensAt ⟨a, b, hs, hstart, hopens.mono hwords⟩
  have hother : ∀ {words : List String} {shape : Pattern Part}, Shape.GoesOnWith words shape →
      words ⊆ Shape.openings → (∀ w ∈ words, w.toList.head?.any (· != 'c') = true) →
        shape.matchesIn l.text = [] := by
    intro words shape hshape hwords hheads
    refine hshape.matchesIn_eq_nil (hfirst hwords) ?_
    have hsplit : l.text = "export".toList ++ (" const ".toList ++ (n.text ++ l.tail)) := l.text_eq
    rw [hsplit]
    exact hshape.matchAt?_eq_none (not_opens_of_head (d := 'c') rfl hheads)
  have hdestructured : Shape.exportDestructured.matchesIn l.text = [] :=
    Shape.goesOnWith_exportDestructured.matchesIn_eq_nil (hfirst (by decide))
      (l.text_eq ▸ Shape.matchAt?_destructured n l.tail)
  let record := ExportRecord.ofDeclaration l.text m
  have hcandidates : ExportRecord.candidates l.text = [record.normalize] := by
    unfold ExportRecord.candidates
    rw [Shape.goesOnWith_exportDeclaration.matchesIn_eq_singleton (hfirst (by decide)) hm,
      hother Shape.goesOnWith_exportNamed (by decide) (by decide), hdestructured,
      hother Shape.goesOnWith_exportDefault (by decide) (by decide),
      hother Shape.goesOnWith_exportDefaultClass (by decide) (by decide),
      hother Shape.goesOnWith_exportStar (by decide) (by decide)]
    rfl
  have hstart : m.span.start = 0 := congrArg Cursor.pos (front_of_matchAt? hm)
  refine ⟨_, hcandidates, ?_, ?_, ?_⟩
  · exact (congrArg Span.start (ExportRecord.span_ofDeclaration m)).trans hstart
  · show 6 ≤ record.span.stop
    rw [ExportRecord.span_ofDeclaration]
    exact Nat.le_trans (by decide) hstop
  · exact l.declares_record hname hword hextra

end VariableLine

/-- **A written declaration of variables is one export**, of the first name and of what is read behind
commas; its names are those that it declares exactly if the line is legible. -/
theorem VariableLine.exports_declared (l : VariableLine) : ∃ r, Analyzer.standard.exports l.text = .ok [r] ∧
    r.kind = .declaration ∧ r.declaration = some "const".toList ∧
      r.name = some l.first.name.text ∧ (r.names = l.names ↔ l.Legible) := by
  obtain ⟨r, hcandidates, hstart, hstop, hdeclares⟩ := l.candidates_eq
  have hsplit : l.text = "export".toList ++ ' ' :: ("const ".toList ++ (l.first.name.text ++ l.tail)) :=
    l.text_eq
  have hexports := Analyzer.exports_of_single hsplit (by rintro c ⟨⟩; decide) hcandidates hstart hstop
    l.tokenize_ne_overrun
  refine ⟨r, hexports, hdeclares.kind, hdeclares.declaration, hdeclares.name, ?_⟩
  rw [hdeclares.names]
  exact l.found_eq_iff

/-- A line does not always declare what it is found to: the second argument of a call is taken for a
name. -/
theorem VariableLine.exports_arguments : ¬ ∀ (l : VariableLine) (r : ExportRecord),
    Analyzer.standard.exports l.text = .ok [r] → r.names = l.names := by
  intro h
  have hcall : Shut "f(x, y)".toList [] :=
    shut_of_notInfix (u := "f(x, y".toList) (d := ')') (by decide) (by decide +kernel)
  let a : Declarator := ⟨⟨['a'], by decide⟩, "f(x, y)".toList, by decide, hcall⟩
  let b : Declarator := ⟨⟨['b'], by decide⟩, ['2'], by decide, shut_of_ne (by decide)⟩
  let l : VariableLine := ⟨a, [b], show ['a'] ≠ "default".toList by decide⟩
  have htext : l.text = "export const a = f(x, y), b = 2;".toList := by
    show "export const ".toList ++ Text.joinWith ", ".toList
      [['a'] ++ " = ".toList ++ "f(x, y)".toList, ['b'] ++ " = ".toList ++ ['2']] ++ [';'] = _
    decide
  have hexports : Analyzer.standard.exports "export const a = f(x, y), b = 2;".toList = .ok [
      { kind := .declaration, kindByForm := none, code := "export const a = f(x, y), b".toList,
        span := ⟨0, 27⟩, name := some ['a'], names := [['a'], ['y'], ['b']], specifier := none,
        declaration := some "const".toList, declarationType := some "const".toList,
        defaultName := none }] := by
    repeat rw [String.toList_ofList]
    decide +kernel
  have hnames := h l _ ((congrArg Analyzer.standard.exports htext).trans hexports)
  cases hnames

end EsModules
