/-!
# Text as lists of characters

Source code, specifiers and file contents are lists of characters; offsets into them count bytes
of their UTF-8 form.  This file holds the byte length of a text, cutting at a byte offset, and
the searching and splitting operations the other modules share.
-/

namespace EsModules.Text

/-! ## Byte lengths and cuts -/

/-- The number of bytes in the UTF-8 form of a text. -/
def byteLength : List Char → Nat
  | [] => 0
  | c :: cs => c.utf8Size + byteLength cs

@[simp] theorem byteLength_nil : byteLength [] = 0 := rfl

@[simp] theorem byteLength_cons (c : Char) (cs : List Char) :
    byteLength (c :: cs) = c.utf8Size + byteLength cs := rfl

@[simp] theorem byteLength_append (a b : List Char) :
    byteLength (a ++ b) = byteLength a + byteLength b := by
  induction a with
  | nil => simp
  | cons c cs ih => simp [ih, Nat.add_assoc]

/-- Every character has a byte. -/
theorem length_le_byteLength (cs : List Char) : cs.length ≤ byteLength cs := by
  induction cs with
  | nil => exact Nat.le_refl 0
  | cons c cs ih =>
    have hc := c.utf8Size_pos
    rw [List.length_cons, byteLength_cons]
    omega

/-- Of two ways to cut a text in two, the one that cuts further back cuts the second part of the
other. -/
theorem exists_append_of_byteLength_le {a b c d : List Char} (h : a ++ b = c ++ d)
    (hle : byteLength a ≤ byteLength c) : ∃ m, c = a ++ m ∧ b = m ++ d := by
  rcases List.append_eq_append_iff.1 h with ⟨m, hc, hb⟩ | ⟨m, ha, hd⟩
  · exact ⟨m, hc, hb⟩
  · cases m with
    | nil => exact ⟨[], by simpa using ha.symm, by simpa using hd.symm⟩
    | cons x xs =>
      have hpos := x.utf8Size_pos
      rw [ha] at hle
      simp only [byteLength_append, byteLength_cons] at hle
      omega

/-- A character that starts within the first part of a text belongs to it. -/
theorem exists_append_of_byteLength_lt {a b c d : List Char} {x : Char}
    (h : a ++ x :: b = c ++ d) (hlt : byteLength a < byteLength c) :
    ∃ m, c = a ++ x :: m ∧ b = m ++ d := by
  obtain ⟨m, rfl, hm⟩ := exists_append_of_byteLength_le h (Nat.le_of_lt hlt)
  cases m with
  | nil => simp at hlt
  | cons y m =>
    obtain ⟨rfl, rfl⟩ := List.cons.inj hm
    exact ⟨m, rfl, rfl⟩

/-- The text from a byte offset on; an offset inside a character rounds up to its end. -/
def dropBytes : Nat → List Char → List Char
  | _, [] => []
  | 0, cs => cs
  | n + 1, c :: cs => dropBytes (n + 1 - c.utf8Size) cs

/-- The text before a byte offset; an offset inside a character rounds up to its end. -/
def takeBytes : Nat → List Char → List Char
  | _, [] => []
  | 0, _ => []
  | n + 1, c :: cs => c :: takeBytes (n + 1 - c.utf8Size) cs

theorem takeBytes_append_dropBytes (n : Nat) (cs : List Char) :
    takeBytes n cs ++ dropBytes n cs = cs := by
  induction cs generalizing n with
  | nil => cases n <;> rfl
  | cons c cs ih => cases n with
    | zero => rfl
    | succ n => simp [takeBytes, dropBytes, ih]

/-- The text between two byte offsets. -/
def slice (start stop : Nat) (cs : List Char) : List Char :=
  takeBytes (stop - start) (dropBytes start cs)

/-- A text cut in two at a byte offset; an offset inside a character or behind the end is none at
which it can be cut. -/
def splitAt? : Nat → List Char → Option (List Char × List Char)
  | 0, cs => some ([], cs)
  | _ + 1, [] => none
  | n + 1, c :: cs =>
    if c.utf8Size ≤ n + 1 then
      (splitAt? (n + 1 - c.utf8Size) cs).map fun (front, back) => (c :: front, back)
    else none

theorem splitAt?_eq_some_iff {n : Nat} {cs front back : List Char} :
    splitAt? n cs = some (front, back) ↔ cs = front ++ back ∧ n = byteLength front := by
  fun_induction splitAt? n cs generalizing front with
  | case1 cs =>
    constructor
    · rintro ⟨⟩
      exact ⟨rfl, rfl⟩
    · rintro ⟨rfl, hzero⟩
      cases front with
      | nil => rfl
      | cons c front =>
        have hc := c.utf8Size_pos
        rw [byteLength_cons] at hzero
        omega
  | case2 n =>
    refine iff_of_false nofun ?_
    rintro ⟨hnil, hsize⟩
    rw [(List.append_eq_nil_iff.1 hnil.symm).1] at hsize
    cases hsize
  | case3 n c cs hle ih =>
    simp only [Option.map_eq_some_iff, Prod.exists, Prod.mk.injEq]
    constructor
    · rintro ⟨front, back, hsplit, rfl, rfl⟩
      obtain ⟨rfl, hsize⟩ := ih.1 hsplit
      exact ⟨rfl, by rw [byteLength_cons]; omega⟩
    · rintro ⟨hcs, hsize⟩
      cases front with
      | nil => cases hsize
      | cons d front =>
        obtain ⟨rfl, rfl⟩ := List.cons.inj hcs
        rw [byteLength_cons] at hsize
        exact ⟨front, back, ih.2 ⟨rfl, by omega⟩, rfl, rfl⟩
  | case4 n c cs hlt =>
    refine iff_of_false nofun ?_
    rintro ⟨hcs, hsize⟩
    cases front with
    | nil => cases hsize
    | cons d front =>
      obtain ⟨rfl, -⟩ := List.cons.inj hcs
      rw [byteLength_cons] at hsize
      omega

/-- The text between two byte offsets, if it can be cut out: the first is not behind the second, and
the text can be cut at both. -/
def slice? (start stop : Nat) (cs : List Char) : Option (List Char) :=
  if start ≤ stop then
    (splitAt? start cs).bind fun (_, behind) => (splitAt? (stop - start) behind).map Prod.fst
  else none

/-! ## Searching and splitting -/

/-- The text cut in front of the first occurrence of a pattern, if there is one. -/
def cut? (pattern : List Char) : List Char → Option (List Char × List Char)
  | [] => if pattern.isEmpty then some ([], []) else none
  | c :: cs =>
    if pattern.isPrefixOf (c :: cs) then some ([], c :: cs)
    else (cut? pattern cs).map fun (before, rest) => (c :: before, rest)

/-- A cut loses nothing. -/
theorem append_of_cut?_eq_some {pattern cs before rest : List Char}
    (h : cut? pattern cs = some (before, rest)) : before ++ rest = cs := by
  induction cs generalizing before with
  | nil =>
    simp only [cut?, Option.ite_none_right_eq_some, Option.some.injEq, Prod.mk.injEq] at h
    obtain ⟨-, rfl, rfl⟩ := h
    rfl
  | cons c cs ih =>
    unfold cut? at h
    split at h
    · cases h
      rfl
    · obtain ⟨⟨b, r⟩, hcut, heq⟩ := Option.map_eq_some_iff.1 h
      obtain ⟨rfl, rfl⟩ := Prod.mk.inj heq
      rw [List.cons_append, ih hcut]

/-- The text before and after the first occurrence of a pattern. -/
def splitOnce (pattern cs : List Char) : Option (List Char × List Char) :=
  (cut? pattern cs).map fun (before, rest) => (before, rest.drop pattern.length)

/-- The text before and after the last occurrence of a pattern. -/
def splitLast (pattern cs : List Char) : Option (List Char × List Char) :=
  (splitOnce pattern.reverse cs.reverse).map fun (a, b) => (b.reverse, a.reverse)

/-- Whether a pattern occurs in a text. -/
def contains (pattern cs : List Char) : Bool := (cut? pattern cs).isSome

/-- Puts an element in front of the first of some pieces, or a new piece in front of them all. -/
def pushPiece {α : Type} (isCut : α → Bool) (c : α) : List (List α) → List (List α)
  | [] => if isCut c then [[]] else [[c]]
  | p :: ps => if isCut c then [] :: p :: ps else (c :: p) :: ps

/-- The pieces of a list between the elements that satisfy a test; there is always one more piece
than there are such elements. -/
def splitWhere {α : Type} (isCut : α → Bool) (as : List α) : List (List α) :=
  as.foldr (pushPiece isCut) [[]]

/-- The pieces of a text between the occurrences of one character. -/
def splitOn (sep : Char) (cs : List Char) : List (List Char) := splitWhere (· == sep) cs

/-- Pieces put together with a separator between them. -/
def joinWith {α : Type} (sep : List α) : List (List α) → List α
  | [] => []
  | [p] => p
  | p :: ps => p ++ sep ++ joinWith sep ps

@[simp] theorem splitWhere_cons {α : Type} (isCut : α → Bool) (a : α) (as : List α) :
    splitWhere isCut (a :: as) = pushPiece isCut a (splitWhere isCut as) := rfl

theorem splitWhere_ne_nil {α : Type} (isCut : α → Bool) (as : List α) :
    splitWhere isCut as ≠ [] := by
  cases as with
  | nil => simp [splitWhere]
  | cons a as => rw [splitWhere_cons]; unfold pushPiece; split <;> split <;> simp

/-- Pieces between occurrences of a character, put together with it, give the text again. -/
theorem joinWith_splitOn (sep : Char) (cs : List Char) : joinWith [sep] (splitOn sep cs) = cs := by
  unfold splitOn
  induction cs with
  | nil => rfl
  | cons c cs ih =>
    rw [splitWhere_cons]
    cases hs : splitWhere (· == sep) cs with
    | nil => exact absurd hs (splitWhere_ne_nil _ _)
    | cons p ps =>
      rw [hs] at ih
      by_cases hc : c = sep
      · subst hc
        simp [joinWith, pushPiece, ih]
      · simp only [pushPiece, beq_iff_eq, hc, if_false]
        cases ps with
        | nil => simpa [joinWith] using ih
        | cons q qs => simpa [joinWith] using ih

/-- A text with every occurrence of one character replaced by a text. -/
def replaceChar (old : Char) (new : List Char) (cs : List Char) : List Char :=
  cs.flatMap fun c => if c == old then new else [c]

/-- A text with the first occurrence of one character replaced by a text. -/
def replaceFirst (old : Char) (new : List Char) : List Char → List Char
  | [] => []
  | c :: cs => if c == old then new ++ cs else c :: replaceFirst old new cs

/-- The rest of a text after a given beginning. -/
def dropPrefix? : List Char → List Char → Option (List Char)
  | [], cs => some cs
  | p :: ps, c :: cs => if p == c then dropPrefix? ps cs else none
  | _ :: _, [] => none

/-- A beginning can be dropped exactly when the text starts with it. -/
theorem dropPrefix?_eq_some_iff {beginning cs rest : List Char} :
    dropPrefix? beginning cs = some rest ↔ beginning ++ rest = cs := by
  induction beginning generalizing cs with
  | nil => simp [dropPrefix?, eq_comm]
  | cons p ps ih =>
    cases cs with
    | nil => simp [dropPrefix?]
    | cons c cs => by_cases hpc : p = c <;> simp [dropPrefix?, hpc, ih]

/-- A text without a given ending, if it has it. -/
def dropSuffix? (ending cs : List Char) : Option (List Char) :=
  (dropPrefix? ending.reverse cs.reverse).map List.reverse

/-! ## Blanks -/

/-- The characters with the property White_Space. -/
def isBlank (c : Char) : Bool :=
  let n := c.toNat
  (0x09 ≤ n && n ≤ 0x0D) || n == 0x20 || n == 0x85 || n == 0xA0 || n == 0x1680
    || (0x2000 ≤ n && n ≤ 0x200A) || n == 0x2028 || n == 0x2029 || n == 0x202F || n == 0x205F
    || n == 0x3000

/-- A text without the blanks in front of it. -/
def trimStart (cs : List Char) : List Char := cs.dropWhile isBlank

/-- A text without the blanks behind it. -/
def trimEnd (cs : List Char) : List Char := (cs.reverse.dropWhile isBlank).reverse

/-- A text without the blanks around it. -/
def trim (cs : List Char) : List Char := trimEnd (trimStart cs)

/-! ## Order -/

/-- The order of texts by the code points of their characters, which is also the order of the
bytes of their UTF-8 forms. -/
def le : List Char → List Char → Bool
  | [], _ => true
  | _ :: _, [] => false
  | a :: as, b :: bs => if a == b then le as bs else a.toNat < b.toNat

/-- Texts in their order, each once. -/
def sortDistinct (texts : List (List Char)) : List (List Char) := (texts.mergeSort le).eraseReps

end EsModules.Text
