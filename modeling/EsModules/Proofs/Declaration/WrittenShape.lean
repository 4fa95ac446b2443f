import EsModules.Proofs.Declaration.WrittenClause

/-!
# Finding written lines

The shape of import declarations fits a line that is written in the usual way as a whole: its clause
and its specifier are the parts of the match.  No part of the line can be read as something else,
since what stands behind a line is nothing or another one.

* `Shape.specifier_written`, `Shape.importEnd_written`: the quoted name and what ends a line.
* `Shape.clauseGroup_written`, `Shape.clauseGroup_bare`: the clause, and a line without one.
* `Shape.staticImport_written`: a whole line.
* `StaticImport.candidates_written`: all lines of a source.
-/

namespace EsModules

open Pattern

namespace Shape

variable {β : Type} {before : Option Char} {pos : Nat} {caps : Captures Part} {k : Follow Part β}

/-! ## Specifiers -/

/-- A quoted specifier goes up to its closing quote. -/
theorem specifier_written (s : PlainSpecifier) {r : List Char}
    (hk : (k ⟨some '"', pos + 1 + Text.byteLength s.text + 1, r⟩
      ((.specifier, ⟨pos + 1, pos + 1 + Text.byteLength s.text⟩) :: caps)).isSome = true) :
    specifier.attempt ⟨before, pos, '"' :: (s.text ++ '"' :: r)⟩ caps k =
      k ⟨some '"', pos + 1 + Text.byteLength s.text + 1, r⟩
        ((.specifier, ⟨pos + 1, pos + 1 + Text.byteLength s.text⟩) :: caps) := by
  obtain ⟨init, last, htext⟩ : ∃ init last, s.text = init ++ [last] :=
    ⟨_, _, (List.dropLast_append_getLast s.ne_nil).symm⟩
  have hplain : ∀ c ∈ s.text, (c != '"' && c != '\n') = true := by
    intro c hc
    obtain ⟨hquote, -, -, hend⟩ := s.plain c hc
    have hnewline : c ≠ '\n' := by
      rintro rfl
      cases hend
    simp [hquote, hnewline]
  have hlast : last ≠ '"' ∧ Ascii.isSpace last = false :=
    ⟨(s.plain last (by rw [htext]; simp)).1, s.last last (by rw [htext]; simp)⟩
  have hwidth : pos + 1 + Text.byteLength s.text =
      pos + 1 + Text.byteLength init + last.utf8Size := by
    rw [htext, Text.byteLength_append, ← Nat.add_assoc]
    rfl
  let closing : Follow Part β := fun c caps => (char (· == '"')).attempt c caps k
  let ending : Follow Part β := fun c caps =>
    spaces.attempt c ((.specifier, ⟨pos + 1, c.pos⟩) :: caps) closing
  let stopping : Follow Part β := fun c caps =>
    (char fun c => c != '"' && !Ascii.isSpace c).attempt c caps ending
  let capturing : Follow Part β := fun c caps =>
    (capture .specifier (run (fun c => c != '"' && c != '\n')
      ++ char fun c => c != '"' && !Ascii.isSpace c)).attempt c caps
        fun c caps => spaces.attempt c caps closing
  have hclosing : ending ⟨some last, pos + 1 + Text.byteLength s.text, [] ++ '"' :: r⟩ caps =
      k ⟨some '"', pos + 1 + Text.byteLength s.text + 1, r⟩
        ((.specifier, ⟨pos + 1, pos + 1 + Text.byteLength s.text⟩) :: caps) :=
    attempt_run (fun c hc => absurd hc List.not_mem_nil) (by rintro a ⟨⟩; rfl) hk
  have hstopping : stopping (.past (some '"') (pos + 1) init (last :: '"' :: r)) caps =
      ending ⟨some last, pos + 1 + Text.byteLength s.text, '"' :: r⟩ caps := by
    rw [hwidth]
    exact if_pos (by simp [hlast])
  have hinit : capturing ⟨some '"', pos + 1, init ++ (last :: '"' :: r)⟩ caps =
      stopping (.past (some '"') (pos + 1) init (last :: '"' :: r)) caps := by
    refine attempt_run_back (fun c hc => hplain c (by rw [htext]; simp [hc])) ?_ ?_
    · -- behind the last character stands the quote
      intro w w' hw hne hw'
      match w with
      | [] => exact absurd rfl hne
      | [a] =>
        obtain ⟨-, rfl⟩ := List.cons.inj hw
        exact attempt_char_neg rfl r
      | a :: b :: w =>
        obtain ⟨-, hw⟩ := List.cons.inj hw
        obtain ⟨rfl, -⟩ := List.cons.inj hw
        have hquote := hw' '"' (by simp)
        cases hquote
    · exact (congrArg Option.isSome (hstopping.trans hclosing)).trans hk
  have hspaces : spaces.attempt ⟨some '"', pos + 1, [] ++ (s.text ++ '"' :: r)⟩ caps capturing =
      capturing ⟨some '"', pos + 1, s.text ++ '"' :: r⟩ caps := by
    refine attempt_run (fun c hc => absurd hc List.not_mem_nil) (fun c hc => ?_) ?_
    · rw [List.head?_append_of_ne_nil _ s.ne_nil] at hc
      exact s.head c hc
    · rw [htext, List.append_assoc]
      exact (congrArg Option.isSome (hinit.trans (hstopping.trans hclosing))).trans hk
  have hquoted : (quoted '"').attempt ⟨before, pos, '"' :: (s.text ++ '"' :: r)⟩ caps k =
      k ⟨some '"', pos + 1 + Text.byteLength s.text + 1, r⟩
        ((.specifier, ⟨pos + 1, pos + 1 + Text.byteLength s.text⟩) :: caps) := by
    refine hspaces.trans ?_
    rw [← hclosing, List.nil_append, ← hstopping, ← hinit, htext, List.append_assoc]
    rfl
  rw [← hquoted]
  refine orElse_eq_left (.inr ?_)
  exact (congrArg Option.isSome hquoted).trans hk

/-! ## Ends of lines -/

/-- What stands behind a line: nothing, or a character that another line starts with. -/
def Follows (r : List Char) : Prop := ∀ c ∈ r.head?, c = 'i'

/-- A line ends with its specifier, a semicolon and the line end. -/
theorem importEnd_written (s : PlainSpecifier) {r : List Char} (hr : Follows r)
    (hk : Succeeds k) :
    importEnd.attempt ⟨before, pos, '"' :: (s.text ++ "\";\n".toList ++ r)⟩ caps k =
      k ⟨some '\n', pos + 1 + Text.byteLength s.text + 3, r⟩
        ((.specifier, ⟨pos + 1, pos + 1 + Text.byteLength s.text⟩) :: caps) := by
  let ending : Follow Part β := fun c caps =>
    (run fun c => Ascii.isSpace c || c == ';').attempt c caps k
  have hending : ending ⟨some '"', pos + 1 + Text.byteLength s.text + 1, ";\n".toList ++ r⟩
      ((.specifier, ⟨pos + 1, pos + 1 + Text.byteLength s.text⟩) :: caps) =
        k ⟨some '\n', pos + 1 + Text.byteLength s.text + 3, r⟩
          ((.specifier, ⟨pos + 1, pos + 1 + Text.byteLength s.text⟩) :: caps) :=
    attempt_run (List.all_eq_true.1 (by decide)) (fun c hc => by rw [hr c hc]; rfl) (hk _ _)
  have hspecifier : specifier.attempt ⟨before, pos, '"' :: (s.text ++ '"' :: (";\n".toList ++ r))⟩
      caps ending = ending ⟨some '"', pos + 1 + Text.byteLength s.text + 1, ";\n".toList ++ r⟩
        ((.specifier, ⟨pos + 1, pos + 1 + Text.byteLength s.text⟩) :: caps) :=
    specifier_written s ((congrArg Option.isSome hending).trans (hk _ _))
  rw [← hending, ← hspecifier, List.append_assoc]
  rfl

/-- Behind the closing quote of a line no quoted text starts that could be a specifier. -/
theorem importEnd_closing {r : List Char} (hr : Follows r) :
    importEnd.attempt ⟨before, pos, '"' :: ';' :: '\n' :: r⟩ caps k = none := by
  let ending : Follow Part β := fun c caps =>
    (run fun c => Ascii.isSpace c || c == ';').attempt c caps k
  let closing : Follow Part β := fun c caps => (char (· == '"')).attempt c caps ending
  have hclosing : ∀ before pos caps,
      spaces.attempt ⟨before, pos, '\n' :: r⟩ caps closing = none := by
    refine fun before pos caps => attempt_run_none fun w w' hw hw' => ?_
    have hhead : ∀ c r', w' = c :: r' → c ≠ '"' := by
      rintro c r' rfl rfl
      match w with
      | [] => cases hw
      | [a] =>
        obtain ⟨-, rfl⟩ := List.cons.inj hw
        cases hr '"' rfl
      | a :: b :: w =>
        obtain ⟨-, rfl⟩ := List.cons.inj hw
        have hspace := hw' b (by simp)
        rw [hr b rfl] at hspace
        cases hspace
    cases w' with
    | nil => rfl
    | cons c r' => exact attempt_char_neg (by simpa using hhead c r' rfl) r'
  let stopping : Nat → Follow Part β := fun start c caps =>
    (char fun c => c != '"' && !Ascii.isSpace c).attempt c caps fun c caps =>
      spaces.attempt c ((.specifier, ⟨start, c.pos⟩) :: caps) closing
  have hstopping : ∀ start before pos caps,
      (run fun c => c != '"' && c != '\n').attempt ⟨before, pos, ';' :: '\n' :: r⟩ caps
        (stopping start) = none := by
    refine fun start before pos caps => attempt_run_none fun w w' hw hw' => ?_
    match w with
    | [] =>
      obtain rfl : _ = w' := hw
      exact hclosing _ _ _
    | [a] =>
      obtain ⟨-, rfl⟩ := List.cons.inj hw
      exact attempt_char_neg rfl r
    | a :: b :: w =>
      obtain ⟨-, hw⟩ := List.cons.inj hw
      obtain ⟨rfl, -⟩ := List.cons.inj hw
      cases hw' '\n' (List.mem_cons_of_mem _ List.mem_cons_self)
  have hspaces : spaces.attempt ⟨some '"', pos + 1, ';' :: '\n' :: r⟩ caps
      (fun c caps => (run fun c => c != '"' && c != '\n').attempt c caps (stopping c.pos)) = none := by
    refine attempt_run_none fun w w' hw hw' => ?_
    match w with
    | [] =>
      obtain rfl : _ = w' := hw
      exact hstopping _ _ _ _
    | a :: w =>
      obtain ⟨rfl, -⟩ := List.cons.inj hw
      cases hw' ';' List.mem_cons_self
  have hother : (quoted '\'').attempt ⟨before, pos, '"' :: ';' :: '\n' :: r⟩ caps ending = none := rfl
  exact congrArg₂ (Option.orElse · fun _ => ·) hspaces hother

/-! ## Clauses -/

theorem isClauseChar_of_isCalm {c : Char} (hc : isCalm c = true) : isClauseChar c = true := by
  have hcalm : "\"'\x60;()=[]<>!%^&|?~\\".toList.all (fun d => !isCalm d) = true := by decide
  refine (Bool.not_eq_true' _).mpr (Bool.eq_false_iff.2 fun h => ?_)
  exact ne_of_isCalm hc ((Bool.not_eq_true' _).mp (List.all_eq_true.1 hcalm c (List.elem_iff.1 h))) rfl

/-- The part of the shape that a clause is found with. -/
def clauseGroup : Pattern Part :=
  run (fun c => Ascii.isSpace c || c == '"' || c == '\'')
    ++ capture .clause (run1 isClauseChar) ++ word "from" ++ spaces

/-- Between the word in front of a specifier and the specifier that word does not start again. -/
theorem head?_ne_of_word {w w' r : List Char}
    (hw : 'f' :: 'r' :: 'o' :: 'm' :: ' ' :: '"' :: r = w ++ w') (hne : w ≠ [])
    (hquote : '"' ∉ w) : w'.head? ≠ some 'f' := by
  intro hhead
  obtain ⟨w'', rfl⟩ := List.head?_eq_some_iff.1 hhead
  match w with
  | [] => exact hne rfl
  | [_] | [_, _] | [_, _, _] | [_, _, _, _] | [_, _, _, _, _] => simp at hw
  | _ :: _ :: _ :: _ :: _ :: b :: w => 
    obtain rfl : '"' = b := by simp at hw; exact hw.2.2.2.2.2.1
    exact hquote (by simp)

/-- A clause goes up to the word in front of the specifier: none of the characters in between can
start that word. -/
theorem clauseGroup_written {x : List Char} (hx : Tidy x) (hcalm : Calm x) {r : List Char}
    (hk : (k ⟨some ' ', pos + Text.byteLength x + 6, '"' :: r⟩
      ((.clause, ⟨pos, pos + Text.byteLength x + 1⟩) :: caps)).isSome = true) :
    clauseGroup.attempt ⟨before, pos, x ++ (" from ".toList ++ '"' :: r)⟩ caps k =
      k ⟨some ' ', pos + Text.byteLength x + 6, '"' :: r⟩
        ((.clause, ⟨pos, pos + Text.byteLength x + 1⟩) :: caps) := by
  obtain ⟨a, t, rfl⟩ := List.exists_cons_of_ne_nil hx.ne_nil
  have ha : isCalm a = true := hcalm a List.mem_cons_self
  let spacing : Follow Part β := fun c caps => spaces.attempt c caps k
  let joining : Follow Part β := fun c caps =>
    (word "from").attempt c ((.clause, ⟨pos, c.pos⟩) :: caps) spacing
  let capturing : Follow Part β := fun c caps =>
    (capture .clause (run1 isClauseChar)).attempt c caps fun c caps =>
      (word "from").attempt c caps spacing
  have hspacing : spacing ⟨some 'm', pos + Text.byteLength (a :: t) + 1 + 4, [' '] ++ '"' :: r⟩
      ((.clause, ⟨pos, pos + Text.byteLength (a :: t) + 1⟩) :: caps) =
        k ⟨some ' ', pos + Text.byteLength (a :: t) + 6, '"' :: r⟩
          ((.clause, ⟨pos, pos + Text.byteLength (a :: t) + 1⟩) :: caps) :=
    attempt_run (List.all_eq_true.1 (by decide)) (by rintro c ⟨⟩; rfl) hk
  have hjoining : joining ⟨some ' ', pos + Text.byteLength (a :: t) + 1,
      "from".toList ++ (' ' :: '"' :: r)⟩ caps =
        spacing ⟨some 'm', pos + Text.byteLength (a :: t) + 1 + 4, ' ' :: '"' :: r⟩
          ((.clause, ⟨pos, pos + Text.byteLength (a :: t) + 1⟩) :: caps) :=
    attempt_literal "from".toList (' ' :: '"' :: r)
  have hsome := (congrArg Option.isSome (hjoining.trans hspacing)).trans hk
  have hpast : Cursor.past (some a) (pos + a.utf8Size) (t ++ [' '])
      ("from".toList ++ (' ' :: '"' :: r)) =
        ⟨some ' ', pos + Text.byteLength (a :: t) + 1, "from".toList ++ (' ' :: '"' :: r)⟩ := by
    rw [← Cursor.past_cons none pos, ← List.cons_append, Cursor.past, Text.byteLength_append,
      List.getLast?_append, Nat.add_assoc]
    rfl
  have hclause : capturing ⟨before, pos, a :: ((t ++ [' ']) ++
      ("from".toList ++ (' ' :: '"' :: r)))⟩ caps =
        joining (.past (some a) (pos + a.utf8Size) (t ++ [' '])
          ("from".toList ++ (' ' :: '"' :: r))) caps := by
    refine (if_pos (isClauseChar_of_isCalm ha)).trans (attempt_run_back (fun c hc => ?_) ?_ ?_)
    · have htail : Calm (t ++ [' ']) :=
        Calm.append (fun c hc => hcalm c (List.mem_cons_of_mem a hc)) (by decide)
      exact isClauseChar_of_isCalm (htail c hc)
    · refine fun w w' hw hne hw' => attempt_literal_ne (head?_ne_of_word hw hne fun hquote => ?_)
      cases hw' '"' hquote
    · rw [hpast]
      exact hsome
  rw [hpast] at hclause
  have hfirst : (run fun c => Ascii.isSpace c || c == '"' || c == '\'').attempt
      ⟨before, pos, [] ++ a :: ((t ++ [' ']) ++ ("from".toList ++ (' ' :: '"' :: r)))⟩ caps
        capturing = capturing ⟨before, pos, a :: ((t ++ [' ']) ++
          ("from".toList ++ (' ' :: '"' :: r)))⟩ caps := by
    refine attempt_run (fun c hc => absurd hc List.not_mem_nil) (fun c hc => ?_) ?_
    · obtain rfl := Option.some.inj hc
      have hspace : Ascii.isSpace a = false :=
        Bool.eq_false_iff.2 fun h => hx.head (by rw [eq_of_isCalm_of_isSpace ha h]; rfl)
      rw [hspace, beq_false_of_ne (ne_of_isCalm ha (by decide)),
        beq_false_of_ne (ne_of_isCalm ha (by decide))]
      rfl
    · exact (congrArg Option.isSome hclause).trans hsome
  rw [← hspacing, List.singleton_append, ← hjoining, ← hclause, ← hfirst]
  simp only [List.cons_append, List.append_assoc]
  rfl

/-- A line without a clause has none: its specifier is neither skipped nor taken for one. -/
theorem clauseGroup_bare (s : PlainSpecifier) {r : List Char} (hr : Follows r) :
    clauseGroup.attempt ⟨before, pos, '"' :: (s.text ++ '"' :: ';' :: '\n' :: r)⟩ caps
      (importEnd.followedBy k) = none := by
  let clause : Pattern Part := capture .clause (run1 isClauseChar) ++ word "from" ++ spaces
  have hquote : ∀ c ∈ s.text, (c == '"') = false ∧ (c == '\'') = false := by
    intro c hc
    obtain ⟨hdouble, hsingle, -⟩ := s.plain c hc
    exact ⟨beq_false_of_ne hdouble, beq_false_of_ne hsingle⟩
  have hclause : ∀ before pos, clause.attempt
      ⟨before, pos, s.text ++ '"' :: ';' :: '\n' :: r⟩ caps (importEnd.followedBy k) = none := by
    refine fun before pos => attempt_eq_none fun c' caps' hmatch => ?_
    obtain ⟨v, hv, hsuffix⟩ := hmatch.inside (by decide) (by decide) rfl
    obtain ⟨before', pos', rest'⟩ := c'
    obtain rfl : rest' = _ := hv
    cases v with
    | nil => exact importEnd_closing hr
    | cons a v =>
      obtain ⟨hdouble, hsingle⟩ := hquote a (hsuffix.subset List.mem_cons_self)
      have hboth : ∀ q, (a == q) = false → ∀ k' : Follow Part β,
          (quoted q).attempt ⟨before', pos', a :: v ++ '"' :: ';' :: '\n' :: r⟩ caps' k' = none :=
        fun q hq k' => if_neg (by simp [hq])
      exact congrArg₂ (Option.orElse · fun _ => ·) (hboth '"' hdouble _) (hboth '\'' hsingle _)
  refine attempt_run_none fun w w' hw hw' => ?_
  match w with
  | [] =>
    obtain rfl : _ = w' := hw
    rfl
  | [a] =>
    obtain ⟨-, rfl⟩ := List.cons.inj hw
    exact hclause _ _
  | a :: b :: w =>
    -- a specifier starts with neither a space nor a quote
    obtain ⟨c, v, htext⟩ := List.exists_cons_of_ne_nil s.ne_nil
    rw [htext] at hw
    obtain ⟨-, hw⟩ := List.cons.inj hw
    obtain ⟨rfl, -⟩ := List.cons.inj hw
    obtain ⟨hdouble, hsingle⟩ := hquote c (by rw [htext]; exact List.mem_cons_self)
    have hc := hw' c (by simp)
    rw [hdouble, hsingle, s.head c (by rw [htext]; rfl)] at hc
    cases hc

/-! ## Lines -/

/-- What is remembered of a line that starts at an offset: its specifier and its clause. -/
def writtenParts (pos : Nat) (d : ImportLine) : Captures Part :=
  let start := pos + 7 + Text.byteLength d.front + 1
  (.specifier, ⟨start, start + Text.byteLength d.specifier.text⟩) ::
    match d.clause with
    | none => []
    | some c => [(.clause, ⟨pos + 7, pos + 7 + Text.byteLength c.text + 1⟩)]

/-- Behind the first word of a line its clause and its specifier are found. -/
theorem behind_import (d : ImportLine) {r : List Char} (hr : Follows r) (hk : Succeeds k) :
    (orNothing clauseGroup).attempt ⟨before, pos + 7, d.front ++ '"' :: (d.specifier.text ++
      "\";\n".toList ++ r)⟩ [] (importEnd.followedBy k) =
        k ⟨some '\n', pos + 7 + Text.byteLength d.front + 1 +
          Text.byteLength d.specifier.text + 3, r⟩ (writtenParts pos d) := by
  obtain ⟨clause, s⟩ := d
  cases clause with
  | none =>
    have hgroup := @clauseGroup_bare β before (pos + 7) [] k s r hr
    have hend := @importEnd_written β before (pos + 7) [] k s r hr hk
    have hbare : (clauseGroup.attempt ⟨before, pos + 7, '"' :: (s.text ++ "\";\n".toList ++ r)⟩ []
        (importEnd.followedBy k)) = none := by
      rw [← hgroup, List.append_assoc]
      rfl
    exact (congrArg (Option.orElse · _) hbare).trans hend
  | some c =>
    have hend := fun before => @importEnd_written β before (pos + 7 + Text.byteLength c.text + 6)
      [(.clause, ⟨pos + 7, pos + 7 + Text.byteLength c.text + 1⟩)] k s r hr hk
    have hsome := (congrArg Option.isSome (hend (some ' '))).trans (hk _ _)
    have hgroup := @clauseGroup_written β before (pos + 7) [] (importEnd.followedBy k) _ c.tidy c.calm
      (s.text ++ "\";\n".toList ++ r) hsome
    have hfront : Text.byteLength (c.text ++ " from ".toList) = Text.byteLength c.text + 6 :=
      Text.byteLength_append _ _
    have hfound := hgroup.trans (hend (some ' '))
    simp only [writtenParts, ImportLine.front, hfront, ← Nat.add_assoc]
    rw [← hfound, List.append_assoc c.text]
    exact orElse_eq_left (.inr ((congrArg Option.isSome hgroup).trans hsome))

/-- Behind the space a clause or a quote starts. -/
theorem isSpace_behind (d : ImportLine) (r : List Char) :
    ∀ c ∈ (d.behind r).head?, Ascii.isSpace c = false := by
  obtain ⟨clause, s⟩ := d
  cases clause with
  | none =>
    rintro c ⟨⟩
    rfl
  | some clause =>
    intro c hc
    have hhead : (clause.text ++ (" from ".toList ++ '"' :: (s.text ++ "\";\n".toList ++ r))).head? =
        some c := (congrArg List.head? (List.append_assoc _ _ _)).symm.trans hc
    rw [List.head?_append_of_ne_nil _ clause.tidy.ne_nil] at hhead
    refine Bool.eq_false_iff.2 fun h => clause.tidy.head ?_
    rw [hhead, eq_of_isCalm_of_isSpace (clause.calm c (List.mem_of_mem_head? hhead)) h]

/-- **A line is found as a whole**, with its parts. -/
theorem staticImport_written (d : ImportLine) {r : List Char} (hr : Follows r)
    (before : Option Char) (pos : Nat) :
    staticImport.matchAt? ⟨before, pos, d.text ++ r⟩ =
      some ⟨⟨before, pos, d.text ++ r⟩, ⟨some '\n', pos + Text.byteLength d.text, r⟩,
        writtenParts pos d⟩ := by
  rw [ImportLine.text_append_eq, ImportLine.byteLength_text]
  let final : Follow Part (Match Part) := fun back captures =>
    some ⟨⟨before, pos, "import".toList ++ ([' '] ++ d.behind r)⟩, back, captures⟩
  let grouping : Follow Part (Match Part) := fun c caps =>
    (orNothing clauseGroup).attempt c caps (importEnd.followedBy final)
  have hgrouping : grouping ⟨some ' ', pos + 7, d.behind r⟩ [] = final _ _ :=
    behind_import d hr fun c caps => rfl
  have hspaces : spaces.attempt ⟨some 't', pos + 6, [' '] ++ d.behind r⟩ [] grouping =
      grouping ⟨some ' ', pos + 7, d.behind r⟩ [] :=
    attempt_run (List.all_eq_true.1 (by decide)) (isSpace_behind d r) (congrArg Option.isSome hgrouping)
  have hword : (word "import").attempt
      ⟨before, pos, "import".toList ++ ([' '] ++ d.behind r)⟩ [] (spaces.followedBy grouping) =
        spaces.attempt ⟨some 't', pos + 6, [' '] ++ d.behind r⟩ [] grouping :=
    attempt_literal "import".toList _
  refine (hword.trans (hspaces.trans hgrouping)).trans ?_
  simp only [final, ← Nat.add_assoc]

end Shape

/-! ## Sources -/

namespace StaticImport

/-- A record says what is written in the line that starts at an offset. -/
structure ReadsLine (offset : Nat) (d : ImportLine) (r : StaticImport) : Prop where
  specifier : r.specifier.text = d.specifier.text
  clause : r.clause = (d.clause.map fun c => c.text ++ [' ']).getD []
  span : r.span = ⟨offset, offset + Text.byteLength d.text⟩

/-- Records say what is written in the lines from an offset on, one for each line. -/
inductive ReadsLines : Nat → List ImportLine → List StaticImport → Prop
  | nil {offset} : ReadsLines offset [] []
  | cons {offset d r ds rs} : ReadsLine offset d r →
      ReadsLines (offset + Text.byteLength d.text) ds rs → ReadsLines offset (d :: ds) (r :: rs)

theorem follows_source (ds : List ImportLine) : Shape.Follows (ImportLine.source ds) := by
  intro c hc
  cases ds with
  | nil => cases hc
  | cons d ds =>
    have hline : ImportLine.source (d :: ds) = _ := ImportLine.text_append_eq d (ImportLine.source ds)
    rw [hline] at hc
    exact (Option.some.inj hc).symm

/-- The match of a line gives the record of the line. -/
theorem ofMatch?_written {source front r : List Char} {d : ImportLine} {before : Option Char}
    (hsource : source = front ++ (d.text ++ r)) :
    ∃ record, ofMatch? .value source ⟨⟨before, Text.byteLength front, d.text ++ r⟩,
        ⟨some '\n', Text.byteLength front + Text.byteLength d.text, r⟩,
        Shape.writtenParts (Text.byteLength front) d⟩ = some record ∧
      ReadsLine (Text.byteLength front) d record := by
  have hassoc : ∀ x y z w : List Char, front ++ (x ++ y ++ ['"'] ++ z ++ w ++ r) =
      front ++ x ++ y ++ ['"'] ++ (z ++ (w ++ r)) := by simp
  obtain ⟨clause, s⟩ := d
  have hspecifier : (⟨Text.byteLength front + 7 + Text.byteLength (ImportLine.front ⟨clause, s⟩) + 1,
      Text.byteLength front + 7 + Text.byteLength (ImportLine.front ⟨clause, s⟩) + 1 +
        Text.byteLength s.text⟩ : Span).Covers source s.text := by
    have hwidth : Text.byteLength (front ++ "import ".toList ++ ImportLine.front ⟨clause, s⟩ ++
        ['"']) = Text.byteLength front + 7 + Text.byteLength (ImportLine.front ⟨clause, s⟩) + 1 := by
      have himport : Text.byteLength "import ".toList = 7 := rfl
      have hquote : Text.byteLength ['"'] = 1 := rfl
      simp only [Text.byteLength_append]
      omega
    exact ⟨_, _, hsource.trans (hassoc _ _ _ _), hwidth.symm, by rw [hwidth]⟩
  refine ⟨_, rfl, hspecifier.text_eq, ?_, rfl⟩
  cases clause with
  | none => rfl
  | some c =>
    have hclause : (⟨Text.byteLength front + 7,
        Text.byteLength front + 7 + Text.byteLength c.text + 1⟩ : Span).Covers source
          (c.text ++ [' ']) := by
      have hassoc' : ∀ x y z w v : List Char, front ++ (x ++ (y ++ ' ' :: z) ++ ['"'] ++ w ++ v ++ r) =
          front ++ x ++ (y ++ [' '] ++ (z ++ ['"'] ++ w ++ v ++ r)) := by simp
      have hwidth : Text.byteLength (front ++ "import ".toList) = Text.byteLength front + 7 :=
        Text.byteLength_append _ _
      have hspace : Text.byteLength (c.text ++ [' ']) = Text.byteLength c.text + 1 :=
        Text.byteLength_append _ _
      exact ⟨_, _, hsource.trans (hassoc' _ c.text "from ".toList _ _), hwidth.symm,
        by rw [hwidth, hspace, Nat.add_assoc _ (Text.byteLength c.text)]⟩
    exact hclause.text_eq

/-- **The lines of a source are found one by one**, each as a whole. -/
theorem candidates_behind {source front : List Char} {ds : List ImportLine} {before : Option Char}
    (hsource : source = front ++ ImportLine.source ds) (hbefore : before.all (· == '\n') = true)
    {n : Nat} (hn : (ImportLine.source ds).length < n) :
    ReadsLines (Text.byteLength front) ds
      ((Shape.staticImport.selectFrom startsStatement n
        ⟨before, Text.byteLength front, ImportLine.source ds⟩).filterMap (ofMatch? .value source)) := by
  induction ds generalizing front before with
  | nil =>
    have hnone : Shape.staticImport.matchAt? ⟨before, Text.byteLength front, []⟩ = none := rfl
    rw [selectFrom_eq hn]
    exact .nil
  | cons d ds ih =>
    have hline : ImportLine.source (d :: ds) = d.text ++ ImportLine.source ds := rfl
    rw [hline] at hsource hn ⊢
    have hmatch := Shape.staticImport_written d (follows_source ds) before (Text.byteLength front)
    obtain ⟨record, hrecord, hreads⟩ := @ofMatch?_written _ _ _ _ before hsource
    have hsize := ImportLine.byteLength_text d
    have hrest := @ih (front ++ d.text) (some '\n') (by rw [hsource, List.append_assoc]) rfl (by
      rw [List.length_append] at hn
      omega)
    rw [Text.byteLength_append] at hrest
    have haccept : startsStatement ⟨⟨before, Text.byteLength front, d.text ++ ImportLine.source ds⟩,
        ⟨some '\n', Text.byteLength front + Text.byteLength d.text, ImportLine.source ds⟩,
        Shape.writtenParts (Text.byteLength front) d⟩ = true := by
      cases before with
      | none => rfl
      | some c =>
        obtain rfl : c = '\n' := by simpa using hbefore
        rfl
    have hlt : Text.byteLength front < Text.byteLength front + Text.byteLength d.text := by omega
    rw [selectFrom_eq hn, hmatch, Option.filter_some, if_pos haccept]
    dsimp only
    rw [Match.resume?, if_pos hlt, Option.map_some, Option.getD_some,
      List.filterMap_cons_some hrecord]
    exact .cons hreads hrest

/-- The candidates of a source that consists of lines are its lines. -/
theorem candidates_written (ds : List ImportLine) :
    ReadsLines 0 ds (candidates (ImportLine.source ds)) :=
  @candidates_behind _ [] _ _ rfl rfl _ (Nat.lt_succ_self _)

end StaticImport

end EsModules
