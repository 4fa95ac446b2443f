import EsModules.Proofs.Declaration.WrittenClause

/-!
# Spaces and comments in clauses

A clause is tidied up by cutting its comments out and putting one space for each run of them.  A
comment goes up to the end of its line, or up to the last mark on its line that closes comments; so
it is cut out alone if it is of one line and no such mark follows it there.

* `GapPiece`: a space, or comments of one line with nothing but spaces between them.
* `GapPiece.isCut`: whether what follows the comments of a gap leaves them alone.
* `Bindings.tidy_laid`: a clause with such gaps between its tokens is tidied up to the same tokens,
  with one space for each gap that has any.
-/

namespace EsModules

open Pattern

/-! ## Gaps -/

/-- What stands between the marks of a block comment of one line. -/
structure BlockBody where
  /-- Its text. -/
  text : List Char
  inLine : '\n' ∉ text
  closed : ¬ "*/".toList <:+: text

/-- Spaces of one line. -/
structure LineSpaces where
  /-- Their text. -/
  text : List Char
  isSpace : ∀ c ∈ text, Ascii.isSpace c = true
  inLine : '\n' ∉ text

/-- A piece of what stands between two tokens: a space, a comment up to the end of its line, or
block comments of one line, each behind the spaces that stand between it and the one before. -/
inductive GapPiece
  | space (c : Char) (isSpace : Ascii.isSpace c = true)
  | line (body : List Char) (inLine : '\n' ∉ body)
  | blocks (first : BlockBody) (more : List (LineSpaces × BlockBody))

namespace GapPiece

/-- What stands between the first mark of block comments and the last. -/
def inner (first : BlockBody) (more : List (LineSpaces × BlockBody)) : List Char :=
  first.text ++ more.flatMap fun m => "*/".toList ++ m.1.text ++ "/*".toList ++ m.2.text

/-- The text of a piece. -/
def text : GapPiece → List Char
  | space c _ => [c]
  | line body _ => "//".toList ++ (body ++ ['\n'])
  | blocks first more => "/*".toList ++ (inner first more ++ "*/".toList)

/-- The spaces that are left of a piece without comments. -/
def left : GapPiece → List Char
  | space c _ => [c]
  | line _ _ | blocks _ _ => []

/-- The text of pieces in a row. -/
def texts (g : List GapPiece) : List Char := g.flatMap text

/-- The spaces that are left of pieces in a row. -/
def lefts (g : List GapPiece) : List Char := g.flatMap left

/-- One space for pieces with any space that is left. -/
def squeezed (g : List GapPiece) : List Char := if lefts g = [] then [] else [' ']

/-- Whether no mark that closes comments stands on the first line of a text. -/
def endsNoComment (rest : List Char) : Bool :=
  !Text.contains "*/".toList (rest.takeWhile isInLine)

/-- Whether comments are cut out of a gap alone: behind each block comment, or several with only
spaces between them, no further mark that closes comments stands on the line. -/
def isCut : List GapPiece → List Char → Bool
  | [], _ => true
  | blocks _ _ :: g, behind => endsNoComment (texts g ++ behind) && isCut g behind
  | _ :: g, behind => isCut g behind

/-- Within the line no comment ends further on than the one in front. -/
theorem not_begins_of_endsNoComment {rest : List Char} (h : endsNoComment rest = true)
    {w w' : List Char} (hw : '*' :: '/' :: rest = w ++ w') (hne : w ≠ [])
    (hline : ∀ a ∈ w, isInLine a = true) : ¬ ['*', '/'] <+: w' := by
  rintro ⟨behind, rfl⟩
  obtain ⟨a, w, rfl⟩ := List.exists_cons_of_ne_nil hne
  obtain ⟨-, hw⟩ := List.cons.inj hw
  cases w with
  | nil => cases hw
  | cons b v =>
    have hw : rest = v ++ (['*', '/'] ++ behind) := (List.cons.inj hw).2
    have hv : ∀ a ∈ v ++ ['*', '/'], isInLine a = true :=
      List.forall_mem_append.2
        ⟨fun c hc => hline c (by simp [hc]), Text.forall_mem_of_all (by decide)⟩
    have hbegins : v ++ ['*', '/'] <+: rest.takeWhile isInLine := by
      rw [hw, ← List.append_assoc, List.takeWhile_append_of_pos hv]
      exact List.prefix_append _ _
    have hfound := Text.contains_of_infix
      ((List.suffix_append v ['*', '/']).isInfix.trans hbegins.isInfix)
    unfold endsNoComment at h
    rw [show "*/".toList = ['*', '/'] from rfl, hfound] at h
    cases h

theorem isSpace_of_mem_lefts {g : List GapPiece} {c : Char} (hc : c ∈ lefts g) :
    Ascii.isSpace c = true := by
  obtain ⟨p, -, hp⟩ := List.mem_flatMap.1 hc
  cases p with
  | space d hspace =>
    rw [List.mem_singleton.1 hp]
    exact hspace
  | line | blocks => cases hp

theorem inLine_inner (first : BlockBody) (more : List (LineSpaces × BlockBody)) :
    '\n' ∉ inner first more := by
  simp only [inner, List.mem_append, List.mem_flatMap, not_or, not_exists, not_and]
  exact ⟨first.inLine, fun m _ => ⟨⟨⟨by decide, m.1.inLine⟩, by decide⟩, m.2.inLine⟩⟩

end GapPiece

/-! ## Cutting comments out -/

namespace Shape

/-- Where no slash stands there starts no comment. -/
theorem matchAt?_clauseComment_ne {before : Option Char} {pos : Nat} {rest : List Char}
    (h : rest.head? ≠ some '/') : clauseComment.matchAt? ⟨before, pos, rest⟩ = none := by
  let c : Cursor := ⟨before, pos, rest⟩
  have hline : ∀ k : Follow Part (Match Part), (word "//").attempt c [] k = none :=
    fun k => attempt_literal_ne h
  have hblock : ∀ k : Follow Part (Match Part), (word "/*").attempt c [] k = none :=
    fun k => attempt_literal_ne h
  exact congrArg₂ (Option.orElse · fun _ => ·) (hline _) (hblock _)

theorem isInLine_of_notMem {x : List Char} (h : '\n' ∉ x) : ∀ c ∈ x, isInLine c = true := by
  intro c hc
  have hne : c ≠ '\n' := fun heq => h (heq ▸ hc)
  simpa [isInLine] using hne

/-- A comment up to the end of its line is cut out with the line feed. -/
theorem matchAt?_line {body : List Char} (hbody : '\n' ∉ body) (before : Option Char) (pos : Nat)
    (rest : List Char) :
    clauseComment.matchAt? ⟨before, pos, ("//".toList ++ (body ++ ['\n'])) ++ rest⟩ =
      some ⟨⟨before, pos, ("//".toList ++ (body ++ ['\n'])) ++ rest⟩,
        .past before pos ("//".toList ++ (body ++ ['\n'])) rest, []⟩ := by
  let c : Cursor := ⟨before, pos, ("//".toList ++ (body ++ ['\n'])) ++ rest⟩
  let found : Follow Part (Match Part) := fun back captures => some ⟨c, back, captures⟩
  let ending : Follow Part (Match Part) := fun c' caps =>
    (char (· == '\n')).attempt c' caps found
  let inLine : Follow Part (Match Part) := fun c' caps => (run isInLine).attempt c' caps ending
  have hword : (word "//").attempt c [] inLine =
      inLine (.past before pos "//".toList (body ++ '\n' :: rest)) [] := by
    have hsplit : c = ⟨before, pos, "//".toList ++ (body ++ '\n' :: rest)⟩ := by
      simp [c]
    rw [hsplit]
    exact attempt_literal _ _
  have hend : (ending (.past (some '/') (pos + 2) body ('\n' :: rest)) []) =
      found (.past before pos ("//".toList ++ (body ++ ['\n'])) rest) [] := by
    have hpast : Cursor.past before pos ("//".toList ++ (body ++ ['\n'])) rest =
        ⟨some '\n', pos + 2 + Text.byteLength body + 1, rest⟩ := by
      rw [Cursor.past_append, Cursor.past_append]
      rfl
    rw [hpast]
    rfl
  have hrun : inLine (.past before pos "//".toList (body ++ '\n' :: rest)) [] =
      ending (.past (some '/') (pos + 2) body ('\n' :: rest)) [] :=
    attempt_run (isInLine_of_notMem hbody) (by rintro a ⟨⟩; rfl) (congrArg Option.isSome hend)
  show Option.orElse ((word "//").attempt c [] inLine) _ = _
  rw [hword, hrun, hend]
  rfl

/-- Block comments of one line are cut out up to the last mark that closes one on that line. -/
theorem matchAt?_block {inner : List Char} (hinner : '\n' ∉ inner) {rest : List Char}
    (hrest : GapPiece.endsNoComment rest = true) (before : Option Char) (pos : Nat) :
    clauseComment.matchAt? ⟨before, pos, ("/*".toList ++ (inner ++ "*/".toList)) ++ rest⟩ =
      some ⟨⟨before, pos, ("/*".toList ++ (inner ++ "*/".toList)) ++ rest⟩,
        .past before pos ("/*".toList ++ (inner ++ "*/".toList)) rest, []⟩ := by
  let c : Cursor := ⟨before, pos, ("/*".toList ++ (inner ++ "*/".toList)) ++ rest⟩
  let found : Follow Part (Match Part) := fun back captures => some ⟨c, back, captures⟩
  let ending : Follow Part (Match Part) := fun c' caps => (word "*/").attempt c' caps found
  let inLine : Follow Part (Match Part) := fun c' caps => (run isInLine).attempt c' caps ending
  have hline : (word "//" ++ run isInLine ++ char (· == '\n')).attempt c [] found = none := rfl
  have hword : (word "/*").attempt c [] inLine =
      inLine (.past before pos "/*".toList (inner ++ ("*/".toList ++ rest))) [] := by
    have hsplit : c = ⟨before, pos, "/*".toList ++ (inner ++ ("*/".toList ++ rest))⟩ := by
      simp [c]
    rw [hsplit]
    exact attempt_literal _ _
  have hend : ending (.past (some '*') (pos + 2) inner ("*/".toList ++ rest)) [] =
      found (.past before pos ("/*".toList ++ (inner ++ "*/".toList)) rest) [] := by
    have hpast : Cursor.past before pos ("/*".toList ++ (inner ++ "*/".toList)) rest =
        .past (inner.getLast?.or (some '*')) (pos + 2 + Text.byteLength inner) "*/".toList
          rest := by
      rw [Cursor.past_append, Cursor.past_append]
      rfl
    rw [hpast]
    exact attempt_literal _ _
  -- further on in the line no comment ends
  have hstop : ∀ w w', "*/".toList ++ rest = w ++ w' → w ≠ [] →
      (∀ a ∈ w, isInLine a = true) →
        ending (.past (some '*') (pos + 2) (inner ++ w) w') [] = none := by
    exact fun w w' hw hne htest => attempt_literal_not
      (GapPiece.not_begins_of_endsNoComment hrest hw hne htest)
  have hrun : inLine (.past before pos "/*".toList (inner ++ ("*/".toList ++ rest))) [] =
      ending (.past (some '*') (pos + 2) inner ("*/".toList ++ rest)) [] :=
    attempt_run_back (isInLine_of_notMem hinner) hstop (congrArg Option.isSome hend)
  have hfound : (word "/*").attempt c [] inLine = _ := hword.trans (hrun.trans hend)
  exact congrArg₂ (Option.orElse · fun _ => ·) hline hfound

end Shape

/-! ## Tidying up -/

/-- Texts, each behind a gap, and a gap behind the last. -/
def laid {γ : Type} (render : γ → List Char) (ps : List (γ × List Char)) (trail : γ) : List Char :=
  ps.flatMap (fun p => render p.1 ++ p.2) ++ render trail

theorem laid_cons {γ : Type} (render : γ → List Char) (g : γ) (t : List Char)
    (ps : List (γ × List Char)) (trail : γ) :
    laid render ((g, t) :: ps) trail = render g ++ (t ++ laid render ps trail) := by
  simp [laid]

/-- A text that stands between gaps: it has neither a space nor a slash. -/
structure IsToken (t : List Char) : Prop where
  ne_nil : t ≠ []
  bare : ∀ c ∈ t, c ≠ '/' ∧ Ascii.isSpace c = false

open GapPiece

/-- Whether comments are cut out of each gap alone. -/
def areCut : List (List GapPiece × List Char) → List GapPiece → Bool
  | [], trail => isCut trail []
  | (g, t) :: ps, trail => isCut g (t ++ laid texts ps trail) && areCut ps trail

/-- Cutting comments out of a gap leaves its spaces. -/
theorem replaces_gap {g : List GapPiece} {rest out : List Char} (h : isCut g rest = true)
    (more : Shape.clauseComment.Replaces [] rest out) :
    Shape.clauseComment.Replaces [] (texts g ++ rest) (lefts g ++ out) := by
  induction g with
  | nil => exact more
  | cons p g ih =>
    have htexts : texts (p :: g) ++ rest = p.text ++ (texts g ++ rest) := by simp [texts]
    have hlefts : lefts (p :: g) ++ out = p.left ++ (lefts g ++ out) := by simp [lefts]
    rw [htexts, hlefts]
    cases p with
    | space c hspace =>
      have hne : c ≠ '/' := by
        rintro rfl
        cases hspace
      exact .keep (fun before pos => Shape.matchAt?_clauseComment_ne (by simpa using hne)) (ih h)
    | line body hbody =>
      exact .swap (by simp [text]) (fun before pos => ⟨[], Shape.matchAt?_line hbody before pos _⟩)
        (ih h)
    | blocks first more =>
      obtain ⟨hends, hcut⟩ := Bool.and_eq_true_iff.1 h
      exact .swap (by simp [text]) (fun before pos =>
        ⟨[], Shape.matchAt?_block (inLine_inner first more) hends before pos⟩) (ih hcut)

theorem replaces_comments {ps : List (List GapPiece × List Char)} {trail : List GapPiece}
    (hps : ∀ p ∈ ps, IsToken p.2) (h : areCut ps trail = true) :
    Shape.clauseComment.Replaces [] (laid texts ps trail) (laid lefts ps trail) := by
  induction ps with
  | nil =>
    have hend : Shape.clauseComment.Replaces [] [] [] :=
      .done fun before pos => Shape.matchAt?_clauseComment_ne (by simp)
    have hgap := replaces_gap h hend
    rwa [List.append_nil, List.append_nil] at hgap
  | cons p ps ih =>
    obtain ⟨g, t⟩ := p
    obtain ⟨htoken, hps⟩ := List.forall_mem_cons.1 hps
    obtain ⟨hcut, hrest⟩ := Bool.and_eq_true_iff.1 h
    rw [laid_cons, laid_cons]
    refine replaces_gap hcut (.keep_all (fun a ha before pos rest => ?_) (ih hps hrest))
    exact Shape.matchAt?_clauseComment_ne (by simpa using (htoken.bare a ha).1)

/-- A run of spaces becomes one space. -/
theorem replaces_spaces {x rest out : List Char} (hx : ∀ c ∈ x, Ascii.isSpace c = true)
    (hrest : ∀ c ∈ rest.head?, Ascii.isSpace c = false)
    (more : (spaces1 : Pattern Part).Replaces [' '] rest out) :
    (spaces1 : Pattern Part).Replaces [' '] (x ++ rest)
      ((if x = [] then [] else [' ']) ++ out) := by
  cases x with
  | nil => exact more
  | cons a x =>
    obtain ⟨ha, hx⟩ := List.forall_mem_cons.1 hx
    refine .swap (List.cons_ne_nil a x) (fun before pos => ⟨[], ?_⟩) more
    let found : Follow Part (Match Part) := fun back captures =>
      some ⟨⟨before, pos, a :: x ++ rest⟩, back, captures⟩
    have hrun : (run Ascii.isSpace).attempt ⟨some a, pos + a.utf8Size, x ++ rest⟩ [] found =
        found (.past (some a) (pos + a.utf8Size) x rest) [] := attempt_run hx hrest rfl
    rw [Cursor.past_cons]
    exact (if_pos ha).trans hrun

theorem replaces_squeezed {ps : List (List GapPiece × List Char)} {trail : List GapPiece}
    (hps : ∀ p ∈ ps, IsToken p.2) :
    (spaces1 : Pattern Part).Replaces [' '] (laid lefts ps trail) (laid squeezed ps trail) := by
  have hspace (g : List GapPiece) : ∀ c ∈ lefts g, Ascii.isSpace c = true :=
    fun c hc => isSpace_of_mem_lefts hc
  induction ps with
  | nil =>
    have hend : (spaces1 : Pattern Part).Replaces [' '] [] [] := .done fun _ _ => rfl
    have hgap := replaces_spaces (hspace trail) (by rintro c ⟨⟩) hend
    rwa [List.append_nil, List.append_nil] at hgap
  | cons p ps ih =>
    obtain ⟨g, t⟩ := p
    obtain ⟨htoken, hps⟩ := List.forall_mem_cons.1 hps
    rw [laid_cons, laid_cons]
    refine replaces_spaces (hspace g) (fun c hc => ?_)
      (.keep_all (fun a ha before pos rest => ?_) (ih hps))
    · rw [List.head?_append_of_ne_nil _ htoken.ne_nil] at hc
      exact (htoken.bare c (List.mem_of_mem_head? hc)).2
    · exact if_neg (by simp [(htoken.bare a ha).2])

/-- **Tidying up** texts between gaps leaves the texts, and one space for each gap with a space. -/
theorem Bindings.tidy_laid {ps : List (List GapPiece × List Char)} {trail : List GapPiece}
    (hps : ∀ p ∈ ps, IsToken p.2) (h : areCut ps trail = true) :
    tidy (laid texts ps trail) = laid squeezed ps trail := by
  unfold tidy
  rw [(replaces_comments hps h).replaceAll_eq]
  exact (replaces_squeezed hps).replaceAll_eq

end EsModules
