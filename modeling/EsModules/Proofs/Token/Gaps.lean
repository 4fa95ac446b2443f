import EsModules.Proofs.Text.Edit
import EsModules.Proofs.Token.Tiling

/-!
# Gaps between tokens

What stands between two tokens is made of spaces and comments.

* `Gap`: a text made of spaces and comments, with the places of the comments and the spaces that
  are left without them.
* `Lexer.trivia_gap`, `Lexer.start_gap`: what is skipped in front of a token, and a first line that
  is a comment.
* `Gap.covers`: a comment covers a text of the source.
* `Lexer.Run.forall_comments`: what holds of the comments that are skipped at any place holds of
  those of a run.
-/

namespace EsModules

/-! ## Gaps -/

/-- A text from an offset on that is made of spaces and comments, with the comments, and with what
is left of it without them. -/
inductive Gap : Nat → List Char → List Span → List Char → Prop
  | nil {pos : Nat} : Gap pos [] [] []
  | space {pos : Nat} {c : Char} {gap blanks : List Char} {cs : List Span} : isSpace c = true →
      Gap (pos + c.utf8Size) gap cs blanks → Gap pos (c :: gap) cs (c :: blanks)
  | comment {pos stop : Nat} {text gap blanks : List Char} {cs : List Span} :
      stop = pos + Text.byteLength text → Gap stop gap cs blanks →
      Gap pos (text ++ gap) (⟨pos, stop⟩ :: cs) blanks

namespace Gap

variable {pos : Nat} {gap blanks : List Char} {cs : List Span}

/-- Only spaces are left of a gap without its comments. -/
theorem isSpace_of_mem (h : Gap pos gap cs blanks) : ∀ c ∈ blanks, isSpace c = true := by
  induction h with
  | nil => exact fun c hc => absurd hc List.not_mem_nil
  | space hspace _ ih =>
    intro c hc
    rcases List.mem_cons.1 hc with rfl | hc
    · exact hspace
    · exact ih c hc
  | comment _ _ ih => exact ih

/-- The comments of a gap cover texts of the source. -/
theorem covers (h : Gap pos gap cs blanks) {source front back : List Char}
    (hs : source = front ++ (gap ++ back)) (hpos : pos = Text.byteLength front) :
    ∀ s ∈ cs, ∃ text, s.Covers source text := by
  induction h generalizing front with
  | nil => exact fun s hs => absurd hs List.not_mem_nil
  | @space pos c gap blanks cs _ _ ih =>
    have hs' : source = (front ++ [c]) ++ (gap ++ back) := by
      rw [hs]
      simp
    refine ih hs' ?_
    rw [hpos, Text.byteLength_append]
    rfl
  | @comment pos stop text gap blanks cs hstop _ ih =>
    intro s hmem
    rcases List.mem_cons.1 hmem with rfl | hmem
    · exact ⟨text, front, gap ++ back, by rw [hs, List.append_assoc], hpos, hpos ▸ hstop⟩
    · have hs' : source = (front ++ text) ++ (gap ++ back) := by
        rw [hs]
        simp
      refine ih hs' ?_ s hmem
      rw [hstop, hpos, Text.byteLength_append]

end Gap

/-! ## What the lexer skips -/

namespace Lexer

/-- What is skipped in front of a token is a gap. -/
theorem trivia_gap {pos : Nat} {input : List Char} (h : (trivia pos input).unclosed = none) :
    ∃ gap blanks, input = gap ++ (trivia pos input).rest ∧
      (trivia pos input).pos = pos + Text.byteLength gap ∧
      Gap pos gap (trivia pos input).comments blanks := by
  fun_induction trivia pos input with
  | case1 pos => exact ⟨[], [], rfl, rfl, .nil⟩
  | case2 pos r x t ih =>
    obtain ⟨gap, blanks, hgap, hpos, hgaps⟩ := ih h
    have hsplit : x.text ++ x.rest = '/' :: '/' :: r := by
      simp [x, Scan.prepend, scanLineComment, Scan.takeWhile_text_append_rest]
    refine ⟨x.text ++ gap, blanks, ?_, ?_, .comment rfl hgaps⟩
    · rw [List.append_assoc, ← hgap, hsplit]
    · rw [hpos, Text.byteLength_append, ← Nat.add_assoc]
      rfl
  | case3 pos r body x hclosed t ih =>
    obtain ⟨gap, blanks, hgap, hpos, hgaps⟩ := ih h
    have hsplit : x.text ++ x.rest = '/' :: '*' :: r := by
      simp [x, body, Scan.prepend, scanBlockComment_text_append_rest]
    have hpast : x.past = 0 := scanBlockComment_past r
    have hwidth : pos + x.width = pos + Text.byteLength x.text := by
      rw [Scan.width, hpast, Nat.add_zero]
    refine ⟨x.text ++ gap, blanks, ?_, ?_, .comment hwidth hgaps⟩
    · rw [List.append_assoc, ← hgap, hsplit]
    · rw [hpos, Text.byteLength_append, ← Nat.add_assoc, hwidth]
  | case4 => cases h
  | case5 pos c r hline hblock hspace ih =>
    obtain ⟨gap, blanks, hgap, hpos, hgaps⟩ := ih h
    refine ⟨c :: gap, c :: blanks, ?_, ?_, .space hspace hgaps⟩
    · rw [List.cons_append, ← hgap]
    · rw [hpos, Text.byteLength_cons]
      omega
  | case6 pos c r => exact ⟨[], [], rfl, rfl, .nil⟩

/-- A first line that is a comment is a gap. -/
theorem start_gap (source : List Char) :
    ∃ gap, source = gap ++ (start source).rest ∧ (start source).pos = Text.byteLength gap ∧
      Gap 0 gap (start source).commentPlaces [] ∧ (start source).owed = 0 := by
  unfold start
  dsimp only
  split
  · rename_i rest
    have hsplit : (scanLineComment ('#' :: '!' :: rest)).text
        ++ (scanLineComment ('#' :: '!' :: rest)).rest = '#' :: '!' :: rest :=
      Scan.takeWhile_text_append_rest _ _
    refine ⟨_, hsplit.symm, by simp [advance, scanLineComment, Scan.takeWhile, Scan.width], ?_, rfl⟩
    have hgap : Gap 0 ((scanLineComment ('#' :: '!' :: rest)).text ++ [])
        [⟨0, (scanLineComment ('#' :: '!' :: rest)).width⟩] [] :=
      .comment (Nat.zero_add _).symm .nil
    rwa [List.append_nil] at hgap
  · exact ⟨[], rfl, rfl, .nil, rfl⟩

/-! ## Comments of a run -/

variable {source : List Char} {P : Span → Prop} {l l' : Lexer} {t : Token}

/-- What holds of the comments that are skipped wherever the lexer stands between two characters
holds of those that are known behind a place. -/
theorem Stands.forall_skip (hP : ∀ front rest, source = front ++ rest →
      (trivia (Text.byteLength front) rest).unclosed = none →
      ∀ s ∈ (trivia (Text.byteLength front) rest).comments, P s)
    (h : Stands source l) (howed : l.owed = 0) (hclosed : (trivia l.pos l.rest).unclosed = none)
    (hcomments : ∀ s ∈ l.commentPlaces, P s) : ∀ s ∈ l.skip.commentPlaces, P s := by
  intro s hmem
  rcases List.mem_append.1 hmem with hmem | hmem
  · exact hcomments s hmem
  · cases h with
    | between taken hs hp _ =>
      rw [hp] at hmem hclosed
      exact hP taken l.rest hs hclosed s hmem
    | inside _ _ _ _ _ hpos => omega
    | beyond hrest _ _ =>
      rw [hrest, trivia] at hmem
      exact absurd hmem List.not_mem_nil

theorem Gives.forall_comments (hP : ∀ front rest, source = front ++ rest →
      (trivia (Text.byteLength front) rest).unclosed = none →
      ∀ s ∈ (trivia (Text.byteLength front) rest).comments, P s)
    (h : Gives l t l') (hplace : Stands source l) (hcomments : ∀ s ∈ l.commentPlaces, P s) :
    ∀ s ∈ l'.commentPlaces, P s := by
  cases h with
  | owed => exact hcomments
  | eof howed hclosed hreads =>
    rw [hreads.commentPlaces]
    exact hplace.forall_skip hP howed hclosed hcomments
  | @read k l'' howed hclosed _ hreads =>
    show ∀ s ∈ l''.commentPlaces, P s
    rw [hreads.commentPlaces]
    exact hplace.forall_skip hP howed hclosed hcomments

theorem Run.forall_comments (hP : ∀ front rest, source = front ++ rest →
      (trivia (Text.byteLength front) rest).unclosed = none →
      ∀ s ∈ (trivia (Text.byteLength front) rest).comments, P s)
    {ts : List Token} (h : Run l ts l') (hplace : Stands source l)
    (hcomments : ∀ s ∈ l.commentPlaces, P s) : ∀ s ∈ l'.commentPlaces, P s := by
  induction h with
  | done hgives => exact hgives.forall_comments hP hplace hcomments
  | step hgives hk _ ih =>
    exact ih (hgives.tiles hk hplace).1 (hgives.forall_comments hP hplace hcomments)

end Lexer

end EsModules
