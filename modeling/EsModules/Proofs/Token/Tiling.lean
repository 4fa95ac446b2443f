import EsModules.Proofs.Token.Run
import Mathlib.Algebra.Group.Nat.Defs
import Mathlib.Control.Monad.Basic

/-!
# Tokens and comments tile the source

Cutting up a source loses no byte and counts none twice: the tokens and comments follow one another
from the front to the back without overlapping, none is empty, and what lies between them is made
of spaces.

* `Blank`: a byte of a source belongs to a space.
* `Tiles`: lexemes cover a source from an offset on, up to blanks between them.
* `Lexer.Gives.tiles`, `Lexer.Run.tiles`: what a call adds to a tiling, and what a run makes of it.
* `exists_tiles_of_lexemize`: the tokens and comments of a source are the two kinds of lexeme of one
  tiling.
* `tokenize_lossless`: what that says about the two lists.
-/

namespace EsModules

/-! ## Tilings -/

/-- Whether a byte of a source belongs to a space. -/
def Blank (source : List Char) (i : Nat) : Prop :=
  ∃ before c after, source = before ++ c :: after ∧ Text.byteLength before ≤ i ∧
    i < Text.byteLength before + c.utf8Size ∧ isSpace c = true

/-- A token or a comment. -/
inductive Lexeme
  | token (t : Token)
  | comment (s : Span)

namespace Lexeme

/-- The bytes that a lexeme covers. -/
def span : Lexeme → Span
  | token t => t.span
  | comment s => s

/-- A lexeme that is a token. -/
def token? : Lexeme → Option Token
  | token t => some t
  | comment _ => none

/-- A lexeme that is a comment. -/
def comment? : Lexeme → Option Span
  | token _ => none
  | comment s => some s

@[simp] theorem token?_token (t : Token) : (token t).token? = some t := rfl

@[simp] theorem token?_comment (s : Span) : (comment s).token? = none := rfl

@[simp] theorem comment?_token (t : Token) : (token t).comment? = none := rfl

@[simp] theorem comment?_comment (s : Span) : (comment s).comment? = some s := rfl

@[simp] theorem token?_comp_comment : token? ∘ comment = fun _ => none := rfl

@[simp] theorem comment?_comp_comment : comment? ∘ comment = some := rfl

end Lexeme

/-- Lexemes that follow one another from an offset on to the end of a source, with nothing but
blanks between them.  The last may end one byte behind the source. -/
inductive Tiles (source : List Char) : Nat → List Lexeme → Prop
  | nil {offset : Nat} : (∀ i, offset ≤ i → i < Text.byteLength source → Blank source i) →
      Tiles source offset []
  | cons {offset : Nat} {x : Lexeme} {xs : List Lexeme} :
      (∀ i, offset ≤ i → i < x.span.start → Blank source i) → offset ≤ x.span.start →
      x.span.start < x.span.stop → x.span.stop ≤ Text.byteLength source + 1 →
      Tiles source x.span.stop xs → Tiles source offset (x :: xs)

namespace Tiles

variable {source : List Char} {offset : Nat} {xs : List Lexeme}

/-- Blanks in front of a tiling belong to it. -/
theorem widen {front : Nat} (h : Tiles source offset xs) (hle : front ≤ offset)
    (hblank : ∀ i, front ≤ i → i < offset → Blank source i) : Tiles source front xs := by
  cases h with
  | nil hrest =>
    refine .nil fun i hi hlt => ?_
    by_cases ho : i < offset
    · exact hblank i hi ho
    · exact hrest i (by omega) hlt
  | cons hgap hstart hne hstop htail =>
    refine .cons (fun i hi hlt => ?_) (by omega) hne hstop htail
    by_cases ho : i < offset
    · exact hblank i hi ho
    · exact hgap i (by omega) hlt

theorem lt_of_mem (h : Tiles source offset xs) :
    ∀ x ∈ xs, offset ≤ x.span.start ∧ x.span.start < x.span.stop ∧
      x.span.stop ≤ Text.byteLength source + 1 := by
  induction h with
  | nil _ => intro x hx; cases hx
  | cons _ hstart hne hstop _ ih =>
    intro x hx
    rcases List.mem_cons.1 hx with rfl | hx
    · exact ⟨hstart, hne, hstop⟩
    · obtain ⟨h1, h2, h3⟩ := ih x hx
      exact ⟨by omega, h2, h3⟩

/-- Each lexeme of a tiling ends before the next begins. -/
theorem pairwise (h : Tiles source offset xs) :
    xs.Pairwise fun x y => x.span.stop ≤ y.span.start := by
  induction h with
  | nil _ => exact .nil
  | cons _ _ _ _ htail ih => exact .cons (fun y hy => (htail.lt_of_mem y hy).1) ih

/-- Of two lexemes, the one that does not start behind the other ends in front of it. -/
theorem stop_le (h : Tiles source offset xs) : ∀ x ∈ xs, ∀ y ∈ xs, x ≠ y →
    x.span.start ≤ y.span.start → x.span.stop ≤ y.span.start := by
  induction h with
  | nil _ => intro x hx; cases hx
  | cons _ _ _ _ htail ih =>
    intro x hx y hy hne hle
    rcases List.mem_cons.1 hx with rfl | hx'
    · rcases List.mem_cons.1 hy with rfl | hy'
      · exact absurd rfl hne
      · exact (htail.lt_of_mem y hy').1
    · rcases List.mem_cons.1 hy with rfl | hy'
      · have hstop := (htail.lt_of_mem x hx').1
        omega
      · exact ih x hx' y hy' hne hle

/-- Every byte behind the offset lies in a lexeme or belongs to a space. -/
theorem covers (h : Tiles source offset xs) {i : Nat} (hi : offset ≤ i)
    (hlt : i < Text.byteLength source) :
    (∃ x ∈ xs, x.span.start ≤ i ∧ i < x.span.stop) ∨ Blank source i := by
  induction h with
  | nil hrest => exact .inr (hrest i hi hlt)
  | @cons offset x xs hgap _ _ _ _ ih =>
    by_cases hfront : i < x.span.start
    · exact .inr (hgap i hi hfront)
    · by_cases hin : i < x.span.stop
      · exact .inl ⟨x, List.mem_cons_self, by omega, hin⟩
      · refine (ih (by omega)).imp_left ?_
        rintro ⟨y, hy, hcover⟩
        exact ⟨y, List.mem_cons_of_mem _ hy, hcover⟩

end Tiles

/-! ## What stands between two tokens -/

namespace Lexer

variable {source : List Char}

/-- A comment that is read in front of a text, followed by a tiling, is a tiling. -/
theorem tiles_comment {taken : List Char} {s : Scan} {xs : List Lexeme}
    (hs : source = taken ++ (s.text ++ s.rest)) (hpast : s.past = 0) (hne : s.text ≠ [])
    (h : Tiles source (Text.byteLength taken + s.width) xs) :
    Tiles source (Text.byteLength taken)
      (.comment ⟨Text.byteLength taken, Text.byteLength taken + s.width⟩ :: xs) := by
  obtain ⟨c, cs, hc⟩ := List.exists_cons_of_ne_nil hne
  have hpos := c.utf8Size_pos
  have hsize := congrArg Text.byteLength hs
  rw [Text.byteLength_append, Text.byteLength_append] at hsize
  refine .cons (fun i hi hlt => ?_) (Nat.le_refl _) ?_ ?_ h
  · exact absurd hlt (Nat.not_lt.2 hi)
  · show Text.byteLength taken < Text.byteLength taken + s.width
    simp only [Scan.width, hc, Text.byteLength_cons]
    omega
  · show Text.byteLength taken + s.width ≤ Text.byteLength source + 1
    simp only [Scan.width]
    omega

/-- Spaces and comments lead from one character of the source to another, and the comments
continue any tiling that starts behind them. -/
theorem trivia_tiles {pos : Nat} {taken input : List Char} (hs : source = taken ++ input)
    (hp : pos = Text.byteLength taken) (hclosed : (trivia pos input).unclosed = none) :
    ∃ taken', source = taken' ++ (trivia pos input).rest ∧
      (trivia pos input).pos = Text.byteLength taken' ∧
      ∀ xs, Tiles source (Text.byteLength taken') xs →
        Tiles source pos ((trivia pos input).comments.map .comment ++ xs) := by
  fun_induction trivia pos input generalizing taken with
  | case1 pos => exact ⟨taken, hs, hp, fun xs h => hp ▸ h⟩
  | case2 =>
    rename_i pos r s t ih
    have hsplit : s.text ++ s.rest = '/' :: '/' :: r := by
      simp [s, Scan.prepend, scanLineComment, Scan.takeWhile_text_append_rest]
    have hs' : source = (taken ++ s.text) ++ s.rest := by rw [List.append_assoc, hsplit, hs]
    have hp' : pos + s.width = Text.byteLength (taken ++ s.text) := by
      rw [Text.byteLength_append, hp]
      rfl
    obtain ⟨taken', hrest, hpos, htiles⟩ := ih hs' hp' hclosed
    refine ⟨taken', hrest, hpos, fun xs h => ?_⟩
    subst hp
    exact tiles_comment (by rw [hs, hsplit]) rfl (by simp [s, Scan.prepend]) (htiles xs h)
  | case3 =>
    rename_i pos r body s hbody t ih
    have hsplit : s.text ++ s.rest = '/' :: '*' :: r := by
      simp [s, body, Scan.prepend, scanBlockComment_text_append_rest]
    have hpast : s.past = 0 := scanBlockComment_past r
    have hs' : source = (taken ++ s.text) ++ s.rest := by rw [List.append_assoc, hsplit, hs]
    have hp' : pos + s.width = Text.byteLength (taken ++ s.text) := by
      rw [Text.byteLength_append, hp, Scan.width, hpast]
      omega
    obtain ⟨taken', hrest, hpos, htiles⟩ := ih hs' hp' hclosed
    refine ⟨taken', hrest, hpos, fun xs h => ?_⟩
    subst hp
    exact tiles_comment (by rw [hs, hsplit]) hpast (by simp [s, Scan.prepend]) (htiles xs h)
  | case4 => cases hclosed
  | case5 pos c r hline hblock hspace ih =>
    have hs' : source = (taken ++ [c]) ++ r := by rw [hs, List.append_assoc]; rfl
    have hp' : pos + c.utf8Size = Text.byteLength (taken ++ [c]) := by
      rw [Text.byteLength_append, hp]
      rfl
    obtain ⟨taken', hrest, hpos, htiles⟩ := ih hs' hp' hclosed
    refine ⟨taken', hrest, hpos, fun xs h => (htiles xs h).widen (by omega) ?_⟩
    intro i hi hlt
    exact ⟨taken, c, r, hs, by omega, by omega, hspace⟩
  | case6 pos c r hline hblock hspace => exact ⟨taken, hs, hp, fun xs h => hp ▸ h⟩

/-- Skipping spaces and comments leads from one place to another. -/
theorem Stands.skip_tiles {l : Lexer} (h : Stands source l) (howed : l.owed = 0)
    (hclosed : (trivia l.pos l.rest).unclosed = none) :
    Stands source l.skip ∧ ∃ cs, l.skip.commentPlaces = l.commentPlaces ++ cs ∧
      ∀ xs, Tiles source l.skip.pos xs → Tiles source l.pos (cs.map .comment ++ xs) := by
  cases h with
  | between taken hs hp _ =>
    obtain ⟨taken', hs', hp', htiles⟩ := trivia_tiles hs hp hclosed
    refine ⟨.between taken' hs' hp' howed, _, rfl, fun xs h => htiles xs ?_⟩
    exact hp' ▸ h
  | inside _ _ _ _ _ hpos => omega
  | beyond hrest hp _ =>
    have hnone : trivia l.pos l.rest = ⟨[], l.pos, [], none⟩ := by rw [hrest, trivia]
    refine ⟨.beyond ?_ ?_ howed, [], ?_, fun xs h => ?_⟩
    · rw [skip, hnone]
    · rw [skip, hnone, hp]
    · rw [skip, hnone]
    · rw [skip, hnone] at h
      exact h

/-! ## What a call adds -/

/-- A call that gives a token puts it, with the comments in front of it, before any tiling that
starts where the call ends. -/
theorem Gives.tiles {l l' : Lexer} {t : Token} (h : Gives l t l') (hk : t.kind ≠ .eof)
    (hplace : Stands source l) :
    Stands source l' ∧ ∃ cs, l'.commentPlaces = l.commentPlaces ++ cs ∧
      ∀ xs, Tiles source l'.pos xs → Tiles source l.pos (cs.map .comment ++ .token t :: xs) := by
  cases h with
  | owed howed =>
    cases hplace with
    | between _ _ _ hzero => omega
    | beyond _ _ hzero => omega
    | inside front c hs hlt hpos _ =>
      have hplace' : Stands source ({ l with pos := l.pos + 1, owed := l.owed - 1 } : Lexer) := by
        by_cases hlast : l.owed = 1
        · refine .between (front ++ [c]) (by rw [hs]; simp) ?_ (by simp [hlast])
          simp only [Text.byteLength_append, Text.byteLength_cons, Text.byteLength_nil]
          omega
        · exact .inside front c hs (by dsimp only; omega) (by dsimp only; omega)
            (by dsimp only; omega)
      refine ⟨hplace'.after, [], (List.append_nil _).symm, fun xs hxs => ?_⟩
      refine .cons (fun i hi hi' => absurd hi' (Nat.not_lt.2 hi)) (Nat.le_refl _)
        (Nat.lt_succ_self _) ?_ hxs
      exact hplace'.pos_le
  | eof => exact absurd rfl hk
  | @read k l'' howed hclosed _ hreads =>
    obtain ⟨hskip, cs, hcs, htiles⟩ := hplace.skip_tiles howed hclosed
    obtain ⟨text, past, hne, hb⟩ := hreads.between hk howed (skip_rest_head hclosed)
    have hplace' : Stands source l'' := hskip.read howed hb hne
    refine ⟨hplace'.after, cs, hreads.commentPlaces.trans hcs, fun xs hxs => htiles _ ?_⟩
    exact .cons (fun i hi hi' => absurd hi' (Nat.not_lt.2 hi)) (Nat.le_refl _)
      (hb.pos_lt hne) hplace'.pos_le hxs

/-- The call that meets the end of the input leaves only blanks behind the comments in front of
it. -/
theorem Gives.tiles_eof {l l' : Lexer} {t : Token} (h : Gives l t l') (hk : t.kind = .eof)
    (hplace : Stands source l) :
    ∃ cs, l'.commentPlaces = l.commentPlaces ++ cs ∧ Tiles source l.pos (cs.map .comment) := by
  cases h with
  | owed => cases hk
  | read _ _ hne => exact absurd hk hne
  | eof howed hclosed hreads =>
    obtain ⟨hskip, cs, hcs, htiles⟩ := hplace.skip_tiles howed hclosed
    cases hreads with
    | eof hrest _ =>
      have hend := hskip.byteLength_le hrest howed
      refine ⟨cs, hcs, ?_⟩
      have hnil : Tiles source l.skip.pos [] := .nil fun i hi hlt => by omega
      simpa using htiles [] hnil

/-! ## Runs -/

/-- The tokens of a run, with the comments that it meets, tile the rest of the source. -/
theorem Run.tiles {l l' : Lexer} {ts : List Token} (h : Run l ts l') (hplace : Stands source l) :
    ∃ xs, Tiles source l.pos xs ∧ xs.filterMap Lexeme.token? = ts ∧
      l'.commentPlaces = l.commentPlaces ++ xs.filterMap Lexeme.comment? := by
  induction h with
  | done hgives hk =>
    obtain ⟨cs, hcs, htiles⟩ := hgives.tiles_eof hk hplace
    exact ⟨cs.map .comment, htiles, by simp, by simpa using hcs⟩
  | step hgives hk _ ih =>
    obtain ⟨hplace', cs, hcs, htiles⟩ := hgives.tiles hk hplace
    obtain ⟨xs, hxs, htokens, hcomments⟩ := ih hplace'
    refine ⟨_, htiles xs hxs, ?_, ?_⟩
    · simp [htokens]
    · simp [hcomments, hcs, List.filterMap_cons]

/-- The lexer starts at a place, behind a first line that may be a comment. -/
theorem start_tiles (source : List Char) :
    Stands source (start source) ∧ ∀ xs, Tiles source (start source).pos xs →
      Tiles source 0 ((start source).commentPlaces.map .comment ++ xs) := by
  unfold start
  dsimp only
  split
  · rename_i rest
    have hsplit : (scanLineComment ('#' :: '!' :: rest)).text
        ++ (scanLineComment ('#' :: '!' :: rest)).rest = '#' :: '!' :: rest :=
      Scan.takeWhile_text_append_rest _ _
    refine ⟨.between _ hsplit.symm ?_ rfl, fun xs h => ?_⟩
    · simp [advance, scanLineComment, Scan.takeWhile, Scan.width]
    · have hne : (scanLineComment ('#' :: '!' :: rest)).text ≠ [] := by
        simp [scanLineComment, Scan.takeWhile, Ascii.isLineEnd]
      have htiles := @tiles_comment _ [] _ xs hsplit.symm rfl hne
      simpa using htiles (by simpa [advance] using h)
  · exact ⟨.between [] rfl rfl rfl, fun xs h => h⟩

end Lexer

/-- The tokens and the comments of a source are the two kinds of lexeme of one tiling. -/
theorem exists_tiles_of_lexemize {source : List Char} {tokens : List Token} {comments : List Span}
    (h : lexemize source = .ok (tokens, comments)) :
    ∃ xs, Tiles source 0 xs ∧ xs.filterMap Lexeme.token? = tokens ∧
      xs.filterMap Lexeme.comment? = comments := by
  obtain ⟨l, hrun, hcs⟩ := Lexer.run_of_lexemes h
  obtain ⟨hplace, hstart⟩ := Lexer.start_tiles source
  obtain ⟨xs, hxs, htokens, hcomments⟩ := hrun.tiles hplace
  refine ⟨_, hstart xs hxs, ?_, ?_⟩
  · simp [htokens]
  · simp [← hcs, hcomments]

/-! ## The two lists -/

/-- The bytes of the tokens and comments of a list are those of its lexemes. -/
theorem Lexeme.perm_spans (xs : List Lexeme) :
    ((xs.filterMap token?).map Token.span ++ xs.filterMap comment?).Perm (xs.map span) := by
  induction xs with
  | nil => exact .nil
  | cons x xs ih =>
    cases x with
    | token t => simpa [span, List.filterMap_cons] using ih.cons t.span
    | comment s =>
      simp only [List.filterMap_cons, token?_comment, comment?_comment, List.map_cons, span]
      exact List.perm_middle.trans (ih.cons s)

/-- Tokens stand in the order of their lexemes. -/
theorem Lexeme.pairwise_token? (R : Span → Span → Prop) {xs : List Lexeme}
    (h : xs.Pairwise fun x y => R x.span y.span) :
    (xs.filterMap token?).Pairwise fun a b => R a.span b.span := by
  refine h.filterMap _ fun x y hxy a ha b hb => ?_
  cases x <;> cases ha
  cases y <;> cases hb
  exact hxy

/-- Comments stand in the order of their lexemes. -/
theorem Lexeme.pairwise_comment? (R : Span → Span → Prop) {xs : List Lexeme}
    (h : xs.Pairwise fun x y => R x.span y.span) : (xs.filterMap comment?).Pairwise R := by
  refine h.filterMap _ fun x y hxy a ha b hb => ?_
  cases x <;> cases ha
  cases y <;> cases hb
  exact hxy

/-- The tokens of a source are not empty and follow one another. -/
theorem ordered_of_lexemize {source : List Char} {tokens : List Token} {comments : List Span}
    (h : lexemize source = .ok (tokens, comments)) :
    (∀ t ∈ tokens, t.span.start < t.span.stop) ∧
      tokens.Pairwise fun a b => a.span.stop ≤ b.span.start := by
  obtain ⟨xs, hxs, rfl, -⟩ := exists_tiles_of_lexemize h
  refine ⟨fun t ht => ?_, Lexeme.pairwise_token? (fun s s' => s.stop ≤ s'.start) hxs.pairwise⟩
  obtain ⟨x, hx, hxt⟩ := List.mem_filterMap.1 ht
  cases x <;> cases hxt
  exact (hxs.lt_of_mem _ hx).2.1

/-- The offsets of a source of less than 4 GiB fit into 32-bit words, so its tokens and comments
have the places at which they stand. -/
theorem tokenize_eq_ok_of_lt {source : List Char} {tokens : List Token} {comments : List Span}
    (hsize : Text.byteLength source < 2 ^ 32 - 1) :
    tokenize source = .ok (tokens, comments) ↔ lexemize source = .ok (tokens, comments) := by
  have hfits : ∀ {ts cs}, lexemize source = .ok (ts, cs) →
      ts.map Token.wrapped = ts ∧ cs.map Span.wrapped = cs := by
    intro ts cs h
    obtain ⟨xs, hxs, rfl, rfl⟩ := exists_tiles_of_lexemize h
    have hword : ∀ x ∈ xs, x.span.wrapped = x.span := by
      intro x hx
      obtain ⟨-, hlt, hle⟩ := hxs.lt_of_mem x hx
      exact Span.wrapped_eq_self (by omega) (by omega)
    refine ⟨(List.map_congr_left fun t ht => ?_).trans (List.map_id' _),
      (List.map_congr_left fun s hs => ?_).trans (List.map_id' _)⟩
    · obtain ⟨x, hx, hxt⟩ := List.mem_filterMap.1 ht
      cases x <;> cases hxt
      exact Token.wrapped_eq_self (hword _ hx)
    · obtain ⟨x, hx, hxs⟩ := List.mem_filterMap.1 hs
      cases x <;> cases hxs
      exact hword _ hx
  rw [tokenize_eq_ok]
  constructor
  · rintro ⟨ts, cs, h, rfl, rfl⟩
    rw [(hfits h).1, (hfits h).2]
    exact h
  · intro h
    exact ⟨tokens, comments, h, (hfits h).1.symm, (hfits h).2.symm⟩

/-- The tokens and comments of a source, without a loss: none is empty, no two have a byte in
common, each list is in source order, all offsets fit into a 32-bit word, and only blanks are left
over. -/
structure Lossless (source : List Char) (tokens : List Token) (comments : List Span) : Prop where
  nonempty : ∀ s ∈ tokens.map Token.span ++ comments, s.start < s.stop
  bounded : ∀ s ∈ tokens.map Token.span ++ comments, s.stop < 2 ^ 32
  disjoint : (tokens.map Token.span ++ comments).Pairwise Span.Disjoint
  tokens_sorted : tokens.Pairwise fun a b => a.span.start < b.span.start
  comments_sorted : comments.Pairwise fun a b => a.start < b.start
  covered : ∀ i < Text.byteLength source,
    (∃ s ∈ tokens.map Token.span ++ comments, s.contains i = true) ∨ Blank source i

/-- **The tokens and comments of a source cover it without a loss.** -/
theorem tokenize_lossless {source : List Char} {tokens : List Token} {comments : List Span}
    (h : tokenize source = .ok (tokens, comments)) (hsize : Text.byteLength source < 2 ^ 32 - 1) :
    Lossless source tokens comments := by
  obtain ⟨xs, hxs, rfl, rfl⟩ := exists_tiles_of_lexemize ((tokenize_eq_ok_of_lt hsize).1 h)
  have hperm := Lexeme.perm_spans xs
  have hmem : ∀ s ∈ (xs.filterMap Lexeme.token?).map Token.span ++ xs.filterMap Lexeme.comment?,
      ∃ x ∈ xs, x.span = s := fun s hs => List.mem_map.1 (hperm.mem_iff.1 hs)
  have hsorted : xs.Pairwise fun x y => x.span.start < y.span.start := by
    refine hxs.pairwise.imp_of_mem fun {x y} hx _ hstop => ?_
    have hne := (hxs.lt_of_mem x hx).2.1
    omega
  constructor
  case nonempty =>
    intro s hs
    obtain ⟨x, hx, rfl⟩ := hmem s hs
    exact (hxs.lt_of_mem x hx).2.1
  case bounded =>
    intro s hs
    obtain ⟨x, hx, rfl⟩ := hmem s hs
    have hstop := (hxs.lt_of_mem x hx).2.2
    omega
  case disjoint =>
    refine (hperm.pairwise_iff Span.Disjoint.symm).2 (List.pairwise_map.2 ?_)
    exact hxs.pairwise.imp Span.disjoint_of_stop_le
  case tokens_sorted => exact Lexeme.pairwise_token? (fun s s' => s.start < s'.start) hsorted
  case comments_sorted => exact Lexeme.pairwise_comment? (fun s s' => s.start < s'.start) hsorted
  case covered =>
    intro i hi
    refine (hxs.covers (Nat.zero_le i) hi).imp_left ?_
    rintro ⟨x, hx, hstart, hstop⟩
    refine ⟨x.span, hperm.mem_iff.2 (List.mem_map_of_mem hx), ?_⟩
    simp [Span.contains, hstart, hstop]

/-- A word with an open escape behind a point is a property name that ends behind the source. -/
theorem tokenize_lossless_openEscape :
    tokenize "a/*b*/ .\\u\x7bc".toList =
      .ok ([⟨.identifier, ⟨0, 1⟩⟩, ⟨.punct .dot, ⟨7, 8⟩⟩, ⟨.identifier, ⟨8, 13⟩⟩], [⟨1, 6⟩]) ∧
    Lossless "a/*b*/ .\\u\x7bc".toList
      [⟨.identifier, ⟨0, 1⟩⟩, ⟨.punct .dot, ⟨7, 8⟩⟩, ⟨.identifier, ⟨8, 13⟩⟩] [⟨1, 6⟩] :=
  have h : tokenize "a/*b*/ .\\u\x7bc".toList =
      .ok ([⟨.identifier, ⟨0, 1⟩⟩, ⟨.punct .dot, ⟨7, 8⟩⟩, ⟨.identifier, ⟨8, 13⟩⟩], [⟨1, 6⟩]) := by
    decide +kernel
  ⟨h, tokenize_lossless h (by decide)⟩

end EsModules
