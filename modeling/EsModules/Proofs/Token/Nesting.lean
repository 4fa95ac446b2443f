import EsModules.Proofs.Token.Run
import Mathlib.Control.Monad.Basic

/-!
# How templates and blocks nest

The lexer decides by its open braces whether a closing brace ends a block or goes on with a
template.  The kinds of token that it gives out tell those braces: a stack that is driven by the
kinds alone holds the same braces behind every token.  So the parts of templates and the braces of
blocks are nested, whatever their depth, although blocks may stay open and closing braces may stand
alone.

* `TokenKind.bracesBehind`, `openBraces`: the stack, driven by one kind and by those of a text.
* `TokenKind.Fits`: what may stand where some braces are open.
* `Nests`: kinds that fit one behind the other and leave no template open, so that as many
  templates end as begin (`Nests.count_template`).
* `Lexer.Gives.fits`, `Lexer.Run.nests`: what one call does with the stack, and what a run does.
* `tokenize_nested`: the tokens of a source are nested.
-/

namespace EsModules

/-! ## The stack -/

namespace TokenKind

/-- The open braces behind a token, given those in front of it, the innermost first. -/
def bracesBehind (stack : List Brace) : TokenKind → List Brace
  | punct .lBrace => .block :: stack
  | punct .rBrace => stack.tail
  | templateHead => .template :: stack
  | templateMiddle => .template :: stack.tail
  | templateTail => stack.tail
  | _ => stack

/-- A token may stand where some braces are open: a closing brace does not end a template, and a
template goes on only where it is the innermost. -/
structure Fits (stack : List Brace) (k : TokenKind) : Prop where
  closeBrace : k = punct .rBrace → stack.head? ≠ some .template
  template : k = templateMiddle ∨ k = templateTail → stack.head? = some .template

/-- No other punctuator opens or closes a brace. -/
theorem bracesBehind_punct {stack : List Brace} {mark : Punct} (hopen : mark ≠ .lBrace)
    (hshut : mark ≠ .rBrace) : (punct mark).bracesBehind stack = stack := by
  cases mark with
  | lBrace => exact absurd rfl hopen
  | rBrace => exact absurd rfl hshut
  | _ => rfl

/-- A kind that fits opens a template exactly where one begins, and ends one where one ends. -/
theorem Fits.count_bracesBehind {stack : List Brace} {k : TokenKind} (h : k.Fits stack) :
    (k.bracesBehind stack).count .template + [k].count .templateTail =
      stack.count .template + [k].count .templateHead := by
  -- where a template goes on, it is the innermost
  have hopen : k = .templateMiddle ∨ k = .templateTail →
      stack.count .template = stack.tail.count .template + 1 := by
    intro hk
    obtain ⟨rest, rfl⟩ := List.head?_eq_some_iff.1 (h.template hk)
    exact List.count_cons_self
  have hshut : k = .punct .rBrace → stack.tail.count .template = stack.count .template := by
    intro hk
    cases stack with
    | nil => rfl
    | cons b stack =>
      have hb : b ≠ .template := fun hb => h.closeBrace hk (congrArg some hb)
      exact (List.count_cons_of_ne hb).symm
  cases k with
  | templateHead => simp [bracesBehind]
  | templateMiddle => simp [bracesBehind, hopen (.inl rfl)]
  | templateTail => simp [bracesBehind, hopen (.inr rfl)]
  | punct mark =>
    by_cases hl : mark = .lBrace
    · subst hl
      simp [bracesBehind]
    · by_cases hr : mark = .rBrace
      · subst hr
        simp [bracesBehind, hshut rfl]
      · simp [bracesBehind_punct hl hr]
  | _ => simp [bracesBehind]

end TokenKind

/-- The open braces behind tokens of some kinds. -/
def openBraces (kinds : List TokenKind) : List Brace := kinds.foldl TokenKind.bracesBehind []

/-- Kinds that fit one behind the other where some braces are open, and leave no template open. -/
inductive Nests : List Brace → List TokenKind → Prop
  | nil {stack : List Brace} : .template ∉ stack → Nests stack []
  | cons {stack : List Brace} {k : TokenKind} {ks : List TokenKind} : k.Fits stack →
      Nests (k.bracesBehind stack) ks → Nests stack (k :: ks)

namespace Nests

variable {stack : List Brace} {ks : List TokenKind}

/-- Each kind fits what those in front of it leave open. -/
theorem fits (h : Nests stack ks) : ∀ front k back, ks = front ++ k :: back →
    k.Fits (front.foldl TokenKind.bracesBehind stack) := by
  induction h with
  | nil => exact fun front k back hks => absurd hks.symm (by simp)
  | cons hfits _ ih =>
    intro front k back hks
    cases front with
    | nil =>
      obtain ⟨rfl, -⟩ := List.cons.inj hks
      exact hfits
    | cons p front =>
      obtain ⟨rfl, hback⟩ := List.cons.inj hks
      exact ih front k back hback

theorem template_notMem (h : Nests stack ks) :
    .template ∉ ks.foldl TokenKind.bracesBehind stack := by
  induction h with
  | nil hstack => exact hstack
  | cons _ _ ih => exact ih

/-- As many templates end as begin or are open. -/
theorem count_template (h : Nests stack ks) :
    stack.count .template + ks.count .templateHead = ks.count .templateTail := by
  induction h with
  | nil hstack => simp [List.count_eq_zero.2 hstack]
  | @cons stack k ks hfits _ ih =>
    have hstep := hfits.count_bracesBehind
    have hcount (a : TokenKind) : (k :: ks).count a = [k].count a + ks.count a :=
      (List.count_append : ([k] ++ ks).count a = _)
    rw [hcount, hcount]
    omega

end Nests

/-! ## Calls and runs -/

namespace Lexer

variable {l l' : Lexer} {k : TokenKind} {t : Token}

/-- A punctuator that is found in the table is no brace. -/
theorem ne_brace_of_scanPunct {input : List Char} {m : Punct} {s : Scan}
    (h : scanPunct input = some (m, s)) : m ≠ .lBrace ∧ m ≠ .rBrace := by
  obtain ⟨spelling, hmem, -⟩ := scanPunct_eq_some h
  have hne : ∀ entry ∈ Punct.spellings, entry.1 ≠ .lBrace ∧ entry.1 ≠ .rBrace := by decide
  exact hne _ hmem

/-- A token that is read fits the open braces, and leaves those behind it. -/
theorem Reads.fits (h : Reads l k l') :
    k.Fits l.braces ∧ l'.braces = k.bracesBehind l.braces := by
  cases h with
  | @templateTail r braces _ hbraces _ =>
    exact ⟨⟨nofun, fun _ => by rw [hbraces]; rfl⟩, by rw [hbraces]; rfl⟩
  | @templateMiddle r braces _ hbraces _ =>
    refine ⟨⟨nofun, fun _ => by rw [hbraces]; rfl⟩, ?_⟩
    show l.braces = _
    rw [hbraces]
    rfl
  | closeBrace _ hhead => exact ⟨⟨fun _ => hhead, nofun⟩, rfl⟩
  | punct hs =>
    obtain ⟨hopen, hshut⟩ := ne_brace_of_scanPunct hs
    exact ⟨⟨fun hk => absurd (TokenKind.punct.inj hk) hshut, nofun⟩,
      (TokenKind.bracesBehind_punct hopen hshut).symm⟩
  | _ => exact ⟨⟨nofun, nofun⟩, rfl⟩

/-- No template is open where the input ends. -/
theorem Gives.template_notMem (h : Gives l t l') (hk : t.kind = .eof) : .template ∉ l.braces := by
  cases h with
  | owed => cases hk
  | read _ _ hne => exact absurd hk hne
  | eof _ _ hreads =>
    cases hreads with
    | eof _ hbraces => exact hbraces

/-- A token that a call gives fits the open braces, and the call leaves those behind it. -/
theorem Gives.fits (h : Gives l t l') :
    t.kind.Fits l.braces ∧ l'.braces = t.kind.bracesBehind l.braces := by
  cases h with
  | owed => exact ⟨⟨nofun, nofun⟩, rfl⟩
  | eof _ _ hreads => exact hreads.fits
  | read _ _ _ hreads => exact hreads.fits

/-- The kinds of a run nest where its braces are open. -/
theorem Run.nests {ts : List Token} (h : Run l ts l') : Nests l.braces (ts.map Token.kind) := by
  induction h with
  | done hgives hk => exact .nil (hgives.template_notMem hk)
  | step hgives _ _ ih =>
    obtain ⟨hfits, hbraces⟩ := hgives.fits
    exact .cons hfits (hbraces ▸ ih)

theorem start_braces (source : List Char) : (start source).braces = [] := by
  unfold start
  dsimp only
  split <;> rfl

end Lexer

/-! ## Whole sources -/

/-- **The templates and blocks of a source are nested.**  A stack that is driven by the kinds of its
tokens has no template on top where a closing brace stands, and one where a template goes on; at the
end no template is open, so as many end as begin. -/
theorem tokenize_nested {source : List Char} {tokens : List Token} {comments : List Span}
    (h : tokenize source = .ok (tokens, comments)) :
    (∀ front k back, tokens.map Token.kind = front ++ k :: back →
      (k = .punct .rBrace → (openBraces front).head? ≠ some .template) ∧
      (k = .templateMiddle ∨ k = .templateTail → (openBraces front).head? = some .template)) ∧
    .template ∉ openBraces (tokens.map Token.kind) ∧
    (tokens.map Token.kind).count .templateHead = (tokens.map Token.kind).count .templateTail := by
  obtain ⟨lexemes, _, hlexemes, rfl, -⟩ := tokenize_eq_ok.1 h
  rw [Token.map_kind_wrapped]
  obtain ⟨l, hrun, -⟩ := Lexer.run_of_lexemes hlexemes
  have hnests : Nests [] (lexemes.map Token.kind) := Lexer.start_braces source ▸ hrun.nests
  refine ⟨fun front k back hks => ?_, hnests.template_notMem, ?_⟩
  · have hfits := hnests.fits front k back hks
    exact ⟨hfits.closeBrace, hfits.template⟩
  · simpa using hnests.count_template

/-- A closing brace alone, a template within a block within a template, and a block left open. -/
theorem tokenize_nested_alone :
    ∃ tokens comments,
      tokenize "\x7d\x60a$\x7b\x7b\x60$\x7bc\x7de$\x7bd\x7d\x60\x7d\x7d\x60\x7b".toList =
        .ok (tokens, comments) ∧
      tokens.map Token.kind = [.punct .rBrace, .templateHead, .punct .lBrace, .templateHead,
        .identifier, .templateMiddle, .identifier, .templateTail, .punct .rBrace, .templateTail,
        .punct .lBrace] ∧
      .template ∉ openBraces (tokens.map Token.kind) :=
  have h : tokenize "\x7d\x60a$\x7b\x7b\x60$\x7bc\x7de$\x7bd\x7d\x60\x7d\x7d\x60\x7b".toList =
      .ok ([⟨.punct .rBrace, ⟨0, 1⟩⟩, ⟨.templateHead, ⟨1, 5⟩⟩, ⟨.punct .lBrace, ⟨5, 6⟩⟩,
        ⟨.templateHead, ⟨6, 9⟩⟩, ⟨.identifier, ⟨9, 10⟩⟩, ⟨.templateMiddle, ⟨10, 14⟩⟩,
        ⟨.identifier, ⟨14, 15⟩⟩, ⟨.templateTail, ⟨15, 17⟩⟩, ⟨.punct .rBrace, ⟨17, 18⟩⟩,
        ⟨.templateTail, ⟨18, 20⟩⟩, ⟨.punct .lBrace, ⟨20, 21⟩⟩], []) := by
    decide +kernel
  ⟨_, _, h, rfl, (tokenize_nested h).2.1⟩

end EsModules
