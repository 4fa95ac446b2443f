import EsModules.Proofs.Text.Patch
import EsModules.Proofs.Token.Alike
import EsModules.Proofs.Token.Slices

/-!
# Where tokens end

A token is read off the same text when something else follows it, unless what follows makes it go
on or turns it into another token.

* `TokenKind.StopsBefore`: a token of a kind ends behind its text in front of a rest.
* `Lexer.read_cases`: a lexer in the same mode in front of the text of a token and another rest
  reads the token if it stops there, and else none of the same kind and length.
-/

namespace EsModules

variable {text rest : List Char}

/-! ## Scans that take a text -/

/-- A scan is as wide as a text in front of its input exactly if it takes that text. -/
theorem Scan.width_eq_iff {x : Scan} (hsplit : x.text ++ x.rest = text ++ rest)
    (hpast : x.past = 0 ∨ x.past = 1 ∧ x.rest = []) :
    x.width = Text.byteLength text ↔ x = ⟨text, rest, 0⟩ := by
  constructor
  · intro hwidth
    unfold width at hwidth
    rcases hpast with hpast | ⟨hpast, hrest⟩
    · obtain ⟨htext, hrest⟩ := Patch.append_inj_of_byteLength hsplit (by omega)
      rw [← htext, ← hrest, ← hpast]
    · have hlength := congrArg Text.byteLength hsplit
      simp only [hrest, Text.byteLength_append, Text.byteLength_nil] at hlength
      omega
  · rintro rfl
    rfl

/-- A number that starts with a point goes on with the digit behind it. -/
theorem scanNumber_point {d : Char} (hd : Ascii.isDigit d = true) (r : List Char) :
    (scanNumber ('.' :: d :: r)).rest ≠ d :: r := by
  have hdecimal : scanNumber ('.' :: d :: r) = scanNumber.decimal ('.' :: d :: r) := rfl
  have hsplit := scanNumber_text_append_rest ('.' :: d :: r)
  intro hrest
  rw [hrest] at hsplit
  have htext : (scanNumber ('.' :: d :: r)).text = ['.'] :=
    List.append_cancel_right (hsplit.trans (show '.' :: d :: r = ['.'] ++ d :: r from rfl))
  have hpoint : Ascii.isDigit '.' = false := by decide
  rw [hdecimal] at htext
  simp [scanNumber.decimal, Scan.prepend, scanDigits, Scan.takeWhile, scanFraction, Scan.cons, hd,
    hpoint] at htext

/-- Whether a character starts a punctuator does not depend on what follows it. -/
theorem scanPunct_eq_none {c : Char} {r : List Char} (h : scanPunct (c :: r) = none)
    (r' : List Char) : scanPunct (c :: r') = none := by
  have hsingle : ∀ entry ∈ Punct.spellings, ∃ single ∈ Punct.spellings,
      single.2.toList = entry.2.toList.take 1 ∧ single.1 ≠ .questionDot := by decide +kernel
  cases hfound : scanPunct (c :: r') with
  | none => rfl
  | some found =>
    obtain ⟨spelling, hmem, htext, hsplit, -⟩ := scanPunct_eq_some hfound
    obtain ⟨⟨mark, single⟩, hmem', hsingle, hmark⟩ := hsingle _ hmem
    have hfirst : spelling.toList.take 1 = [c] := by
      have hne := scanPunct_text_ne_nil hfound
      rw [← htext]
      obtain ⟨a, as, hcons⟩ := List.exists_cons_of_ne_nil hne
      rw [hcons] at hsplit ⊢
      obtain ⟨rfl, -⟩ := List.cons.inj hsplit
      rfl
    have hnone := List.findSome?_eq_none_iff.1 h _ hmem'
    dsimp only at hsingle hmark hnone
    have hdrop : Text.dropPrefix? single.toList (c :: r) = some r := by
      rw [Text.dropPrefix?_eq_some_iff, hsingle, hfirst]
      rfl
    rw [hdrop] at hnone
    simp [hmark] at hnone

/-- A regular expression goes on with the letters that follow it. -/
theorem scanRegex_more {input : List Char} (h : (scanRegex input).2 = true) (rest : List Char) :
    scanRegex ((scanRegex input).1.text ++ rest) =
      ((Scan.takeWhile Ascii.isLetter rest).prepend (scanRegex input).1.text, true) := by
  have hclosed : (scanRegexBody false input).2 = true := h
  have hflags : ∀ c ∈ (scanRegexBody false input).1.rest.takeWhile Ascii.isLetter,
      Ascii.isLetter c = true := fun c hc => List.all_eq_true.1 List.all_takeWhile c hc
  unfold scanRegex
  dsimp only
  rw [if_pos hclosed]
  simp only [Scan.prepend, Scan.takeWhile, List.append_assoc, scanRegexBody_append hclosed, if_true,
    List.takeWhile_append_of_pos hflags, List.dropWhile_append_of_pos hflags]

/-- Whether a scan of a word takes anything depends on the first character only. -/
theorem scanWord_text_eq_nil_iff {c : Char} {r : List Char} :
    (scanWord false (c :: r)).text = [] ↔ (isWordPart c || c == '\\') = false := by
  by_cases hbraced : ∃ r', c = '\\' ∧ r = 'u' :: '\x7b' :: r'
  · obtain ⟨r', rfl, rfl⟩ := hbraced
    simp [scanWord, Scan.prepend]
  · rw [scanWord]
    · split
      · rename_i hpart
        simp [Scan.cons, hpart]
      · rename_i hpart
        simp [Bool.eq_false_iff.2 hpart]
    · exact fun r' hc hr => hbraced ⟨r', hc, hr⟩

/-! ## Tokens in front of another rest -/

/-- A token of a kind ends behind its text when a rest follows: it is not read on, and what follows
does not turn it into another token. -/
def TokenKind.StopsBefore (text rest : List Char) : TokenKind → Prop
  | .identifier | .keyword _ => scanWord false (text ++ rest) = ⟨text, rest, 0⟩
  | .privateName => scanWord false (text.tail ++ rest) = ⟨text.tail, rest, 0⟩
  | .number => scanNumber (text ++ rest) = ⟨text, rest, 0⟩
  | .regex => ∀ c ∈ rest.head?, Ascii.isLetter c = false
  | .punct mark => mark = .lBrace ∨ mark = .rBrace ∨
      scanPunct (text ++ rest) = some (mark, ⟨text, rest, 0⟩) ∧
        (mark = .dot → ∀ c ∈ rest.head?, Ascii.isDigit c = false)
  | .unknown => text = ['#'] → ∀ c ∈ rest.head?, isWordStart c = false
  | .string | .noSubstitutionTemplate | .templateHead | .templateMiddle | .templateTail | .eof =>
    True

namespace Lexer

variable {l l' m : Lexer} {k : TokenKind} {r : List Char}

/-- Taking something does not change the mode. -/
theorem SameMode.advance (h : SameMode l m) (x y : Scan) :
    SameMode (l.advance x) (m.advance y) :=
  ⟨h.owed, h.regexAllowed, h.afterMember, h.braces⟩

/-- A lexer reads a token of a kind off a text and is then in the mode of another. -/
def ReadsOff (m : Lexer) (k : TokenKind) (text rest : List Char) (l' : Lexer) : Prop :=
  ∃ m', m.read = (.ok k, m') ∧ m'.rest = rest ∧ m'.pos = m.pos + Text.byteLength text ∧
    SameMode l' m' ∧ m'.commentPlaces = m.commentPlaces

/-- A lexer reads no token of a kind that is as long as a text. -/
def Misreads (m : Lexer) (k : TokenKind) (text : List Char) : Prop :=
  ∀ m', m.read = (.ok k, m') → m'.pos ≠ m.pos + Text.byteLength text

/-- What is read as another kind is no token of this one. -/
theorem misreads_of_ne {result : Except LexError TokenKind} {m' : Lexer}
    (hread : m.read = (result, m')) (hne : result ≠ .ok k) : Misreads m k text := by
  intro m'' hread'
  exact absurd (Prod.mk.inj (hread.symm.trans hread')).1 hne

/-- A token that is read by one scan is read off the text that the scan takes. -/
theorem readsOff_or_misreads {x : Scan} {result : Except LexError TokenKind} (braces : List Brace)
    (hread : m.read = (result, { m.advance x with braces := braces }))
    (hsplit : x.text ++ x.rest = text ++ rest) (hpast : x.past = 0 ∨ x.past = 1 ∧ x.rest = [])
    (hmode : SameMode l' { m.advance x with braces := braces })
    (hresult : x = ⟨text, rest, 0⟩ → result = .ok k) :
    x = ⟨text, rest, 0⟩ ∧ ReadsOff m k text rest l' ∨ x ≠ ⟨text, rest, 0⟩ ∧ Misreads m k text := by
  by_cases hx : x = ⟨text, rest, 0⟩
  · subst hx
    exact .inl ⟨rfl, _, hresult rfl ▸ hread, rfl, rfl, hmode, rfl⟩
  · refine .inr ⟨hx, fun m' hread' hpos => hx ?_⟩
    obtain ⟨-, rfl⟩ := Prod.mk.inj (hread.symm.trans hread')
    exact (Scan.width_eq_iff hsplit hpast).1 (Nat.add_left_cancel hpos)

/-- A word is read on exactly if its scan goes on. -/
theorem readWord_cases (hmode : SameMode l m) (hl : l.rest = text ++ r) (hm : m.rest = text ++ rest)
    (hread : l.readWord = (.ok k, l')) (hrest : l'.rest = r)
    (hpos : l'.pos = l.pos + Text.byteLength text) (hm' : m.read = m.readWord) :
    k.StopsBefore text rest ∧ ReadsOff m k text rest l' ∨
      ¬ k.StopsBefore text rest ∧ Misreads m k text := by
  rw [readWord_eq, hl] at hread
  obtain ⟨hk, rfl⟩ := Prod.mk.inj hread
  have hscan : scanWord false (text ++ r) = ⟨text, r, 0⟩ :=
    (Scan.width_eq_iff (scanWord_text_append_rest _ _) (scanWord_past _ _)).1
      (Nat.add_left_cancel hpos)
  have hkind : k.StopsBefore text rest = (scanWord false (text ++ rest) = ⟨text, rest, 0⟩) := by
    split at hk
    · rw [← Except.ok.inj hk]
      rfl
    · split at hk
      · cases hk
      · split at hk <;> rw [← Except.ok.inj hk] <;> rfl
  rw [hkind]
  rw [readWord_eq, hm] at hm'
  refine readsOff_or_misreads m.braces hm' (scanWord_text_append_rest _ _)
    (scanWord_past _ _) (hmode.advance _ _) ?_
  intro hx
  rw [hx, hmode.afterMember]
  rw [hscan] at hk
  exact hk

/-- A part of a template is read the same way whatever follows it. -/
theorem readTemplate_readsOff {opening : Char} {closed opened : TokenKind} {tail : List Char}
    (hmode : SameMode l m) (hread : l.readTemplate opening (tail ++ r) closed opened = (.ok k, l'))
    (hrest : l'.rest = r) :
    (k = closed ∨ k = opened) ∧
      ∃ m', m.readTemplate opening (tail ++ rest) closed opened = (.ok k, m') ∧ m'.rest = rest ∧
        m'.pos = m.pos + Text.byteLength (opening :: tail) ∧ SameMode l' m' ∧
        m'.commentPlaces = m.commentPlaces := by
  have hsplit := scanTemplate_text_append_rest (tail ++ r)
  -- the scan ends where the token does, so it takes the tail, and would in front of any rest
  have hmore (hend : (scanTemplate (tail ++ r)).2 ≠ .missing)
      (hback : (scanTemplate (tail ++ r)).1.rest = r) : scanTemplate (tail ++ rest) =
        (⟨tail, rest, 0⟩, (scanTemplate (tail ++ r)).2) := by
    rw [hback] at hsplit
    have happend := scanTemplate_append hend rest
    rwa [List.append_cancel_right hsplit] at happend
  unfold readTemplate at hread ⊢
  dsimp only at hread ⊢
  cases hend : (scanTemplate (tail ++ r)).2 with
  | missing =>
    rw [hend] at hread
    cases (Prod.mk.inj hread).1
  | closed =>
    rw [hend] at hread
    obtain ⟨hk, rfl⟩ := Prod.mk.inj hread
    rw [hmore (by simp [hend]) hrest, hend]
    exact ⟨.inl (Except.ok.inj hk).symm, m.advance (Scan.cons opening ⟨tail, rest, 0⟩),
      by rw [← hk], rfl, rfl, hmode.advance _ _, rfl⟩
  | substitution =>
    rw [hend] at hread
    obtain ⟨hk, rfl⟩ := Prod.mk.inj hread
    rw [hmore (by simp [hend]) hrest, hend]
    exact ⟨.inr (Except.ok.inj hk).symm,
      { m.advance (Scan.cons opening ⟨tail, rest, 0⟩) with braces := .template :: m.braces },
      by rw [← hk]; rfl, rfl, rfl, ⟨hmode.owed, hmode.regexAllowed, hmode.afterMember,
      congrArg (Brace.template :: ·) hmode.braces⟩, rfl⟩

/-- A number sign belongs to the word behind it if that takes anything. -/
theorem readPrivateName_eq {c : Char} (h : (scanWord false (c :: r)).text ≠ []) :
    l.readPrivateName (c :: r) =
      (if (scanWord false (c :: r)).past > 0 && !l.afterMember then .error .overrun
        else .ok .privateName, l.advance ((scanWord false (c :: r)).cons '#')) := by
  unfold readPrivateName
  dsimp only
  split
  · rename_i hnil _
    exact absurd hnil h
  · split <;> rfl

/-- A private name is read on exactly if the scan behind its number sign goes on. -/
theorem readPrivateName_cases {c : Char} {tail : List Char} (hmode : SameMode l m)
    (hc : isWordStart c = true) (hread : l.readPrivateName (c :: tail ++ r) = (.ok k, l'))
    (hzero : l'.owed = 0) (hm' : m.read = m.readPrivateName (c :: tail ++ rest)) :
    k.StopsBefore ('#' :: c :: tail) rest ∧ ReadsOff m k ('#' :: c :: tail) rest l' ∨
      ¬ k.StopsBefore ('#' :: c :: tail) rest ∧ Misreads m k ('#' :: c :: tail) := by
  -- a number sign in front of a space would leave bytes of the space
  have hne : (scanWord false (c :: (tail ++ r))).text ≠ [] := by
    intro htext
    have hsize := utf8Size_of_isUnicodeSpace (isUnicodeSpace_of_text_nil hc htext)
    unfold readPrivateName at hread
    dsimp only [List.cons_append] at hread
    rw [htext] at hread
    obtain ⟨-, rfl⟩ := Prod.mk.inj hread
    dsimp only at hzero
    omega
  have hne' : (scanWord false (c :: (tail ++ rest))).text ≠ [] := fun hnil =>
    hne (scanWord_text_eq_nil_iff.2 (scanWord_text_eq_nil_iff.1 hnil))
  rw [List.cons_append, readPrivateName_eq hne] at hread
  rw [List.cons_append, readPrivateName_eq hne'] at hm'
  obtain ⟨hk, rfl⟩ := Prod.mk.inj hread
  have hname : .privateName = k := by
    split at hk
    · cases hk
    · exact Except.ok.inj hk
  subst hname
  have hsplit : ((scanWord false (c :: (tail ++ rest))).cons '#').text ++
      ((scanWord false (c :: (tail ++ rest))).cons '#').rest = '#' :: c :: tail ++ rest :=
    congrArg ('#' :: ·) (scanWord_text_append_rest false (c :: (tail ++ rest)))
  rcases readsOff_or_misreads m.braces hm' hsplit (scanWord_past _ _)
    (hmode.advance _ _) (fun hx => by
      rw [Scan.cons_eq_iff.1 hx]
      rfl) with ⟨hx, hreads⟩ | ⟨hx, hmisreads⟩
  · exact .inl ⟨Scan.cons_eq_iff.1 hx, hreads⟩
  · exact .inr ⟨fun hstops => hx (Scan.cons_eq_iff.2 hstops), hmisreads⟩

/-- A punctuator is read on exactly if its scan goes on. -/
theorem readMark_cases {c : Char} {tail : List Char} (hmode : SameMode l m)
    (hl : l.rest = c :: tail ++ r) (hm : m.rest = c :: tail ++ rest)
    (hread : l.readMark = (.ok k, l')) (hrest : l'.rest = r)
    (hdot : c = '.' → tail = [] → ∀ d ∈ rest.head?, Ascii.isDigit d = false)
    (hsharp : c = '#' → tail = [] → ∀ d ∈ rest.head?, isWordStart d = false)
    (hm' : m.read = m.readMark) :
    k.StopsBefore (c :: tail) rest ∧ ReadsOff m k (c :: tail) rest l' ∨
      ¬ k.StopsBefore (c :: tail) rest ∧ Misreads m k (c :: tail) := by
  have hbraces : ∀ entry ∈ Punct.spellings, entry.1 ≠ .lBrace ∧ entry.1 ≠ .rBrace ∧
      (entry.1 = .dot → entry.2.toList = ['.']) := by decide
  have hspelled : ∀ entry ∈ Punct.spellings, ∀ other ∈ Punct.spellings,
      entry.2.toList = other.2.toList → entry.1 = other.1 := by decide +kernel
  unfold readMark at hread hm'
  rw [hl, List.cons_append] at hread
  rw [hm, List.cons_append] at hm'
  cases hfound : scanPunct (c :: (tail ++ r)) with
  | none =>
    rw [hfound] at hread
    rw [scanPunct_eq_none hfound] at hm'
    obtain ⟨hk, rfl⟩ := Prod.mk.inj hread
    obtain rfl : tail = [] := by simpa [advance] using hrest
    obtain rfl := Except.ok.inj hk
    exact .inl ⟨fun htext => hsharp (List.cons.inj htext).1 rfl, m.advance ⟨[c], rest, 0⟩, hm',
      rfl, rfl, hmode.advance _ _, rfl⟩
  | some found =>
    obtain ⟨mark, x⟩ := found
    rw [hfound] at hread
    obtain ⟨hk, rfl⟩ := Prod.mk.inj hread
    obtain rfl := Except.ok.inj hk
    obtain ⟨spelling, hmem, htext, hsplit, hpast⟩ := scanPunct_eq_some hfound
    have hx : spelling.toList = c :: tail := by
      rw [← htext]
      rw [show x.rest = r from hrest] at hsplit
      exact List.append_cancel_right hsplit
    obtain ⟨hlBrace, hrBrace, hpoint⟩ := hbraces _ hmem
    have hstops : TokenKind.StopsBefore (c :: tail) rest (.punct mark) ↔
        scanPunct (c :: (tail ++ rest)) = some (mark, ⟨c :: tail, rest, 0⟩) := by
      constructor
      · rintro (h | h | ⟨h, -⟩)
        · exact absurd h hlBrace
        · exact absurd h hrBrace
        · exact h
      · intro h
        refine .inr (.inr ⟨h, fun hmark => ?_⟩)
        obtain ⟨rfl, rfl⟩ := List.cons.inj (hx.symm.trans (hpoint hmark))
        exact hdot rfl rfl
    rw [hstops]
    cases hfound' : scanPunct (c :: (tail ++ rest)) with
    | none =>
      rw [hfound'] at hm'
      exact .inr ⟨by simp, misreads_of_ne hm' (by simp)⟩
    | some found' =>
      obtain ⟨mark', y⟩ := found'
      rw [hfound'] at hm'
      obtain ⟨spelling', hmem', htext', hsplit', hpast'⟩ := scanPunct_eq_some hfound'
      have hmark (hy : y = ⟨c :: tail, rest, 0⟩) : mark' = mark := by
        rw [hy] at htext'
        exact hspelled _ hmem' _ hmem (htext'.symm.trans hx.symm)
      rcases readsOff_or_misreads m.braces hm' hsplit' (.inl hpast') (hmode.advance x y)
        (fun hy => by rw [hmark hy]) with ⟨hy, hreads⟩ | ⟨hy, hmisreads⟩
      · exact .inl ⟨by rw [hmark hy, hy], hreads⟩
      · exact .inr ⟨fun h => hy (Prod.mk.inj (Option.some.inj h)).2, hmisreads⟩

/-! ## Points and number signs -/

theorem read_of_point (hl : l.rest = '.' :: r) :
    l.read = if (r.head?.map Ascii.isDigit).getD false then
      (.ok .number, l.advance (scanNumber l.rest)) else l.readMark := by
  have hstart : l.starts '.' r =
      if (r.head?.map Ascii.isDigit).getD false then .number else .mark := by
    unfold starts
    cases (r.head?.map Ascii.isDigit).getD false <;> rfl
  rw [read_cons hl, hstart, hl]
  split <;> rfl

theorem read_of_sharp (hl : l.rest = '#' :: r) :
    l.read = if (r.head?.map isWordStart).getD false then l.readPrivateName r else l.readMark := by
  have hstart : l.starts '#' r =
      if (r.head?.map isWordStart).getD false then .privateName else .mark := by
    unfold starts
    cases (r.head?.map isWordStart).getD false <;> rfl
  rw [read_cons hl, hstart]
  split <;> rfl

/-- A point is a token of its own in front of anything but a digit. -/
theorem read_point (hl : l.rest = '.' :: r) (hread : l.read = (.ok k, l')) (hrest : l'.rest = r) :
    k = .punct .dot ∧ (r.head?.map Ascii.isDigit).getD false = false := by
  rw [read_of_point hl, hl] at hread
  split at hread
  · rename_i hdigit
    obtain ⟨-, rfl⟩ := Prod.mk.inj hread
    cases r with
    | nil => cases hdigit
    | cons d r => exact absurd hrest (scanNumber_point hdigit r)
  · rename_i hdigit
    refine ⟨?_, Bool.eq_false_iff.2 hdigit⟩
    unfold readMark at hread
    rw [hl] at hread
    cases hfound : scanPunct ('.' :: r) with
    | none => exact absurd (scanPunct_eq_none hfound []) (by decide)
    | some found =>
      obtain ⟨mark, x⟩ := found
      rw [hfound] at hread
      obtain ⟨hk, rfl⟩ := Prod.mk.inj hread
      obtain ⟨spelling, hmem, htext, hsplit, -⟩ := scanPunct_eq_some hfound
      rw [show x.rest = r from hrest] at hsplit
      have hspelled : spelling.toList = ['.'] :=
        htext.symm.trans (List.append_cancel_right (hsplit.trans (show _ = ['.'] ++ r from rfl)))
      have hdots : ∀ entry ∈ Punct.spellings, entry.2.toList = ['.'] → entry.1 = .dot := by
        decide
      exact (Except.ok.inj hk).symm.trans (congrArg TokenKind.punct (hdots _ hmem hspelled))

/-- A number sign is a token of its own in front of anything but a word. -/
theorem read_sharp (hl : l.rest = '#' :: r) (hread : l.read = (.ok k, l')) (hrest : l'.rest = r)
    (hzero : l'.owed = 0) : k = .unknown ∧ (r.head?.map isWordStart).getD false = false := by
  rw [read_of_sharp hl] at hread
  split at hread
  · rename_i hstart
    cases r with
    | nil => cases hstart
    | cons d r =>
      by_cases hnil : (scanWord false (d :: r)).text = []
      · have hsize := utf8Size_of_isUnicodeSpace (isUnicodeSpace_of_text_nil hstart hnil)
        unfold readPrivateName at hread
        dsimp only at hread
        rw [hnil] at hread
        obtain ⟨-, rfl⟩ := Prod.mk.inj hread
        dsimp only at hzero
        omega
      · rw [readPrivateName_eq hnil] at hread
        obtain ⟨-, rfl⟩ := Prod.mk.inj hread
        have hsplit := scanWord_text_append_rest false (d :: r)
        rw [show (scanWord false (d :: r)).rest = d :: r from hrest] at hsplit
        exact absurd (by simpa using hsplit) hnil
  · rename_i hstart
    refine ⟨?_, Bool.eq_false_iff.2 hstart⟩
    unfold readMark at hread
    rw [hl] at hread
    have hnone : scanPunct ('#' :: r) = none := scanPunct_eq_none (r := []) (by decide) r
    rw [hnone] at hread
    exact (Except.ok.inj (Prod.mk.inj hread).1).symm

/-! ## All tokens -/

theorem head?_fails_iff {p : Char → Bool} :
    (rest.head?.map p).getD false = false ↔ ∀ d ∈ rest.head?, p d = false := by
  cases rest <;> simp

/-- A test of the character behind a first one does not reach behind their text if it fails on what
follows. -/
theorem head?_test_eq {p : Char → Bool} {c x : Char} {tail : List Char}
    (h : c = x → tail = [] → (rest.head?.map p).getD false = false) :
    (c == x && ((tail ++ rest).head?.map p).getD false) =
      (c == x && (tail.head?.map p).getD false) := by
  by_cases hc : c = x
  · cases tail with
    | nil => exact congrArg (c == x && ·) (h hc rfl)
    | cons d tail => rfl
  · rw [beq_false_of_ne hc, Bool.false_and, Bool.false_and]

/-- What takes the letters that follow a text takes that text exactly if no letter follows. -/
theorem takeWhile_prepend_eq_iff {p : Char → Bool} {tail : List Char} :
    (Scan.takeWhile p rest).prepend tail = ⟨tail, rest, 0⟩ ↔ ∀ d ∈ rest.head?, p d = false := by
  cases rest with
  | nil => simp [Scan.takeWhile, Scan.prepend]
  | cons d rest =>
    by_cases hd : p d = true
    · simp [Scan.takeWhile, Scan.prepend, hd]
    · simp [Scan.takeWhile, Scan.prepend, hd]

/-- A string is read the same way whatever follows it. -/
theorem scanString_of_rest {quote : Char} {tail : List Char} (hquote : quote ≠ '\\')
    (hclosed : (scanString quote (tail ++ r)).2 = true)
    (hrest : (scanString quote (tail ++ r)).1.rest = r) :
    scanString quote (tail ++ rest) = (⟨tail, rest, 0⟩, true) := by
  have hsplit := scanString_text_append_rest quote (tail ++ r)
  rw [hrest] at hsplit
  have happend := scanString_append hquote hclosed rest
  rwa [List.append_cancel_right hsplit] at happend

/-- A regular expression takes the letters that follow it. -/
theorem scanRegex_of_rest {tail : List Char} (hclosed : (scanRegex (tail ++ r)).2 = true)
    (hrest : (scanRegex (tail ++ r)).1.rest = r) :
    scanRegex (tail ++ rest) = ((Scan.takeWhile Ascii.isLetter rest).prepend tail, true) := by
  have hsplit := scanRegex_text_append_rest (tail ++ r)
  rw [hrest] at hsplit
  have hmore := scanRegex_more hclosed rest
  rwa [List.append_cancel_right hsplit] at hmore

/-- A brace that closes is a token of its own, or opens the next part of a template. -/
theorem readClosing_cases {c : Char} {tail : List Char} (hmode : SameMode l m)
    (hread : l.readClosing c (tail ++ r) = (.ok k, l')) (hrest : l'.rest = r)
    (hm' : m.read = m.readClosing c (tail ++ rest)) :
    k.StopsBefore (c :: tail) rest ∧ ReadsOff m k (c :: tail) rest l' := by
  unfold readClosing at hread hm'
  rw [hmode.braces] at hm'
  rcases hbraces : l.braces with _ | ⟨_ | _, braces⟩
  case cons.template =>
    rw [hbraces] at hread hm'
    have hinner : SameMode { l with braces := braces } { m with braces := braces } :=
      ⟨hmode.owed, hmode.regexAllowed, hmode.afterMember, rfl⟩
    obtain ⟨hk, m', hread', hoff⟩ := readTemplate_readsOff hinner hread hrest
    refine ⟨?_, m', hm'.trans hread', hoff⟩
    rcases hk with rfl | rfl <;> trivial
  all_goals
    rw [hbraces] at hread hm'
    obtain ⟨hk, rfl⟩ := Prod.mk.inj hread
    obtain rfl := Except.ok.inj hk
    obtain rfl : tail = [] := by simpa [advance] using hrest
    exact ⟨.inr (.inl rfl), _, hm', rfl, rfl,
      ⟨hmode.owed, hmode.regexAllowed, hmode.afterMember, rfl⟩, rfl⟩

/-- A regular expression is read on exactly if a letter follows. -/
theorem readRegex_cases {c : Char} {tail : List Char} (hmode : SameMode l m)
    (hread : l.readFrom c (tail ++ r) .regex = (.ok k, l')) (hrest : l'.rest = r)
    (hm' : m.read = m.readFrom c (tail ++ rest) .regex) :
    k.StopsBefore (c :: tail) rest ∧ ReadsOff m k (c :: tail) rest l' ∨
      ¬ k.StopsBefore (c :: tail) rest ∧ Misreads m k (c :: tail) := by
  dsimp only [readFrom] at hread hm'
  obtain ⟨hk, rfl⟩ := Prod.mk.inj hread
  split at hk
  case isFalse => cases hk
  case isTrue hclosed =>
    obtain rfl := Except.ok.inj hk
    rw [scanRegex_of_rest hclosed hrest] at hm'
    have hsplit : c :: (tail ++ (Scan.takeWhile Ascii.isLetter rest).text) ++
        (Scan.takeWhile Ascii.isLetter rest).rest = c :: tail ++ rest := by
      rw [List.cons_append, List.append_assoc, Scan.takeWhile_text_append_rest]
      rfl
    rcases readsOff_or_misreads (x := ((Scan.takeWhile Ascii.isLetter rest).prepend tail).cons c)
      m.braces hm' hsplit (.inl rfl) (hmode.advance _ _) (fun _ => rfl) with
      ⟨hx, hreads⟩ | ⟨hx, hmisreads⟩
    · exact .inl ⟨takeWhile_prepend_eq_iff.1 (Scan.cons_eq_iff.1 hx), hreads⟩
    · exact .inr ⟨fun h => hx (Scan.cons_eq_iff.2 (takeWhile_prepend_eq_iff.2 h)), hmisreads⟩

/-- Lexers in the same mode start alike in front of two rests that neither a point nor a number sign
goes on with. -/
theorem starts_eq {c : Char} {tail : List Char} (hmode : SameMode l m)
    (hlPoint : c = '.' → tail = [] → (r.head?.map Ascii.isDigit).getD false = false)
    (hlSharp : c = '#' → tail = [] → (r.head?.map isWordStart).getD false = false)
    (hmPoint : c = '.' → tail = [] → (rest.head?.map Ascii.isDigit).getD false = false)
    (hmSharp : c = '#' → tail = [] → (rest.head?.map isWordStart).getD false = false) :
    m.starts c (tail ++ rest) = l.starts c (tail ++ r) := by
  unfold starts Start.of
  rw [head?_test_eq hlPoint, head?_test_eq hlSharp, head?_test_eq hmPoint, head?_test_eq hmSharp,
    hmode.regexAllowed]

/-- **Reading in front of another rest.**  A lexer in the same mode reads the token there if it
stops, and else none of its kind and length. -/
theorem read_cases {c : Char} {tail : List Char} (hmode : SameMode l m)
    (hl : l.rest = c :: tail ++ r) (hm : m.rest = c :: tail ++ rest)
    (hread : l.read = (.ok k, l')) (hrest : l'.rest = r)
    (hpos : l'.pos = l.pos + Text.byteLength (c :: tail)) (hzero : l'.owed = 0) :
    k.StopsBefore (c :: tail) rest ∧ ReadsOff m k (c :: tail) rest l' ∨
      ¬ k.StopsBefore (c :: tail) rest ∧ Misreads m k (c :: tail) := by
  -- a point and a number sign alone go on with what follows them
  have hlPoint (hc : c = '.') (htail : tail = []) :
      (r.head?.map Ascii.isDigit).getD false = false := by
    subst hc htail
    exact (read_point hl hread hrest).2
  have hlSharp (hc : c = '#') (htail : tail = []) :
      (r.head?.map isWordStart).getD false = false := by
    subst hc htail
    exact (read_sharp hl hread hrest hzero).2
  by_cases hmPoint : c = '.' ∧ tail = [] ∧ (rest.head?.map Ascii.isDigit).getD false = true
  · obtain ⟨rfl, rfl, hdigit⟩ := hmPoint
    obtain ⟨rfl, -⟩ := read_point hl hread hrest
    have hnumber := read_of_point (l := m) (r := rest) hm
    rw [if_pos hdigit] at hnumber
    refine .inr ⟨?_, misreads_of_ne hnumber (by simp)⟩
    rintro (h | h | ⟨-, h⟩)
    · cases h
    · cases h
    · rw [head?_fails_iff.2 (h rfl)] at hdigit
      cases hdigit
  by_cases hmSharp : c = '#' ∧ tail = [] ∧ (rest.head?.map isWordStart).getD false = true
  · obtain ⟨rfl, rfl, hstart⟩ := hmSharp
    obtain ⟨rfl, -⟩ := read_sharp hl hread hrest hzero
    have hname := read_of_sharp (l := m) (r := rest) hm
    rw [if_pos hstart] at hname
    have hne : (m.readPrivateName rest).1 ≠ .ok .unknown := by
      unfold readPrivateName
      dsimp only
      split
      · simp
      · split <;> simp
    refine .inr ⟨fun h => ?_, misreads_of_ne hname hne⟩
    rw [head?_fails_iff.2 (h rfl)] at hstart
    cases hstart
  have hmPoint' : c = '.' → tail = [] → (rest.head?.map Ascii.isDigit).getD false = false :=
    fun hc htail => Bool.eq_false_iff.2 fun h => hmPoint ⟨hc, htail, h⟩
  have hmSharp' : c = '#' → tail = [] → (rest.head?.map isWordStart).getD false = false :=
    fun hc htail => Bool.eq_false_iff.2 fun h => hmSharp ⟨hc, htail, h⟩
  -- so the token starts alike in front of both rests
  obtain ⟨start, hstart, htells, heq⟩ := exists_start hl
  rw [heq] at hread
  have hm' : m.read = m.readFrom c (tail ++ rest) start := by
    rw [read_cons hm, List.append_eq, starts_eq hmode hlPoint hlSharp hmPoint' hmSharp']
    exact congrArg _ hstart
  cases start with
  | word => exact readWord_cases hmode hl hm hread hrest hpos hm'
  | number =>
    obtain ⟨hk, rfl⟩ := Prod.mk.inj hread
    obtain rfl := Except.ok.inj hk
    exact readsOff_or_misreads m.braces hm' (scanNumber_text_append_rest _)
      (.inl (scanNumber_past _)) (hmode.advance _ _) fun _ => rfl
  | string =>
    dsimp only [readFrom] at hread hm'
    obtain ⟨hk, rfl⟩ := Prod.mk.inj hread
    split at hk
    case isFalse => cases hk
    case isTrue hclosed =>
      obtain rfl := Except.ok.inj hk
      have hquote : c ≠ '\\' := by
        rcases htells with rfl | rfl <;> decide
      rw [scanString_of_rest hquote hclosed hrest] at hm'
      exact .inl ⟨trivial, _, hm', rfl, rfl, hmode.advance _ _, rfl⟩
  | template =>
    obtain ⟨hk, m', hread', hoff⟩ := readTemplate_readsOff hmode hread hrest
    refine .inl ⟨?_, m', hm'.trans hread', hoff⟩
    rcases hk with rfl | rfl <;> trivial
  | privateName =>
    obtain ⟨rfl, hword⟩ := htells
    cases tail with
    | nil => cases hword.symm.trans (hlSharp rfl rfl)
    | cons d tail => exact readPrivateName_cases hmode hword hread hzero hm'
  | regex => exact readRegex_cases hmode hread hrest hm'
  | openBrace =>
    obtain ⟨hk, rfl⟩ := Prod.mk.inj hread
    obtain rfl := Except.ok.inj hk
    obtain rfl : tail = [] := by simpa [advance] using hrest
    exact .inl ⟨.inl rfl, _, hm', rfl, rfl, ⟨hmode.owed, hmode.regexAllowed, hmode.afterMember,
      congrArg (Brace.block :: ·) hmode.braces⟩, rfl⟩
  | closeBrace => exact .inl (readClosing_cases hmode hread hrest hm')
  | mark =>
    exact readMark_cases hmode hl hm hread hrest
      (fun hc htail => head?_fails_iff.1 (hmPoint' hc htail))
      (fun hc htail => head?_fails_iff.1 (hmSharp' hc htail)) hm'

end Lexer

end EsModules
