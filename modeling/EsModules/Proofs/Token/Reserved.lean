import EsModules.Proofs.Results
import EsModules.Proofs.Text.Edit
import EsModules.Proofs.Token.Words

/-!
# Reserved words among the tokens

A word of the source is a reserved word if it is spelled like one and no point stands in front of
it.  What was read last decides that, over spaces and comments, and the lexer remembers it from
call to call.

* `followsMember`: the last of some tokens makes the next word a property name.
* `Judged`, `Lexer.Run.judged`: how the lexer tells reserved words from names.
* `KeywordPlaces`, `keywordSpans_exact`: where the places of a reserved word are, and where they
  are not.
-/

namespace EsModules

variable {source : List Char} {t : Token} {member : Bool}

/-! ## Words and what stands in front of them -/

/-- Whether a word behind some tokens is a property name: what their last one says, and behind no
token what is given. -/
def followsMember (member : Bool) (tokens : List Token) : Bool :=
  (tokens.getLast?.map fun t => t.kind.isMemberAccess).getD member

theorem followsMember_cons (member : Bool) (t : Token) (ts : List Token) :
    followsMember member (t :: ts) = followsMember t.kind.isMemberAccess ts := by
  unfold followsMember
  rw [List.getLast?_cons]
  cases ts.getLast? <;> rfl

/-- A reserved word is spelled by its text and is no property name; a name that is spelled like a
reserved word is a property name. -/
structure Judged (source : List Char) (member : Bool) (t : Token) : Prop where
  keyword : ∀ word, t.kind = .keyword word →
    t.span.Covers source word.spelling.toList ∧ member = false
  name : ∀ word : Keyword, t.kind = .identifier → t.span.Covers source word.spelling.toList →
    member = true

theorem Keyword.mem_spellings (word : Keyword) : (word, word.spelling) ∈ spellings := by
  have hfind : (spellings.find? fun entry => entry.1 == word).isSome = true := by
    cases word <;> rfl
  obtain ⟨⟨word', spelling⟩, hentry⟩ := Option.isSome_iff_exists.1 hfind
  obtain rfl : word' = word := by simpa using List.find?_some hentry
  have hspelling : word'.spelling = spelling := by
    rw [Keyword.spelling, hentry]
    rfl
  exact hspelling ▸ List.mem_of_find?_eq_some hentry

/-- No two reserved words have the same spelling. -/
theorem Keyword.ofSpelling?_of_mem_spellings : ∀ entry ∈ spellings,
    ofSpelling? entry.2.toList = some entry.1 := by
  decide +kernel

/-- A reserved word has the spelling that it is looked up by. -/
theorem Keyword.ofSpelling?_spelling (word : Keyword) :
    ofSpelling? word.spelling.toList = some word :=
  ofSpelling?_of_mem_spellings (word, word.spelling) word.mem_spellings

namespace Lexer

variable {l l' : Lexer} {k : TokenKind}

/-- A text that is read within the input is covered by the span of its token. -/
theorem covers_advance {front : List Char} {s : Scan} (hs : source = front ++ l.rest)
    (hpos : l.pos = Text.byteLength front) (hsplit : s.text ++ s.rest = l.rest)
    (hpast : s.past = 0) : Span.Covers source s.text ⟨l.pos, (l.advance s).pos⟩ :=
  ⟨front, s.rest, by rw [hs, hsplit], hpos, by
    simp only [advance, Scan.width, hpast]
    omega⟩

/-- A word that is read has the text that the span of its token covers. -/
theorem scanWord_text_of_covers {front text : List Char} (hs : source = front ++ l.rest)
    (hpos : l.pos = Text.byteLength front)
    (hcovers : Span.Covers source text ⟨l.pos, (l.advance (scanWord false l.rest)).pos⟩) :
    (scanWord false l.rest).text = text := by
  have hsplit := scanWord_text_append_rest false l.rest
  rcases scanWord_past false l.rest with hpast | ⟨hpast, hrest⟩
  · rw [← hcovers.text_eq, (covers_advance hs hpos hsplit hpast).text_eq]
  · -- a word that goes on behind the source is covered by no span
    obtain ⟨before, back, hcut, -, hstop⟩ := hcovers
    have hsize := congrArg Text.byteLength hcut
    have hsize' := congrArg Text.byteLength hs
    rw [hrest, List.append_nil] at hsplit
    simp only [Text.byteLength_append] at hsize hsize'
    simp only [advance, Scan.width, hpast, hsplit] at hstop
    omega

/-- What was read in front of a token tells whether it is a reserved word or a name. -/
theorem Reads.judged {front : List Char} (h : Reads l k l') (hs : source = front ++ l.rest)
    (hpos : l.pos = Text.byteLength front) :
    Judged source l.afterMember ⟨k, ⟨l.pos, l'.pos⟩⟩ := by
  constructor
  case keyword =>
    rintro word rfl
    cases h with
    | keyword hl hc hm hpast hw =>
      rw [Keyword.spelling_of_ofSpelling? hw]
      exact ⟨covers_advance hs hpos (scanWord_text_append_rest _ _) hpast, hm⟩
  case name =>
    rintro word rfl hcovers
    cases h with
    | property _ _ hm => exact hm
    | name _ _ _ _ hnone =>
      rw [scanWord_text_of_covers hs hpos hcovers, Keyword.ofSpelling?_spelling] at hnone
      cases hnone

/-! ## Calls and runs -/

/-- A call tells words by what the call before has read, and leaves the next one what it has read
itself. -/
theorem Gives.judged (h : Gives l t l') (hk : t.kind ≠ .eof) (hplace : Stands source l) :
    Judged source l.afterMember t ∧ l'.afterMember = t.kind.isMemberAccess := by
  cases h with
  | owed => exact ⟨⟨nofun, nofun⟩, rfl⟩
  | eof => exact absurd rfl hk
  | read howed hclosed _ hreads =>
    refine ⟨?_, rfl⟩
    obtain ⟨hskip, -⟩ := hplace.skip_tiles howed hclosed
    cases hskip with
    | between front hs hpos _ => exact hreads.judged hs hpos
    | inside _ _ _ _ _ hpos => exact absurd hpos (by simp [skip, howed])
    | beyond hrest _ _ =>
      -- behind the end of the source nothing but the end is read
      obtain ⟨text, past, hne, hb⟩ := hreads.between hk howed (skip_rest_head hclosed)
      exact absurd (List.append_eq_nil_iff.1 (hb.rest ▸ hrest)).1 hne

/-- In a run every word is told by the token in front of it. -/
theorem Run.judged {ts : List Token} (h : Run l ts l') (hplace : Stands source l) :
    ∀ front t back, ts = front ++ t :: back →
      Judged source (followsMember l.afterMember front) t := by
  induction h with
  | done => exact fun front t back hts => absurd hts.symm (by simp)
  | step hgives hk _ ih =>
    intro front t back hts
    obtain ⟨hjudged, hmember⟩ := hgives.judged hk hplace
    cases front with
    | nil =>
      obtain ⟨rfl, -⟩ := List.cons.inj hts
      exact hjudged
    | cons p front =>
      obtain ⟨rfl, htail⟩ := List.cons.inj hts
      rw [followsMember_cons, ← hmember]
      exact ih (hgives.tiles hk hplace).1 front t back htail

theorem start_afterMember (source : List Char) : (start source).afterMember = false := by
  unfold start
  dsimp only
  split <;> rfl

end Lexer

theorem judged_of_lexemize {tokens : List Token} {comments : List Span}
    (h : lexemize source = .ok (tokens, comments)) {front back : List Token}
    (ht : tokens = front ++ t :: back) : Judged source (followsMember false front) t := by
  obtain ⟨l, hrun, -⟩ := Lexer.run_of_lexemes h
  exact Lexer.start_afterMember source ▸ hrun.judged (Lexer.start_tiles source).1 front t back ht

/-! ## The places of a reserved word -/

/-- Whether a lexeme is one of some tokens and comments. -/
def Lexeme.IsAmong (tokens : List Token) (comments : List Span) : Lexeme → Prop
  | token t => t ∈ tokens
  | comment s => s ∈ comments

/-- Two tokens or comments of a source have no byte in common. -/
theorem disjoint_of_lexemize {tokens : List Token} {comments : List Span}
    (h : lexemize source = .ok (tokens, comments)) {x y : Lexeme} (hx : x.IsAmong tokens comments)
    (hy : y.IsAmong tokens comments) (hne : x ≠ y) : x.span.Disjoint y.span := by
  obtain ⟨xs, hxs, rfl, rfl⟩ := exists_tiles_of_lexemize h
  have mem : ∀ z : Lexeme, z.IsAmong (xs.filterMap Lexeme.token?) (xs.filterMap Lexeme.comment?) →
      z ∈ xs := by
    intro z hz
    cases z with
    | token t =>
      obtain ⟨x, hx, hxt⟩ := List.mem_filterMap.1 hz
      cases x <;> cases hxt
      exact hx
    | comment s =>
      obtain ⟨x, hx, hxs⟩ := List.mem_filterMap.1 hz
      cases x <;> cases hxs
      exact hx
  rcases Nat.le_total x.span.start y.span.start with hle | hle
  · exact Span.disjoint_of_stop_le (hxs.stop_le x (mem x hx) y (mem y hy) hne hle)
  · exact (Span.disjoint_of_stop_le (hxs.stop_le y (mem y hy) x (mem x hx) hne.symm hle)).symm

/-- The places of a reserved word among the tokens and comments of a source: those of its tokens,
from the front to the back and apart from each other and from all other tokens and comments.  Each
covers the spelling of the word and does not follow a point; a name with that spelling does. -/
structure KeywordPlaces (source : List Char) (word : Keyword) (tokens : List Token)
    (comments places : List Span) : Prop where
  mem_iff : ∀ s, s ∈ places ↔ ∃ t ∈ tokens, t.kind = .keyword word ∧ t.span = s
  ordered : places.Pairwise fun s s' => s.start < s'.start ∧ s.Disjoint s'
  spelled : ∀ s ∈ places, s.Covers source word.spelling.toList
  apart_comments : ∀ s ∈ places, ∀ c ∈ comments, s.Disjoint c
  apart_tokens : ∀ s ∈ places, ∀ t ∈ tokens, t.kind ≠ .keyword word → s.Disjoint t.span
  reserved : ∀ front t back, tokens = front ++ t :: back → t.kind = .keyword word →
    followsMember false front = false
  names : ∀ front t back, tokens = front ++ t :: back → t.kind = .identifier →
    t.span.Covers source word.spelling.toList → followsMember false front = true

/-- **The places of a reserved word** in a source of less than 4 GiB are exactly where the source
has it, not in a comment or another token, and not as a property name. -/
theorem keywordSpans_exact {word : Keyword} {places : List Span}
    (hsize : Text.byteLength source < 2 ^ 32 - 1) (h : keywordSpans source word = .ok places) :
    ∃ tokens comments, tokenize source = .ok (tokens, comments) ∧
      KeywordPlaces source word tokens comments places := by
  obtain ⟨⟨tokens, comments⟩, haccepted, rfl⟩ := map_eq_ok.1 h
  refine ⟨tokens, comments, haccepted, ?_⟩
  have htokens := (tokenize_eq_ok_of_lt hsize).1 haccepted
  obtain ⟨hne, hordered⟩ := ordered_of_lexemize htokens
  have hjudged : ∀ front t back, tokens = front ++ t :: back →
      Judged source (followsMember false front) t :=
    fun front t back => judged_of_lexemize htokens
  have hmem : ∀ s, s ∈ (tokens.filter fun t => t.kind == .keyword word).map Token.span ↔
      ∃ t ∈ tokens, t.kind = .keyword word ∧ t.span = s := by
    simp [and_assoc]
  constructor
  case mem_iff => exact hmem
  case ordered =>
    refine List.pairwise_map.2 ((hordered.filter _).imp_of_mem fun {a b} ha _ hstop => ?_)
    have hlt := hne a (List.mem_filter.1 ha).1
    exact ⟨by omega, Span.disjoint_of_stop_le hstop⟩
  case spelled =>
    intro s hs
    obtain ⟨t, ht, hk, rfl⟩ := (hmem s).1 hs
    obtain ⟨front, back, hts⟩ := List.append_of_mem ht
    exact ((hjudged front t back hts).keyword word hk).1
  case apart_comments =>
    intro s hs c hc
    obtain ⟨t, ht, -, rfl⟩ := (hmem s).1 hs
    exact disjoint_of_lexemize htokens (x := .token t) (y := .comment c) ht hc nofun
  case apart_tokens =>
    intro s hs t ht hk
    obtain ⟨t', ht', hk', rfl⟩ := (hmem s).1 hs
    refine disjoint_of_lexemize htokens (x := .token t') (y := .token t) ht' ht ?_
    rintro ⟨⟩
    exact hk hk'
  case reserved =>
    intro front t back hts hk
    exact ((hjudged front t back hts).keyword word hk).2
  case names =>
    intro front t back hts hk hcovers
    exact (hjudged front t back hts).name word hk hcovers

/-- A point makes the first of these words a property name, over the comment behind it. -/
theorem keywordSpans_exact_property :
    keywordSpans "a./*import*/import;import 'import'".toList .importKw = .ok [⟨19, 25⟩] ∧
    ∃ tokens comments, tokenize "a./*import*/import;import 'import'".toList =
        .ok (tokens, comments) ∧
      KeywordPlaces "a./*import*/import;import 'import'".toList .importKw tokens comments
        [⟨19, 25⟩] :=
  have h : keywordSpans "a./*import*/import;import 'import'".toList .importKw =
      .ok [⟨19, 25⟩] := by
    decide +kernel
  ⟨h, keywordSpans_exact (by decide) h⟩

/-- A word behind 4 GiB of blanks. -/
def farImport : List Char := List.replicate (2 ^ 32) ' ' ++ "import".toList

/-- Behind 4 GiB the places of a reserved word do not cover it. -/
theorem keywordSpans_behind : ¬ ∀ (source : List Char) (word : Keyword) (places : List Span),
    keywordSpans source word = .ok places →
    ∃ tokens comments, tokenize source = .ok (tokens, comments) ∧
      KeywordPlaces source word tokens comments places := by
  intro h
  have htokens : tokenize farImport = .ok ([⟨.keyword .importKw, ⟨0, 6⟩⟩], []) := by
    rw [tokenize_eq_lexemize, farImport, lexemize_replicate_space (by decide)]
    decide +kernel
  have hplaces : keywordSpans farImport .importKw = .ok [⟨0, 6⟩] := by
    rw [keywordSpans, htokens]
    rfl
  obtain ⟨tokens, comments, -, hexact⟩ := h _ _ _ hplaces
  have hhead := (hexact.spelled ⟨0, 6⟩ List.mem_cons_self).head?_eq (c := 'i') rfl
  rw [farImport, List.head?_append, List.head?_replicate, if_neg (by decide),
    Option.some_or] at hhead
  exact absurd hhead (by decide)

end EsModules
