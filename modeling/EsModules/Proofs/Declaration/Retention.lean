import EsModules.Declaration.Analyzer
import EsModules.Proofs.Results
import EsModules.Proofs.Token.Tiling

/-!
# Validation keeps the candidates that enclose a keyword

Validation looks at a single keyword for each candidate, the one that halving finds.  Since the
keywords of a source follow one another, that one lies within the candidate whenever any does.

* `Validation.narrow_spec`, `Validation.boundary_spec`: halving finds the place where a test that
  holds up to some place begins to fail.
* `Validation.retain_eq_filter`: validation is a filter that asks for an enclosed keyword.
* `enclosesKeyword_of_start`, `enclosesKeyword_of_forall_lt`: what is kept by keywords in any order.
* `Validator.ordered_of_lexer`: the keywords of a source of less than 4 GiB follow one another.
* `Analyzer.exports_eq_error`, `Analyzer.faults_standard`: when there is no list of exports.
* `validation_eq_filter`: the two together, for every list and for the finders of every source.
-/

namespace EsModules

namespace Validation

/-! ## Halving -/

/-- While a part of a list is halved, the test holds everywhere in front of it and fails
everywhere behind it. -/
theorem narrow_spec {test : Nat → Bool} {n : Nat}
    (hmono : ∀ i j, i ≤ j → j < n → test j = true → test i = true) {fuel base size : Nat}
    (hfuel : size ≤ fuel) (hpos : 0 < size) (hsize : base + size ≤ n)
    (hlow : ∀ i < base, test i = true) (hhigh : ∀ i, base + size ≤ i → i < n → test i = false) :
    narrow test fuel base size < n ∧ (∀ i < narrow test fuel base size, test i = true) ∧
      ∀ i, narrow test fuel base size < i → i < n → test i = false := by
  induction fuel generalizing base size with
  | zero => omega
  | succ fuel ih =>
    unfold narrow
    by_cases hone : size ≤ 1
    · rw [if_pos hone]
      exact ⟨by omega, hlow, fun i hi hin => hhigh i (by omega) hin⟩
    rw [if_neg hone]
    dsimp only
    by_cases hmid : test (base + size / 2) = true
    · rw [if_pos hmid]
      refine ih (by omega) (by omega) (by omega) (fun i hi => ?_) fun i hi hin =>
        hhigh i (by omega) hin
      exact hmono i _ (Nat.le_of_lt hi) (by omega) hmid
    · rw [if_neg hmid]
      refine ih (by omega) (by omega) (by omega) hlow fun i hi hin => ?_
      cases htest : test i with
      | false => rfl
      | true => exact absurd (hmono _ i (by omega) hin htest) hmid

variable {α : Type}

/-- The boundary of a test that holds up to some place: it holds in front of it, and not from
there on. -/
theorem boundary_spec {test : α → Bool} {as : Array α}
    (hmono : as.toList.Pairwise fun a b => test b = true → test a = true) :
    (∀ i (h : i < as.size), i < boundary test as → test as[i] = true) ∧
      ∀ i (h : i < as.size), boundary test as ≤ i → test as[i] = false := by
  have hholds : ∀ i (h : i < as.size), as[i]?.any test = test as[i] := by
    intro i h
    rw [Array.getElem?_eq_getElem h, Option.any_some]
  have hmono' : ∀ i j, i ≤ j → j < as.size → as[j]?.any test = true → as[i]?.any test = true := by
    intro i j hij hj
    rw [hholds i (by omega), hholds j hj]
    rcases Nat.eq_or_lt_of_le hij with rfl | hlt
    · exact id
    · exact List.pairwise_iff_getElem.1 hmono i j (by simp; omega) (by simpa using hj) hlt
  unfold boundary
  dsimp only
  by_cases hempty : as.isEmpty = true
  · have hzero : as.size = 0 := by simpa using hempty
    exact ⟨fun i h => by omega, fun i h => by omega⟩
  have hpos : 0 < as.size := by
    simp only [Array.isEmpty_iff, ← Array.size_eq_zero_iff] at hempty
    omega
  rw [if_neg hempty]
  have hsize : 0 + as.size ≤ as.size := by omega
  obtain ⟨hlt, hbelow, habove⟩ := narrow_spec hmono' (Nat.le_refl as.size) hpos hsize
    (fun i hi => by omega) fun i hi hin => by omega
  generalize narrow (fun i => as[i]?.any test) as.size 0 as.size = base at hlt hbelow habove ⊢
  -- halving leaves one place open: the last at which the test may hold
  by_cases hbase : as[base]?.any test = true
  · rw [if_pos hbase]
    refine ⟨fun i h hi => ?_, fun i h hi => hholds i h ▸ habove i (by omega) h⟩
    rcases Nat.eq_or_lt_of_le (Nat.le_of_lt_succ hi) with rfl | hi
    · exact hholds i h ▸ hbase
    · exact hholds i h ▸ hbelow i hi
  · rw [if_neg hbase]
    refine ⟨fun i h hi => hholds i h ▸ hbelow i hi, fun i h hi => ?_⟩
    rcases Nat.eq_or_lt_of_le hi with rfl | hi
    · exact hholds base h ▸ Bool.eq_false_iff.2 hbase
    · exact hholds i h ▸ habove i hi h

/-- What stands at the boundary is the first element that does not satisfy the test. -/
theorem getElem?_boundary {test : α → Bool} {as : List α}
    (hmono : as.Pairwise fun a b => test b = true → test a = true) :
    as.toArray[boundary test as.toArray]? = as.find? fun a => !test a := by
  obtain ⟨hbelow, habove⟩ := @boundary_spec _ test as.toArray hmono
  simp only [List.size_toArray, List.getElem_toArray] at hbelow habove
  rw [List.getElem?_toArray]
  by_cases hin : boundary test as.toArray < as.length
  · rw [List.getElem?_eq_getElem hin]
    refine (List.find?_eq_some_iff_getElem.2 ⟨?_, _, hin, rfl, fun j hj => ?_⟩).symm
    · rw [habove _ hin (Nat.le_refl _)]
      rfl
    · rw [hbelow j (by omega) hj]
      rfl
  · rw [List.getElem?_eq_none (by omega), eq_comm, List.find?_eq_none]
    intro a ha
    obtain ⟨i, hi, rfl⟩ := List.getElem_of_mem ha
    rw [hbelow i hi (by omega)]
    simp

/-! ## Keywords in order -/

/-- Places that are not empty, stand in source order and have no byte in common. -/
structure Ordered (keywords : List Span) : Prop where
  nonempty : ∀ k ∈ keywords, k.start < k.stop
  sorted : keywords.Pairwise fun a b => a.start ≤ b.start
  disjoint : keywords.Pairwise Span.Disjoint

/-- Of places in order, each ends before the next begins. -/
theorem Ordered.stop_le {keywords : List Span} (h : Ordered keywords) :
    keywords.Pairwise fun a b => a.stop ≤ b.start :=
  (h.sorted.and h.disjoint).imp_of_mem fun _ hb hab => hab.2.stop_le hab.1 (h.nonempty _ hb)

/-- If a range encloses a keyword at all, it encloses the first one that does not start in front
of it. -/
theorem find?_stop_le {keywords : List Span} (h : Ordered keywords) {range k : Span}
    (hk : k ∈ keywords) (hrange : range.encloses k = true) :
    ∃ first, (keywords.find? fun k => !decide (k.start < range.start)) = some first ∧
      first.stop ≤ range.stop := by
  simp only [Span.encloses, Bool.and_eq_true, decide_eq_true_eq] at hrange
  obtain ⟨hstart, hstop⟩ := hrange
  obtain ⟨front, back, rfl⟩ := List.append_of_mem hk
  cases hfront : front.find? fun k => !decide (k.start < range.start) with
  | none =>
    refine ⟨k, ?_, hstop⟩
    rw [List.find?_append, hfront, Option.none_or, List.find?_cons_of_pos]
    simpa using hstart
  | some first =>
    refine ⟨first, ?_, ?_⟩
    · rw [List.find?_append, hfront, Option.some_or]
    · have hmem := List.mem_of_find?_eq_some hfront
      have hle := (List.pairwise_append.1 h.stop_le).2.2 first hmem k List.mem_cons_self
      have hne := h.nonempty k hk
      omega

theorem enclosesKeyword_eq_any {keywords : List Span} (h : Ordered keywords) (range : Span) :
    enclosesKeyword keywords.toArray range = keywords.any range.encloses := by
  have hmono : keywords.Pairwise fun a b =>
      decide (b.start < range.start) = true → decide (a.start < range.start) = true := by
    refine h.sorted.imp fun {a b} hab => ?_
    simp only [decide_eq_true_eq]
    omega
  unfold enclosesKeyword
  rw [getElem?_boundary hmono, Bool.eq_iff_iff, List.any_eq_true]
  constructor
  · intro hfirst
    obtain ⟨k, hk, hstop⟩ := (Option.any_eq_true _ _).1 hfirst
    refine ⟨k, List.mem_of_find?_eq_some hk, ?_⟩
    have hstart := List.find?_some hk
    simp only [Bool.not_eq_true', decide_eq_false_iff_not] at hstart
    simp only [decide_eq_true_eq] at hstop
    simp only [Span.encloses, Bool.and_eq_true, decide_eq_true_eq]
    omega
  · rintro ⟨k, hk, hrange⟩
    obtain ⟨first, hfirst, hstop⟩ := find?_stop_le h hk hrange
    rw [hfirst, Option.any_some]
    simpa using hstop

/-- Among keywords in order, validation keeps exactly the candidates that enclose one. -/
theorem retain_eq_filter {keywords : List Span} (h : Ordered keywords) (place : α → Span)
    (candidates : List α) :
    retain place (some keywords) candidates =
      candidates.filter fun c => keywords.any (place c).encloses := by
  unfold retain
  exact List.filter_congr fun c _ => enclosesKeyword_eq_any h (place c)

/-! ## Keywords in any order -/

/-- A range that no keyword starts behind encloses none, in whatever order the keywords stand. -/
theorem enclosesKeyword_of_forall_lt {keywords : List Span} {range : Span}
    (h : ∀ k ∈ keywords, k.start < range.start) :
    enclosesKeyword keywords.toArray range = false := by
  have hholds : ∀ k ∈ keywords, decide (k.start < range.start) = true :=
    fun k hk => decide_eq_true (h k hk)
  unfold enclosesKeyword
  rw [getElem?_boundary (List.pairwise_of_forall_mem_list fun k hk _ _ _ => hholds k hk),
    List.find?_eq_none.2 fun k hk => by simp [h k hk], Option.any_none]

/-- A range at the start of a source is told by the first keyword. -/
theorem enclosesKeyword_of_start {keywords : List Span} {range : Span} (h : range.start = 0) :
    enclosesKeyword keywords.toArray range =
      keywords.head?.any fun k => decide (k.stop ≤ range.stop) := by
  have hfails : ∀ k : Span, decide (k.start < range.start) = false :=
    fun k => decide_eq_false (by omega)
  unfold enclosesKeyword
  rw [getElem?_boundary (List.pairwise_of_forall fun k k' hk' => by rw [hfails] at hk'; cases hk')]
  cases keywords with
  | nil => rfl
  | cons k ks =>
    rw [List.find?_cons_of_pos (by rw [hfails]; rfl)]
    rfl

end Validation

/-! ## The keywords of a source -/

open Validation

/-- Whether a range encloses a token that is a given reserved word. -/
def enclosesToken (tokens : List Token) (word : Keyword) (range : Span) : Bool :=
  tokens.any fun t => t.kind == .keyword word && range.encloses t.span

theorem any_keywords_eq_enclosesToken (tokens : List Token) (word : Keyword) (range : Span) :
    ((tokens.filter fun t => t.kind == .keyword word).map Token.span).any range.encloses =
      enclosesToken tokens word range := by
  rw [List.any_map, List.any_filter]
  rfl

/-- Whether validation keeps a candidate in a given place, by the keywords among some tokens. -/
def keepsRange (tokens : List Token) (word : Keyword) (range : Span) : Bool :=
  enclosesKeyword ((tokens.filter fun t => t.kind == .keyword word).map Token.span).toArray range

/-- What the lexer says about the keywords of a source that it accepts. -/
theorem Validator.lexer_of_tokenize {source : List Char} {tokens : List Token}
    {comments : List Span} (h : tokenize source = .ok (tokens, comments)) (word : Keyword) :
    Validator.lexer source word =
      .ok ((tokens.filter fun t => t.kind == .keyword word).map Token.span) := by
  unfold Validator.lexer keywordSpans
  rw [h]
  rfl

/-- The keywords that the lexer finds in a source of less than 4 GiB stand in order. -/
theorem Validator.ordered_of_lexer {source : List Char} {word : Keyword} {keywords : List Span}
    (hsize : Text.byteLength source < 2 ^ 32 - 1)
    (h : Validator.lexer source word = .ok keywords) : Ordered keywords := by
  cases htokens : tokenize source with
  | error e =>
    unfold Validator.lexer keywordSpans at h
    rw [htokens] at h
    cases h
  | ok found =>
    obtain ⟨tokens, comments⟩ := found
    rw [lexer_of_tokenize htokens] at h
    obtain rfl := Except.ok.inj h
    obtain ⟨hne, hstop⟩ := ordered_of_lexemize ((tokenize_eq_ok_of_lt hsize).1 htokens)
    have hkeyword := hstop.filter fun t => t.kind == .keyword word
    refine ⟨fun k hk => ?_, List.pairwise_map.2 ?_, List.pairwise_map.2 ?_⟩
    · obtain ⟨t, ht, rfl⟩ := List.mem_map.1 hk
      exact hne t (List.mem_filter.1 ht).1
    · refine hkeyword.imp_of_mem fun {a b} ha _ hab => ?_
      have hlt := hne a (List.mem_filter.1 ha).1
      omega
    · exact hkeyword.imp Span.disjoint_of_stop_le

/-- In a source of less than 4 GiB validation keeps what encloses a keyword. -/
theorem keepsRange_eq_enclosesToken {source : List Char} {tokens : List Token}
    {comments : List Span} (hsize : Text.byteLength source < 2 ^ 32 - 1)
    (h : tokenize source = .ok (tokens, comments)) (word : Keyword) (range : Span) :
    keepsRange tokens word range = enclosesToken tokens word range := by
  unfold keepsRange
  rw [enclosesKeyword_eq_any
    (Validator.ordered_of_lexer hsize (Validator.lexer_of_tokenize h word)),
    any_keywords_eq_enclosesToken]

/-- A range at the start of a source is kept if the first token is the keyword and lies within
it, however long the source is. -/
theorem keepsRange_of_first {lexemes : List Token} {word : Keyword} {n : Nat} {range : Span}
    (hn : n < 2 ^ 32) (hstart : range.start = 0) (hstop : n ≤ range.stop) :
    keepsRange ((⟨.keyword word, ⟨0, n⟩⟩ :: lexemes).map Token.wrapped) word range = true := by
  unfold keepsRange
  rw [enclosesKeyword_of_start hstart, List.map_cons,
    List.filter_cons_of_pos (by rw [Token.wrapped_kind]; exact beq_self_eq_true _)]
  rw [List.map_cons, List.head?_cons, Option.any_some, Token.wrapped_span,
    Span.wrapped_eq_self (Nat.two_pow_pos 32) hn]
  exact decide_eq_true hstop

/-- A range that all keywords start in front of is not kept. -/
theorem keepsRange_of_forall_lt {tokens : List Token} {word : Keyword} {range : Span}
    (h : ∀ t ∈ tokens, t.kind = .keyword word → t.span.start < range.start) :
    keepsRange tokens word range = false := by
  refine enclosesKeyword_of_forall_lt fun k hk => ?_
  obtain ⟨t, ht, rfl⟩ := List.mem_map.1 hk
  obtain ⟨ht, hkind⟩ := List.mem_filter.1 ht
  exact h t ht (beq_iff_eq.1 hkind)

/-- Nothing that starts at 4 GiB or behind is kept, since a keyword is said to start in front. -/
theorem start_lt_of_keepsRange {source : List Char} {tokens : List Token} {comments : List Span}
    (h : tokenize source = .ok (tokens, comments)) {word : Keyword} {range : Span}
    (hkept : keepsRange tokens word range = true) : range.start < 2 ^ 32 := by
  obtain ⟨lexemes, _, -, rfl, -⟩ := tokenize_eq_ok.1 h
  by_contra hbehind
  have hnone : keepsRange (lexemes.map Token.wrapped) word range = false := by
    refine keepsRange_of_forall_lt fun t ht _ => ?_
    obtain ⟨t, -, rfl⟩ := List.mem_map.1 ht
    have hword := t.span.start_wrapped_lt
    rw [Token.wrapped_span]
    omega
  rw [hnone] at hkept
  cases hkept

/-- The only fault that the lexer finds is a word that lies partly behind the end. -/
theorem Validator.lexer_eq_fault {source : List Char} {word : Keyword} {f : Fault} :
    Validator.lexer source word = .error (.fault f) ↔
      tokenize source = .error .overrun ∧ f = .overrun := by
  unfold Validator.lexer keywordSpans
  rw [mapError_eq_error]
  constructor
  · rintro ⟨e, he, hf⟩
    cases e with
    | overrun => exact ⟨map_eq_error.1 he, (Error.fault.inj hf).symm⟩
    | unterminated what offset => cases hf
  · rintro ⟨h, rfl⟩
    exact ⟨.overrun, map_eq_error.2 h, rfl⟩

namespace Analyzer

variable {source : List Char}

/-- A finder gives some of its candidates. -/
theorem mem_of_confirmed {α : Type} {a : Analyzer} {word : Keyword} {place : α → Span}
    {candidates found : List α} (h : a.confirmed source word place candidates = .ok found) :
    ∀ c ∈ found, c ∈ candidates := by
  intro c hc
  unfold confirmed Validation.validate at h
  split at h
  · cases h
    exact hc
  · split at h
    · cases h
      cases hc
    · split at h
      · cases h
        exact (List.mem_filter.1 hc).1
      · cases h
      · cases h
        exact hc

/-- In a source that the lexer accepts, validation by its keywords tells what is confirmed. -/
theorem confirmed_of_accepted {α : Type} {tokens : List Token} {comments : List Span}
    (h : tokenize source = .ok (tokens, comments)) (word : Keyword) (place : α → Span)
    (candidates : List α) :
    standard.confirmed source word place candidates =
      .ok (candidates.filter fun c => keepsRange tokens word (place c)) := by
  show validate Validator.lexer source word place candidates = _
  unfold validate
  split
  · rename_i hempty
    rw [List.isEmpty_iff.1 hempty]
    rfl
  · rw [Validator.lexer_of_tokenize h word]
    rfl

/-- In a source of less than 4 GiB that the lexer accepts, the candidates that enclose a keyword are
confirmed. -/
theorem confirmed_of_lt {α : Type} {tokens : List Token} {comments : List Span}
    (hsize : Text.byteLength source < 2 ^ 32 - 1) (h : tokenize source = .ok (tokens, comments))
    (word : Keyword) (place : α → Span) (candidates : List α) :
    standard.confirmed source word place candidates =
      .ok (candidates.filter fun c => enclosesToken tokens word (place c)) := by
  rw [confirmed_of_accepted h]
  simp only [keepsRange_eq_enclosesToken hsize h]

/-- In a source that the lexer rejects, all candidates are confirmed. -/
theorem confirmed_of_rejected {α : Type} {what : Unterminated} {offset : Nat}
    (h : tokenize source = .error (.unterminated what offset)) (word : Keyword)
    (place : α → Span) (candidates : List α) :
    standard.confirmed source word place candidates = .ok candidates := by
  show validate Validator.lexer source word place candidates = _
  unfold validate
  split
  · rename_i hempty
    rw [List.isEmpty_iff.1 hempty]
  · unfold Validator.lexer keywordSpans
    rw [h]
    rfl

/-- Candidates are confirmed or not unless a validator finds a fault; it is not asked if there are
none. -/
theorem confirmed_eq_error {α : Type} {a : Analyzer} {word : Keyword} {place : α → Span}
    {candidates : List α} {f : Fault} :
    a.confirmed source word place candidates = .error f ↔
      candidates ≠ [] ∧ ∃ v, a.validator = some v ∧ v source word = .error (.fault f) := by
  unfold confirmed
  cases a.validator with
  | none => simp
  | some v =>
    cases candidates with
    | nil => simp [validate]
    | cons c rest =>
      have hvalidate : validate v source word place (c :: rest) = .error f ↔
          v source word = .error (.fault f) := by
        unfold validate
        rw [List.isEmpty_cons, if_neg Bool.false_ne_true]
        cases v source word with
        | ok keywords => simp
        | error e => cases e <;> simp
      simp [hvalidate]

/-- The exports of a source are not found because of a fault: there are candidates, and the
validator that is asked about them finds it. -/
def Faults (a : Analyzer) (source : List Char) (f : Fault) : Prop :=
  ExportRecord.candidates source ≠ [] ∧
    ∃ v, a.validator = some v ∧ v source .exportKw = .error (.fault f)

theorem exports_eq_error {a : Analyzer} {f : Fault} :
    a.exports source = .error f ↔ a.Faults source f := by
  rw [exports, map_eq_error, confirmed_eq_error, Faults]

/-- The usual analyzer does not find the exports of a source that has candidates and a word that
lies partly behind its end. -/
theorem faults_standard {f : Fault} :
    standard.Faults source f ↔
      ExportRecord.candidates source ≠ [] ∧ tokenize source = .error .overrun ∧ f = .overrun := by
  simp only [Faults, standard, Option.some.injEq, exists_eq_left', Validator.lexer_eq_fault]

end Analyzer

/-- What the finders make of a source when they keep the candidates of which a test holds, given
the word that a candidate has to enclose and its place. -/
structure FindersKeep (source : List Char) (kept : Keyword → Span → Bool) : Prop where
  staticImports : Analyzer.standard.staticImports source =
    .ok ((StaticImport.candidates source).filter fun i => kept .importKw i.span)
  typeImports : Analyzer.standard.typeImports source =
    .ok ((StaticImport.typeCandidates source).filter fun i => kept .importKw i.span)
  dynamicImports : Analyzer.standard.dynamicImports source =
    .ok ((DynamicImport.candidates source).filter fun i => kept .importKw i.span)
  exports : Analyzer.standard.exports source =
    .ok (ExportRecord.collapse (((ExportRecord.candidates source).filter fun r =>
      kept .exportKw r.span).mergeSort ExportRecord.before))
  typeExports : Analyzer.standard.typeExports source =
    .ok (ExportRecord.collapse ((ExportRecord.typeCandidates source).filter fun r =>
      kept .exportKw r.span))

/-- The finders keep what is confirmed. -/
theorem findersKeep_of_confirmed {source : List Char} {kept : Keyword → Span → Bool}
    (h : ∀ {α : Type} (word : Keyword) (place : α → Span) (candidates : List α),
      Analyzer.standard.confirmed source word place candidates =
        .ok (candidates.filter fun c => kept word (place c))) : FindersKeep source kept where
  staticImports := h _ _ _
  typeImports := h _ _ _
  dynamicImports := h _ _ _
  exports := by rw [Analyzer.exports, h]; rfl
  typeExports := by rw [Analyzer.typeExports, h]; rfl

/-- **Validation keeps exactly the candidates that enclose a keyword**, for every list of keywords
in order.  The lexer gives no others of a source of less than 4 GiB, so the finders keep the
candidates that enclose a keyword token of such a source if it accepts that.  Of any source that it
rejects they keep all candidates. -/
theorem validation_eq_filter :
    (∀ (α : Type) (place : α → Span) (keywords : List Span) (candidates : List α),
      Ordered keywords → retain place (some keywords) candidates =
        candidates.filter fun c => keywords.any (place c).encloses) ∧
    (∀ (α : Type) (place : α → Span) (candidates : List α),
      retain place none candidates = candidates) ∧
    (∀ (source : List Char) (word : Keyword) (keywords : List Span),
      Text.byteLength source < 2 ^ 32 - 1 →
        Validator.lexer source word = .ok keywords → Ordered keywords) ∧
    (∀ (source : List Char) (tokens : List Token) (comments : List Span),
      Text.byteLength source < 2 ^ 32 - 1 →
        tokenize source = .ok (tokens, comments) → FindersKeep source (enclosesToken tokens)) ∧
    ∀ (source : List Char) (what : Unterminated) (offset : Nat),
      tokenize source = .error (.unterminated what offset) →
        FindersKeep source fun _ _ => true := by
  refine ⟨fun α place keywords candidates h => retain_eq_filter h place candidates,
    fun α place candidates => rfl, fun source word keywords => Validator.ordered_of_lexer,
    fun source tokens comments hsize h => ?_, fun source what offset h => ?_⟩
  · exact findersKeep_of_confirmed (Analyzer.confirmed_of_lt hsize h)
  · refine findersKeep_of_confirmed fun word place candidates => ?_
    rw [Analyzer.confirmed_of_rejected h, List.filter_eq_self.2 fun _ _ => rfl]

/-! ### A declaration behind a comment -/

/-- A comment that reads like the front of a declaration, and a declaration. -/
def commentedImport : List Char := "// import\nimport a from 'b'".toList

/-- The tokens of the declaration. -/
def commentedImportTokens : List Token :=
  [⟨.keyword .importKw, ⟨10, 16⟩⟩, ⟨.identifier, ⟨17, 18⟩⟩, ⟨.identifier, ⟨19, 23⟩⟩,
    ⟨.string, ⟨24, 27⟩⟩]

theorem tokenize_commentedImport :
    tokenize commentedImport = .ok (commentedImportTokens, [⟨0, 9⟩]) := by
  decide +kernel

/-- A word in a comment is no keyword, and a string that is left open makes the lexer give up. -/
theorem validation_eq_filter_commented :
    retain id (some [⟨10, 16⟩]) [⟨3, 9⟩, ⟨3, 27⟩, ⟨12, 27⟩] = [(⟨3, 27⟩ : Span)] ∧
    Ordered [⟨10, 16⟩] ∧
    FindersKeep commentedImport (enclosesToken commentedImportTokens) ∧
    FindersKeep "import a from 'b".toList fun _ _ => true := by
  obtain ⟨hretain, -, hordered, haccepted, hrejected⟩ := validation_eq_filter
  have hkeywords : Ordered [⟨10, 16⟩] :=
    hordered commentedImport .importKw _ (by decide) (by
      rw [Validator.lexer_of_tokenize tokenize_commentedImport]
      rfl)
  refine ⟨?_, hkeywords, haccepted _ _ _ (by decide) tokenize_commentedImport,
    hrejected _ .string 14 ?_⟩
  · rw [hretain Span id _ _ hkeywords]
    rfl
  · decide +kernel

/-! ### Keywords around 4 GiB -/

/-- Two declarations, the first of which ends just below 4 GiB. -/
def wrappingImports : List Char :=
  List.replicate (2 ^ 32 - 10) ' ' ++ "import        import".toList

/-- The lexer of a source of more than 4 GiB gives the places of keywords in words that do not hold
them, so they are not in order. -/
theorem lexer_notOrdered : ¬ ∀ (source : List Char) (word : Keyword) (keywords : List Span),
    Validator.lexer source word = .ok keywords → Ordered keywords := by
  intro h
  have htokens : tokenize wrappingImports = .ok
      ([⟨.keyword .importKw, ⟨4294967286, 4294967292⟩⟩, ⟨.keyword .importKw, ⟨4, 10⟩⟩], []) := by
    rw [tokenize_eq_lexemize, wrappingImports, lexemize_replicate_space (by decide)]
    decide +kernel
  have hordered := h _ .importKw _ (Validator.lexer_of_tokenize htokens .importKw)
  have hsorted := hordered.sorted
  revert hsorted
  decide

end EsModules
