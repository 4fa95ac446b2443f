import EsModules.Proofs.Declaration.Retention
import EsModules.Proofs.Declaration.WrittenShape
import EsModules.Proofs.Declaration.WrittenTokens

/-!
# Import declarations are read as they are written

From a source that consists of import declarations, each on a line in the usual form, an analyzer
gives one record for each, in order, with what the declaration binds and the module that it asks
for.

* `StaticImport.ReadsLines.enclosed`: each record encloses the reserved word of its line.
* `staticImports_written`: the records of a source of less than 4 GiB.
-/

namespace EsModules

namespace StaticImport

variable {offset : Nat} {ds : List ImportLine} {rs : List StaticImport}

/-- Every record encloses a token for the reserved word if each line starts with one. -/
theorem ReadsLines.enclosed (h : ReadsLines offset ds rs) {tokens : List Token}
    (htokens : ∀ o ∈ Lexer.lineStarts offset ds, ⟨.keyword .importKw, ⟨o, o + 6⟩⟩ ∈ tokens) :
    ∀ r ∈ rs, enclosesToken tokens .importKw r.span = true := by
  induction h with
  | nil => exact fun r hr => absurd hr List.not_mem_nil
  | @cons offset d record ds rs hline _ ih =>
    obtain ⟨hfirst, hrest⟩ := List.forall_mem_cons.1 htokens
    refine List.forall_mem_cons.2 ⟨List.any_eq_true.2 ⟨_, hfirst, ?_⟩, ih hrest⟩
    have hsize := d.byteLength_text
    have hstop : offset + 6 ≤ offset + Text.byteLength d.text := by omega
    rw [hline.span]
    simpa [Span.encloses] using hstop

/-- What a record binds is what its line binds. -/
theorem ReadsLine.recovers {d : ImportLine} {r : StaticImport} (h : ReadsLine offset d r) :
    Bindings.Recovers d.clause (Bindings.ofStatic r) := by
  unfold Bindings.ofStatic
  rw [h.clause]
  cases d.clause with
  | none => exact Bindings.recovers_parse_nil
  | some c => exact Bindings.recovers_parse c

theorem ReadsLines.forall₂ (h : ReadsLines offset ds rs) :
    List.Forall₂ (fun d r => r.specifier.text = d.specifier.text ∧
      Bindings.Recovers d.clause (Bindings.ofStatic r)) ds rs := by
  induction h with
  | nil => exact .nil
  | cons hline _ ih => exact .cons ⟨hline.specifier, hline.recovers⟩ ih

end StaticImport

/-- **Import declarations are read as they are written.**  A source of less than 4 GiB of
declarations, each on a line in the usual form, has one record for each in order; a record has the
specifier of its declaration and binds the same default name, the same name of the whole module and
the same names of exports, each with the same local name. -/
theorem staticImports_written (ds : List ImportLine)
    (hsize : Text.byteLength (ImportLine.source ds) < 2 ^ 32 - 1) :
    ∃ records, Analyzer.standard.staticImports (ImportLine.source ds) = .ok records ∧
      List.Forall₂ (fun d r => r.specifier.text = d.specifier.text ∧
        Bindings.Recovers d.clause (Bindings.ofStatic r)) ds records := by
  have hreads := StaticImport.candidates_written ds
  obtain ⟨tokens, comments, hlexemize, hwords⟩ := lexemize_written ds
  have hconfirmed := Analyzer.confirmed_of_lt hsize ((tokenize_eq_ok_of_lt hsize).2 hlexemize)
    .importKw StaticImport.span (StaticImport.candidates (ImportLine.source ds))
  have hkept : (StaticImport.candidates (ImportLine.source ds)).filter
      (fun c => enclosesToken tokens .importKw c.span) =
        StaticImport.candidates (ImportLine.source ds) :=
    List.filter_eq_self.2 (hreads.enclosed hwords)
  rw [hkept] at hconfirmed
  exact ⟨_, hconfirmed, hreads.forall₂⟩

/-! ### Long lines -/

/-- A specifier of one letter, repeated. -/
def PlainSpecifier.repeated (n : Nat) : PlainSpecifier where
  text := List.replicate (n + 1) 'a'
  ne_nil := List.cons_ne_nil _ _
  plain c hc := by
    rw [List.eq_of_mem_replicate hc]
    decide
  head c hc := by
    rw [List.eq_of_mem_replicate (List.mem_of_head? hc)]
    decide
  last c hc := by
    rw [List.eq_of_mem_replicate (List.mem_of_getLast? hc)]
    decide

/-- A bare declaration for a specifier of one letter, repeated. -/
def ImportLine.repeated (n : Nat) : ImportLine := ⟨none, .repeated n⟩

/-- A bare declaration and one that binds the default export. -/
def shortImports : List ImportLine :=
  [.repeated 0, ⟨some (.default ⟨['d'], by decide⟩), .repeated 1⟩]

/-- Short lines are read. -/
theorem staticImports_written_short :
    Text.byteLength (ImportLine.source shortImports) < 2 ^ 32 - 1 ∧
    ∃ records, Analyzer.standard.staticImports (ImportLine.source shortImports) = .ok records ∧
      List.Forall₂ (fun d r => r.specifier.text = d.specifier.text ∧
        Bindings.Recovers d.clause (Bindings.ofStatic r)) shortImports records :=
  ⟨by decide, staticImports_written shortImports (by decide)⟩

/-- A declaration behind a line of 4 GiB or more is not found. -/
theorem StaticImport.length_le_one {d d' : ImportLine} {records : List StaticImport}
    (hlong : 2 ^ 32 ≤ Text.byteLength d.text)
    (h : Analyzer.standard.staticImports (ImportLine.source [d, d']) = .ok records) :
    records.length ≤ 1 := by
  obtain ⟨tokens, comments, hlexemes, -⟩ := lexemize_written [d, d']
  have htokens := tokenize_eq_ok.2 ⟨tokens, comments, hlexemes, rfl, rfl⟩
  obtain rfl := Except.ok.inj ((Analyzer.confirmed_of_accepted htokens .importKw StaticImport.span
    (candidates (ImportLine.source [d, d']))).symm.trans h)
  have hreads := candidates_written [d, d']
  generalize candidates (ImportLine.source [d, d']) = candidates at hreads
  cases hreads with
  | @cons _ _ r _ _ _ hrest =>
  cases hrest with
  | @cons _ _ r' _ _ hline hnil =>
  cases hnil
  have hdropped : keepsRange (tokens.map Token.wrapped) .importKw r'.span = false := by
    refine Bool.eq_false_iff.2 fun hkept => ?_
    have hlt := start_lt_of_keepsRange htokens hkept
    rw [hline.span] at hlt
    dsimp only at hlt
    omega
  have hlast : ([r'].filter fun c =>
      keepsRange (tokens.map Token.wrapped) .importKw (StaticImport.span c)) = [] :=
    List.filter_eq_nil_iff.2 (by simp [hdropped])
  rw [← List.singleton_append, List.filter_append, hlast, List.append_nil]
  exact List.length_filter_le _ _

/-- A declaration behind a long one is not read. -/
theorem staticImports_miss_behind : ¬ ∀ ds : List ImportLine,
    ∃ records, Analyzer.standard.staticImports (ImportLine.source ds) = .ok records ∧
      List.Forall₂ (fun d r => r.specifier.text = d.specifier.text ∧
        Bindings.Recovers d.clause (Bindings.ofStatic r)) ds records := by
  intro h
  obtain ⟨records, hrecords, hall⟩ := h [.repeated (2 ^ 32), .repeated 0]
  have hlong : 2 ^ 32 ≤ Text.byteLength (ImportLine.repeated (2 ^ 32)).text := by
    have hname : (ImportLine.repeated (2 ^ 32)).specifier.text.length = 2 ^ 32 + 1 :=
      List.length_replicate
    have hle := Text.length_le_byteLength (ImportLine.repeated (2 ^ 32)).specifier.text
    have hline := (ImportLine.repeated (2 ^ 32)).byteLength_text
    omega
  have hone := StaticImport.length_le_one hlong hrecords
  rw [← hall.length_eq] at hone
  exact absurd hone (by simp)

end EsModules
