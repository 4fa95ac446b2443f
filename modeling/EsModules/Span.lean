import EsModules.Text.Basic

/-!
# Spans

A span is a half-open range of byte offsets into a text.  The spans of tokens and comments hold
32-bit words, into which the offsets of a long text do not fit (`Span.wrapped`).
-/

namespace EsModules

/-- A range of byte offsets, the end excluded. -/
structure Span where
  /-- The offset of the first byte. -/
  start : Nat
  /-- The offset behind the last byte. -/
  stop : Nat
  deriving DecidableEq, Repr

namespace Span

/-- The span that a token or comment with this place is given: offsets are cut down to 32-bit
words. -/
def wrapped (s : Span) : Span := ⟨s.start % 0x100000000, s.stop % 0x100000000⟩

theorem wrapped_eq_self {s : Span} (hstart : s.start < 0x100000000) (hstop : s.stop < 0x100000000) :
    s.wrapped = s := by
  unfold wrapped
  rw [Nat.mod_eq_of_lt hstart, Nat.mod_eq_of_lt hstop]

theorem start_wrapped_le (s : Span) : s.wrapped.start ≤ s.start := Nat.mod_le _ _

theorem start_wrapped_lt (s : Span) : s.wrapped.start < 0x100000000 := Nat.mod_lt _ (by decide)

/-- The number of bytes in a span; offsets are 32-bit words, so the length of a reversed span
wraps around. -/
def length (s : Span) : Nat := (s.stop + 0x100000000 - s.start) % 0x100000000

/-- Whether a span holds no byte. -/
def isEmpty (s : Span) : Bool := s.start == s.stop

/-- Whether an offset lies in a span. -/
def contains (s : Span) (offset : Nat) : Bool := s.start ≤ offset && offset < s.stop

/-- Whether a span lies within another. -/
def encloses (s other : Span) : Bool := s.start ≤ other.start && other.stop ≤ s.stop

/-- The part of a text that a span covers. -/
def text (s : Span) (source : List Char) : List Char := Text.slice s.start s.stop source

/-- Two spans without a common offset. -/
def Disjoint (s other : Span) : Prop := ∀ i, s.contains i = true → other.contains i = false

theorem Disjoint.symm {s other : Span} (h : s.Disjoint other) : other.Disjoint s := by
  intro i hother
  cases hs : s.contains i with
  | false => rfl
  | true =>
    rw [h i hs] at hother
    cases hother

theorem disjoint_of_stop_le {s other : Span} (h : s.stop ≤ other.start) : s.Disjoint other := by
  intro i hs
  simp only [contains, Bool.and_eq_true, Bool.and_eq_false_iff, decide_eq_true_eq,
    decide_eq_false_iff_not] at hs ⊢
  omega

/-- A span that starts in front of another, and has no offset in common with it, ends in front
of it. -/
theorem Disjoint.stop_le {s other : Span} (h : s.Disjoint other) (hstart : s.start ≤ other.start)
    (hne : other.start < other.stop) : s.stop ≤ other.start := by
  apply Nat.ge_of_not_lt
  intro hlt
  have hin : s.contains other.start = true := by
    simp only [contains, Bool.and_eq_true, decide_eq_true_eq]
    omega
  have hout := h other.start hin
  simp only [contains, Bool.and_eq_false_iff, decide_eq_false_iff_not] at hout
  omega

end Span

end EsModules
