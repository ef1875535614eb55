import CorpusQuery.SortedMap

/-! Byte ranges. Nothing keeps a range inside a text, or its end behind its start. -/
namespace CorpusQuery

structure Span where
  start : Nat
  stop : Nat
  deriving DecidableEq

namespace Span

/-- Number of bytes; a range that ends before it starts has none. -/
def length (s : Span) : Nat := s.stop - s.start

def isEmpty (s : Span) : Bool := s.length == 0

def contains (outer inner : Span) : Bool := outer.start ≤ inner.start && inner.stop ≤ outer.stop

/-- `inner` lies within `outer` and differs from it. -/
def strictlyContains (outer inner : Span) : Bool := inner != outer && outer.contains inner

protected def Before (a b : Span) : Prop := a.start < b.start ∨ a.start = b.start ∧ a.stop < b.stop

instance : LT Span := ⟨Span.Before⟩

instance (a b : Span) : Decidable (a < b) :=
  inferInstanceAs (Decidable (a.start < b.start ∨ a.start = b.start ∧ a.stop < b.stop))

theorem lt_iff (a b : Span) :
    a < b ↔ a.start < b.start ∨ a.start = b.start ∧ a.stop < b.stop := Iff.rfl

instance : StrictOrder Span where
  irrefl a := by simp only [lt_iff]; omega
  trans ab bc := by simp only [lt_iff] at *; omega
  eq_of_not_lt {a b} ab ba := by
    cases a; cases b
    simp only [lt_iff,Span.mk.injEq] at *; omega

def sort (spans : List Span) : List Span := spans.mergeSort fun a b => !decide (b < a)

end Span

end CorpusQuery
