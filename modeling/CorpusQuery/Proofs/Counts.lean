import CorpusQuery.Proofs.Protocol
import CorpusQuery.Script

/-! Cursors by the numbers of their tokens. A count that fits reads as many tokens as it says, or none; one
that overflows leads back to a token that stands before the cursor. -/
namespace CorpusQuery

namespace Cursor

variable {tokens : List Token} {c d : Cursor} {m n : Nat}

/-- A cursor at a token of the text, or at its end. -/
def On (tokens : List Token) (c : Cursor) : Prop := Reaches ⟨0,tokens⟩ c

theorem on_start : On tokens ⟨0,tokens⟩ := .refl _

theorem on_nth (n : Nat) : On tokens (nth tokens n) := reaches_advance ..

theorem On.trans (h : On tokens c) (onward : c.Reaches d) : On tokens d := Reaches.trans h onward

theorem index_nth (inside : n ≤ tokens.length) : (nth tokens n).index tokens = n := by
  simp only [index,nth,advance,List.length_drop]
  omega

theorem On.exists_nth (h : On tokens c) : ∃ n ≤ tokens.length, c = nth tokens n := h.within

theorem nth_reaches (le : m ≤ n) : (nth tokens m).Reaches (nth tokens n) :=
  ⟨n - m,by rw [nth,nth,advance_advance,Nat.add_sub_of_le le]⟩

theorem On.reaches_nth_iff (h : On tokens c) (inside : n ≤ tokens.length) :
    c.Reaches (nth tokens n) ↔ c.index tokens ≤ n := by
  obtain ⟨m,within,rfl⟩ := h.exists_nth
  rw [index_nth within]
  refine ⟨fun onward => ?_,nth_reaches⟩
  have := onward.length_le
  simp only [nth,advance,List.length_drop] at this
  omega

/-- A count with which the number of the token ahead is past the last word. -/
def Overflows (tokens : List Token) (c : Cursor) (count : UInt64) : Prop :=
  UInt64.size ≤ c.index tokens + count.toNat

variable {count : UInt64}

theorem ahead_eq (fits : ¬c.Overflows tokens count) :
    c.ahead tokens count = c.index tokens + count.toNat := by
  have sum := Nat.lt_of_not_le fits
  simp only [UInt64.size] at sum
  rw [ahead,UInt64.toNat_add,UInt64.toNat_ofNat']
  omega

end Cursor

namespace Recognizer

variable {tokens : List Token} {c base : Cursor} {tag : Terminal} {count : UInt64}

/-- A count that fits is taken from the tokens that are left. -/
theorem bump_eq_take (on : c.On tokens) (fits : ¬c.Overflows tokens count) :
    bump tokens tag count c = take tag count.toNat c := by
  have sum := Cursor.ahead_eq fits
  obtain ⟨m,within,rfl⟩ := on.exists_nth
  rw [Cursor.index_nth within] at sum
  have place : Cursor.nth tokens (m + count.toNat) = (Cursor.nth tokens m).advance count.toNat := by
    rw [Cursor.nth,Cursor.nth,Cursor.advance_advance]
  have left : (Cursor.nth tokens m).rest.length = tokens.length - m := List.length_drop ..
  have zero : count = 0 ↔ count.toNat = 0 := by simp [← UInt64.toNat_inj]
  have past : tokens.length < m + count.toNat ↔ tokens.length - m < count.toNat := by omega
  simp only [bump,take,sum,place,left,zero,past]

theorem cursor_bump (nonzero : count ≠ 0) (inside : c.ahead tokens count ≤ tokens.length) :
    (bump tokens tag count c).cursor = Cursor.nth tokens (c.ahead tokens count) := by
  rw [bump,if_neg (not_or.mpr ⟨nonzero,Nat.not_lt.mpr inside⟩)]

/-- Where a count that overflows leads no farther back than to `base`, none does. -/
theorem reaches_bump (on : c.On tokens) (baseOn : base.On tokens) (from_ : base.Reaches c)
    (lands : count ≠ 0 → c.Overflows tokens count → base.index tokens ≤ c.ahead tokens count) :
    base.Reaches (bump tokens tag count c).cursor := by
  by_cases overflows : c.Overflows tokens count
  · by_cases reads : count = 0 ∨ tokens.length < c.ahead tokens count
    · rwa [bump,if_pos reads]
    · rw [not_or,Nat.not_lt] at reads
      rw [cursor_bump reads.1 reads.2,baseOn.reaches_nth_iff reads.2]
      exact lands reads.1 overflows
  · rw [bump_eq_take on overflows]
    exact from_.trans (Outcome.Orderly.take ..).reaches

end Recognizer

end CorpusQuery
