import CorpusQuery.Span
import CorpusQuery.Text.Bytes
import Mathlib.Data.List.Infix
import Mathlib.Tactic.Common

/-! Places in a text. A look-up by byte offsets that finds something finds a part of the text, and the
offsets are the lengths of what stands before the part and up to its end. -/
namespace CorpusQuery

namespace Text

/-- Of one text, two beginnings of as many bytes are the same. -/
theorem eq_of_prefix {a b t : Text} (first : a <+: t) (second : b <+: t)
    (size : a.byteLength = b.byteLength) : a = b := by
  rcases List.prefix_or_prefix_of_prefix first second with ⟨more,rfl⟩ | ⟨more,rfl⟩
  all_goals
    rw [byteLength_append] at size
    simp [(byteLength_eq_zero_iff more).mp (by omega)]

theorem dropBytes?_eq_some {t rest : Text} {n : Nat} (h : t.dropBytes? n = some rest) :
    ∃ before, t = before ++ rest ∧ n = before.byteLength := by
  fun_induction dropBytes? n t with
  | case1 t => exact ⟨[],(Option.some.inj h).symm ▸ rfl,rfl⟩
  | case2 => cases h
  | case3 n c t fits ih =>
    obtain ⟨before,rfl,size⟩ := ih h
    refine ⟨c :: before,rfl,?_⟩
    rw [byteLength_cons]
    omega
  | case4 => cases h

theorem takeBytes?_eq_some {t taken : Text} {n : Nat} (h : t.takeBytes? n = some taken) :
    taken <+: t ∧ n = taken.byteLength := by
  fun_induction takeBytes? n t generalizing taken with
  | case1 t =>
    obtain rfl := Option.some.inj h
    exact ⟨List.nil_prefix,rfl⟩
  | case2 => cases h
  | case3 n c t fits ih =>
    obtain ⟨taken,more,rfl⟩ := Option.map_eq_some_iff.mp h
    obtain ⟨isPrefix,size⟩ := ih more
    refine ⟨List.cons_prefix_cons.mpr ⟨rfl,isPrefix⟩,?_⟩
    rw [byteLength_cons]
    omega
  | case4 => cases h

/-! What comes after a text does not matter to look-ups in it. -/

theorem dropBytes?_append_left {n : Nat} {a : Text} (fits : n ≤ a.byteLength) (b : Text) :
    (a ++ b).dropBytes? n = (a.dropBytes? n).map (· ++ b) := by
  fun_induction dropBytes? n a with
  | case1 a => simp [dropBytes?]
  | case2 => simp at fits
  | case3 n c a within ih =>
    rw [List.cons_append,dropBytes?,if_pos within,ih (by rw [byteLength_cons] at fits; omega)]
  | case4 n c a beyond => simp [dropBytes?,beyond]

theorem takeBytes?_append_left {n : Nat} {a : Text} (fits : n ≤ a.byteLength) (b : Text) :
    (a ++ b).takeBytes? n = a.takeBytes? n := by
  fun_induction takeBytes? n a with
  | case1 a => simp [takeBytes?]
  | case2 => simp at fits
  | case3 n c a within ih =>
    rw [List.cons_append,takeBytes?,if_pos within,ih (by rw [byteLength_cons] at fits; omega)]
  | case4 n c a beyond => simp [takeBytes?,beyond]

theorem slice?_append_left {start stop : Nat} {a : Text} (fits : stop ≤ a.byteLength) (b : Text) :
    (a ++ b).slice? start stop = a.slice? start stop := by
  unfold slice?
  split
  next ordered =>
    rw [dropBytes?_append_left (ordered.trans fits)]
    cases dropped : a.dropBytes? start with
    | none => rfl
    | some rest =>
      obtain ⟨before,rfl,rfl⟩ := dropBytes?_eq_some dropped
      rw [byteLength_append] at fits
      exact takeBytes?_append_left (by omega) b
  next => rfl

theorem charsBefore_append_left {n : Nat} {a : Text} (fits : n ≤ a.byteLength) (b : Text) :
    (a ++ b).charsBefore n = a.charsBefore n := by
  have longer : n ≤ byteLength (a ++ b) := by
    rw [byteLength_append]
    omega
  rw [charsBefore,charsBefore,Nat.min_eq_left fits,Nat.min_eq_left longer,
    takeBytes?_append_left fits]

theorem dropBytes?_append_right (a b : Text) (n : Nat) :
    (a ++ b).dropBytes? (n + a.byteLength) = b.dropBytes? n := by
  induction a with
  | nil => rfl
  | cons c a ih =>
    have pos := c.utf8Size_pos
    obtain ⟨m,size⟩ : ∃ m, n + byteLength (c :: a) = m + 1 :=
      ⟨n + byteLength (c :: a) - 1,by rw [byteLength_cons]; omega⟩
    have left : m + 1 - c.utf8Size = n + byteLength a := by rw [byteLength_cons] at size; omega
    have fits : c.utf8Size ≤ m + 1 := by rw [byteLength_cons] at size; omega
    rw [size,List.cons_append,dropBytes?,if_pos fits,left,ih]

theorem slice?_append_right (a b : Text) (start stop : Nat) :
    (a ++ b).slice? (start + a.byteLength) (stop + a.byteLength) = b.slice? start stop := by
  have same : stop + a.byteLength - (start + a.byteLength) = stop - start := by omega
  simp only [slice?,Nat.add_le_add_iff_right,dropBytes?_append_right,same]

theorem charsBefore_prefix {before t : Text} (h : before <+: t) :
    t.charsBefore before.byteLength = before.length := by
  obtain ⟨after,rfl⟩ := h
  have within : min before.byteLength (byteLength (before ++ after)) = before.byteLength := by
    rw [byteLength_append]
    omega
  rw [charsBefore,within,takeBytes?_append]
  rfl

end Text

/-- A range has a part of a text, behind another part. -/
structure Span.Has (span : Span) (t before within : Text) : Prop where
  place : before ++ within <+: t
  start : span.start = before.byteLength
  stop : span.stop = (before ++ within).byteLength

theorem Text.has_of_slice? {t within : Text} {span : Span}
    (h : t.slice? span.start span.stop = some within) : ∃ before, span.Has t before within := by
  unfold slice? at h
  split at h
  next ordered =>
    obtain ⟨rest,dropped,taken⟩ := Option.bind_eq_some_iff.mp h
    obtain ⟨before,rfl,start⟩ := dropBytes?_eq_some dropped
    obtain ⟨isPrefix,size⟩ := takeBytes?_eq_some taken
    refine ⟨before,(List.prefix_append_right_inj before).mpr isPrefix,start,?_⟩
    rw [byteLength_append]
    omega
  next => cases h

end CorpusQuery
