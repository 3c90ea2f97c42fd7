import MySQLSyncer.Lib.Bytes

/-! # Reading and writing parts of a byte array

A part that does not lie in the array is undefined.
-/
namespace MySQLSyncer.Lib

def slice (w : List UInt8) (off n : ℕ) : Option (List UInt8) :=
  if off + n ≤ w.length then some ((w.drop off).take n) else none

def copyInto (arr src : List UInt8) : Option (List UInt8) :=
  if src.length ≤ arr.length then some (src ++ arr.drop src.length) else none

theorem slice_eq_some {w s : List UInt8} {off n : ℕ} :
    slice w off n = some s ↔ off + n ≤ w.length ∧ (w.drop off).take n = s := by
  unfold slice
  split_ifs with h <;> simp [h]

theorem slice_append (a b c : List UInt8) : slice (a ++ b ++ c) a.length b.length = some b := by
  rw [slice, if_pos (by simp), List.append_assoc, List.drop_left, List.take_left]

theorem slice_left (b c : List UInt8) : slice (b ++ c) 0 b.length = some b := slice_append [] b c

theorem slice_of_drop {w s rest : List UInt8} {off : ℕ} (hle : off ≤ w.length) (h : w.drop off = s ++ rest) :
    slice w off s.length = some s := by
  have hlen := congrArg List.length h
  rw [List.length_drop, List.length_append] at hlen
  rw [slice, if_pos (by omega), h, List.take_left]

theorem slice_length {w s : List UInt8} {off n : ℕ} (h : slice w off n = some s) : s.length = n := by
  obtain ⟨hle, rfl⟩ := slice_eq_some.mp h
  rw [List.length_take, List.length_drop]
  omega

theorem copyInto_eq_some {arr src out : List UInt8} :
    copyInto arr src = some out ↔ src.length ≤ arr.length ∧ src ++ arr.drop src.length = out := by
  unfold copyInto
  split_ifs with h <;> simp [h]

theorem length_copyInto {arr src out : List UInt8} (h : copyInto arr src = some out) :
    out.length = arr.length := by
  obtain ⟨hle, rfl⟩ := copyInto_eq_some.mp h
  rw [List.length_append, List.length_drop]
  omega

end MySQLSyncer.Lib
