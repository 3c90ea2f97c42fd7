import Mathlib.Tactic

/-! # Reading a growing file through a buffer

A reader has taken the file up to `pos`; its buffer holds what follows, up to the offset at
which the file itself is read next.
-/
namespace MySQLSyncer.Lib
universe u
variable {α : Type u}

structure Buffered (file : List α) (pos : ℕ) (buf : List α) (off : ℕ) : Prop where
  off_eq : pos + buf.length = off
  off_le : off ≤ file.length
  held : (file.drop pos).take buf.length = buf

namespace Buffered
variable {file more buf : List α} {pos off n : ℕ}

theorem seek (h : pos ≤ file.length) : Buffered file pos [] pos := ⟨rfl, h, rfl⟩

theorem skip (h : Buffered file pos buf off) (hn : n ≤ buf.length) :
    Buffered file (pos + n) (buf.drop n) off := by
  have hoff := h.off_eq
  refine ⟨?_, h.off_le, ?_⟩
  · rw [List.length_drop]
    omega
  · rw [List.length_drop, ← List.drop_drop, ← List.drop_take, h.held]

theorem refill (h : Buffered file pos [] off) (hn : off + n ≤ file.length) :
    Buffered file pos ((file.drop off).take n) (off + n) := by
  obtain rfl : pos = off := h.off_eq
  have hlen : ((file.drop pos).take n).length = n := by
    rw [List.length_take, List.length_drop]
    omega
  exact ⟨by rw [hlen], hn, by rw [hlen]⟩

theorem append (h : Buffered file pos buf off) (more : List α) :
    Buffered (file ++ more) pos buf off := by
  have hoff := h.off_eq
  have hle := h.off_le
  refine ⟨hoff, by rw [List.length_append]; omega, ?_⟩
  rw [List.drop_append_of_le_length (by omega), List.take_append_of_le_length
    (by rw [List.length_drop]; omega), h.held]

theorem take_held (h : Buffered file pos buf off) (hn : n ≤ buf.length) :
    buf.take n = (file.drop pos).take n := by
  rw [← h.held, List.take_take, min_eq_left hn]

end Buffered

theorem take_add (file : List α) (pos n k : ℕ) : (file.drop pos).take (n + k) =
    (file.drop pos).take n ++ (file.drop (pos + n)).take k := by
  rw [List.take_add, List.drop_drop]

end MySQLSyncer.Lib
