import MySQLSyncer.Lib.CString

/-! # Writing a block through a pointer

The pointer moves on by what it was told to write, which for a text that was cut is more than what
is written.
-/
namespace MySQLSyncer.Lib

structure Cursor where
  mem : List (Option UInt8)
  pos : ℕ

namespace Cursor

def put (c : Cursor) (bytes : List UInt8) : Option Cursor :=
  (store c.mem c.pos bytes).map (⟨·, c.pos + bytes.length⟩)

/-- `snprintf` at the pointer with the given size; it returns the length of the whole text. -/
def print (c : Cursor) (size : ℕ) (text : List UInt8) : Option Cursor :=
  (if size = 0 then some c.mem else store c.mem c.pos (text.take (size - 1) ++ [0])).map
    (⟨·, c.pos + text.length⟩)

def back (c : Cursor) (pos : ℕ) : Cursor := { c with pos := pos }

/-- In a block of `n` bytes the pointer stands behind the bytes `done`. -/
structure Holds (c : Cursor) (n : ℕ) (done : List UInt8) : Prop where
  length : c.mem.length = n
  pos : c.pos = done.length
  written : c.mem.take c.pos = done.map some

variable {c : Cursor} {n size : ℕ} {done text : List UInt8}

theorem holds_fresh (n : ℕ) : Holds ⟨freshBlock n, 0⟩ n [] :=
  ⟨List.length_replicate, rfl, List.take_zero⟩

theorem Holds.le (h : c.Holds n done) : done.length ≤ n := by
  have hlen := congrArg List.length h.written
  rw [List.length_take, h.length, h.pos, List.length_map] at hlen
  omega

/-- What is stored at the pointer; the pointer may stay in front of the last of it. -/
theorem Holds.stored (h : c.Holds n done) (bytes more : List UInt8)
    (hroom : done.length + (bytes.length + more.length) ≤ n) :
    ∃ mem, store c.mem c.pos (bytes ++ more) = some mem ∧
      Holds ⟨mem, c.pos + bytes.length⟩ n (done ++ bytes) := by
  have hpos := h.pos
  have hlen := h.length
  have htake : (c.mem.take c.pos).length = c.pos := by
    rw [List.length_take]
    omega
  refine ⟨_, if_pos (by rw [List.length_append]; omega), ?_, ?_, ?_⟩
  · simp only [List.length_append, List.length_map, List.length_drop, htake]
    omega
  · simp [hpos]
  · have hbytes : (done.map some ++ bytes.map some : List (Option UInt8)).length = c.pos + bytes.length := by
      simp [hpos]
    simp only [h.written, List.map_append, ← List.append_assoc]
    rw [List.append_assoc]
    exact List.take_left' hbytes

theorem Holds.put (h : c.Holds n done) (bytes : List UInt8) (hroom : done.length + bytes.length ≤ n) :
    ∃ d, c.put bytes = some d ∧ d.Holds n (done ++ bytes) := by
  obtain ⟨mem, hmem, hholds⟩ := h.stored bytes [] (by simpa using hroom)
  rw [List.append_nil] at hmem
  exact ⟨_, by rw [Cursor.put, hmem, Option.map_some], hholds⟩

theorem Holds.print (h : c.Holds n done) (size : ℕ) (text : List UInt8) (hsize : text.length < size)
    (hroom : done.length + text.length < n) : ∃ d, c.print size text = some d ∧ d.Holds n (done ++ text) := by
  obtain ⟨mem, hmem, hholds⟩ := h.stored text [0] (by rw [List.length_singleton]; omega)
  refine ⟨_, ?_, hholds⟩
  rw [Cursor.print, if_neg (by omega), List.take_of_length_le (by omega), hmem, Option.map_some]

theorem Holds.print_outside (h : c.Holds n done) (hsize : size ≠ 0)
    (hroom : n < done.length + min (text.length + 1) size) : c.print size text = none := by
  have hpos := h.pos
  have hlen := h.length
  have hcut : (text.take (size - 1) ++ [0]).length = min (text.length + 1) size := by
    rw [List.length_append, List.length_take, List.length_singleton]
    omega
  rw [Cursor.print, if_neg hsize, Lib.store, if_neg (by omega), Option.map_none]

theorem Holds.back (h : c.Holds n done) {k : ℕ} (hk : k ≤ done.length) : (c.back k).Holds n (done.take k) := by
  have hpos := h.pos
  refine ⟨h.length, ?_, ?_⟩
  · rw [List.length_take, min_eq_left hk, Cursor.back]
  · change c.mem.take k = _
    rw [List.map_take, ← h.written, List.take_take, min_eq_left (by omega)]

end Cursor

end MySQLSyncer.Lib
