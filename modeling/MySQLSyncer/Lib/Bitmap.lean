import Mathlib.Data.Nat.Bitwise

/-! # Bitmaps

A bitmap is a byte string; its first bit is the lowest one of its first byte.
-/
namespace MySQLSyncer.Lib

/-- The bit with the index `i`; one behind the last byte is undefined. -/
def bitAt (w : List UInt8) (i : ℕ) : Option Bool := (w[i / 8]?).map fun b => b.toNat.testBit (i % 8)

structure IsBitmap (w : List UInt8) (bits : List Bool) : Prop where
  length : w.length = (bits.length + 7) / 8
  bit : ∀ i b, bits[i]? = some b → bitAt w i = some b

instance (w : List UInt8) (bits : List Bool) : Decidable (IsBitmap w bits) :=
  decidable_of_iff (w.length = (bits.length + 7) / 8 ∧ ∀ i : Fin bits.length, bitAt w i = some bits[i]) <| by
    constructor
    · rintro ⟨hlen, hbit⟩
      refine ⟨hlen, fun i b hb => ?_⟩
      obtain ⟨hi, rfl⟩ := List.getElem?_eq_some_iff.mp hb
      exact hbit ⟨i, hi⟩
    · intro h
      exact ⟨h.length, fun i => h.bit i _ (List.getElem?_eq_getElem i.isLt)⟩

def BitsFrom (w : List UInt8) (i : ℕ) (bits : List Bool) : Prop :=
  ∀ k b, bits[k]? = some b → bitAt w (i + k) = some b

theorem IsBitmap.bitsFrom {w : List UInt8} {bits : List Bool} (h : IsBitmap w bits) : BitsFrom w 0 bits := by
  intro k b hb
  rw [Nat.zero_add]
  exact h.bit k b hb

theorem bitsFrom_cons {w : List UInt8} {i : ℕ} {b : Bool} {bits : List Bool} :
    BitsFrom w i (b :: bits) ↔ bitAt w i = some b ∧ BitsFrom w (i + 1) bits := by
  constructor
  · intro h
    refine ⟨h 0 b rfl, fun k b' hb => ?_⟩
    rw [Nat.add_right_comm]
    exact h (k + 1) b' hb
  · rintro ⟨hhead, htail⟩ k b' hb
    cases k with
    | zero => simpa [← hb] using hhead
    | succ k =>
      have h := htail k b' (by simpa using hb)
      rwa [Nat.add_right_comm] at h

end MySQLSyncer.Lib
