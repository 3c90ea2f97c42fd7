import Mathlib.Algebra.Order.Floor.Semiring
import Mathlib.Order.Monotone.Basic
import Mathlib.Tactic

/-! # Sizes that grow by a factor

The next size is the product with the factor, truncated and rounded up to whole units.
-/
namespace MySQLSyncer.Lib
universe u

def roundUp (unit n : ℕ) : ℕ := (n + (unit - 1)) / unit * unit

variable {unit n m : ℕ}

@[simp] theorem dvd_roundUp (unit n : ℕ) : unit ∣ roundUp unit n := Nat.dvd_mul_left _ _

/-- Rounding up is below exactly the multiples that are not below the number itself. -/
theorem roundUp_lt_iff (hunit : 0 < unit) (hm : unit ∣ m) : roundUp unit n < m ↔ n + (unit - 1) < m := by
  obtain ⟨q, rfl⟩ := hm
  rw [roundUp, Nat.mul_comm unit q, Nat.mul_lt_mul_right hunit, Nat.div_lt_iff_lt_mul hunit]

theorem le_roundUp_iff (hunit : 0 < unit) (hm : unit ∣ m) : m ≤ roundUp unit n ↔ m ≤ n + (unit - 1) := by
  rw [← Nat.not_lt, roundUp_lt_iff hunit hm, Nat.not_lt]

theorem roundUp_of_dvd (hunit : 0 < unit) (hn : unit ∣ n) : roundUp unit n = n := by
  obtain ⟨q, rfl⟩ := hn
  have hrest : (unit - 1) / unit = 0 := Nat.div_eq_of_lt (by omega)
  rw [roundUp, Nat.mul_comm unit q, Nat.add_comm, Nat.add_mul_div_right _ _ hunit, hrest, Nat.zero_add]

theorem roundUp_mono (h : n ≤ m) : roundUp unit n ≤ roundUp unit m :=
  Nat.mul_le_mul_right _ (Nat.div_le_div_right (Nat.add_le_add_right h _))

section scaled
variable {K : Type u} [Semiring K] [LinearOrder K] [FloorSemiring K] [IsStrictOrderedRing K] {f : K} {s : ℕ}

def scaled (unit : ℕ) (f : K) (s : ℕ) : ℕ := roundUp unit ⌊(s : K) * f⌋₊

/-- With a factor of at least one the truncated product is at least the size. -/
theorem le_floor_mul (h : 1 ≤ f) (s : ℕ) : s ≤ ⌊(s : K) * f⌋₊ := by
  apply Nat.le_floor
  exact le_mul_of_one_le_right (Nat.cast_nonneg s) h

theorem floor_mul_le (h : f ≤ 1) (s : ℕ) : ⌊(s : K) * f⌋₊ ≤ s := by
  apply Nat.floor_le_of_le
  exact mul_le_of_le_one_right (Nat.cast_nonneg s) h

theorem scaled_le (hunit : 0 < unit) (hs : unit ∣ s) (h : f ≤ 1) : scaled unit f s ≤ s := by
  calc
    scaled unit f s ≤ roundUp unit s := roundUp_mono (floor_mul_le h s)
    _ = s := roundUp_of_dvd hunit hs

/-- A size that comes back to itself is the size of every turn. -/
theorem iterate_scaled_fixed (hunit : 0 < unit) (hs : unit ∣ s) (h : f ≤ 1)
    (hback : s ≤ ⌊(s : K) * f⌋₊ + (unit - 1)) (k : ℕ) : (scaled unit f)^[k] s = s := by
  apply Function.iterate_fixed
  exact Nat.le_antisymm (scaled_le hunit hs h) ((le_roundUp_iff hunit hs).mpr hback)

end scaled

end MySQLSyncer.Lib
