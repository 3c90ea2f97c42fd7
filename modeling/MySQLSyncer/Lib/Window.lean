import Mathlib.Data.Nat.ModEq

/-! # Sequence numbers in a sliding window

A window of at most `n` consecutive sequence numbers meets every residue class
modulo `n` at most once, so a table with `n` cells holds the whole window.
-/
namespace MySQLSyncer.Lib

/-- Two distinct numbers less than `n` apart have distinct residues. -/
theorem mod_ne_of_window {n i j : ℕ} (hij : i < j) (hn : j < i + n) : i % n ≠ j % n := by
  intro h
  have hd : n ∣ j - i := (Nat.modEq_iff_dvd' hij.le).mp h
  have hle := Nat.le_of_dvd (by omega) hd
  omega

theorem mod_succ_eq {n i : ℕ} (hn : 0 < n) :
    (i + 1) % n = if i % n + 1 = n then 0 else i % n + 1 := by
  have hlt := Nat.mod_lt i hn
  rw [← Nat.mod_add_mod]
  split_ifs with h
  · rw [h, Nat.mod_self]
  · exact Nat.mod_eq_of_lt (by omega)

end MySQLSyncer.Lib
