import Mathlib.Data.Nat.Digits.Defs
import Mathlib.Data.Nat.Digits.Lemmas
import Mathlib.Tactic

/-! # Little-endian numbers -/
namespace MySQLSyncer.Lib

def leNat (w : List UInt8) : ℕ := Nat.ofDigits 256 (w.map UInt8.toNat)

def leBytes : ℕ → ℕ → List UInt8
  | 0, _ => []
  | k + 1, n => UInt8.ofNat n :: leBytes k (n / 256)

@[simp] theorem leNat_nil : leNat [] = 0 := rfl

@[simp] theorem leNat_cons (b : UInt8) (w : List UInt8) :
    leNat (b :: w) = b.toNat + 256 * leNat w := Nat.ofDigits_cons ..

@[simp] theorem length_leBytes (k n : ℕ) : (leBytes k n).length = k := by
  induction k generalizing n with
  | zero => rfl
  | succ k ih => rw [leBytes, List.length_cons, ih]

theorem leNat_lt (w : List UInt8) : leNat w < 256 ^ w.length := by
  have h := Nat.ofDigits_lt_base_pow_length (b := 256) (l := w.map UInt8.toNat) (by decide)
    (fun x hx => by
      obtain ⟨b, -, rfl⟩ := List.mem_map.mp hx
      exact b.toNat_lt)
  rwa [List.length_map] at h

theorem leNat_leBytes (k n : ℕ) : leNat (leBytes k n) = n % 256 ^ k := by
  induction k generalizing n with
  | zero => rw [leBytes, leNat_nil, Nat.pow_zero, Nat.mod_one]
  | succ k ih =>
    rw [leBytes, leNat_cons, ih, UInt8.toNat_ofNat']
    change n % 256 + 256 * _ = _
    rw [Nat.pow_succ', Nat.mod_mul]

theorem leBytes_leNat (w : List UInt8) : leBytes w.length (leNat w) = w := by
  induction w with
  | nil => rfl
  | cons b w ih =>
    have hb := b.toNat_lt
    have hdiv : leNat (b :: w) / 256 = leNat w := by rw [leNat_cons]; omega
    have hlow : UInt8.ofNat (leNat (b :: w)) = b := by
      apply UInt8.toNat_inj.mp
      rw [leNat_cons, UInt8.toNat_ofNat']
      omega
    rw [List.length_cons, leBytes, hdiv, hlow, ih]

end MySQLSyncer.Lib
