import MySQLSyncer.Lib.PackedInteger
import MySQLSyncer.Master.TableMap

/-! # Reading packed integers

The longer forms are read from their marker on, and so with a byte too few.
-/
namespace MySQLSyncer.Master
open Lib MySQLSyncer.Core

variable {n : ℕ}

theorem rsParsePackedInteger_small (hn : n ≤ 250) (rest : List UInt8) :
    rsParsePackedInteger (packedInteger n ++ rest) = some (n, 1) := by
  have hbyte : (UInt8.ofNat n).toNat = n := by
    rw [UInt8.toNat_ofNat']
    omega
  have h := rsParsePackedInteger_narrow (b := UInt8.ofNat n) (by omega) rest
  rw [hbyte] at h
  rw [packedInteger, if_pos hn]
  exact h

theorem rsParsePackedInteger_two (hn : 250 < n) (hlt : n < 2 ^ 16) (rest : List UInt8) :
    rsParsePackedInteger (packedInteger n ++ rest) = some (252 + 256 * (n % 256), 2) := by
  have h := rsParsePackedInteger_wide (UInt8.ofNat n) (UInt8.ofNat (n / 256) :: rest)
  rw [UInt8.toNat_ofNat'] at h
  rw [packedInteger, if_neg (by omega), if_pos hlt]
  exact h

theorem rsParsePackedInteger_three (p : List UInt8) (hp : 2 ≤ p.length) :
    rsParsePackedInteger (253 :: p) = some (leNat (253 :: p.take 2), 3) := by
  have hread : slice (253 :: p) 0 3 = some (253 :: p.take 2) := by
    rw [slice, if_pos (by rw [List.length_cons]; omega)]
    rfl
  simp [rsParsePackedInteger, hread]

theorem rsParsePackedInteger_eight (p : List UInt8) (hp : 3 ≤ p.length) :
    rsParsePackedInteger (254 :: p) = some (leNat (254 :: p.take 3), 4) := by
  have hread : slice (254 :: p) 0 4 = some (254 :: p.take 3) := by
    rw [slice, if_pos (by rw [List.length_cons]; omega)]
    rfl
  simp [rsParsePackedInteger, hread]

/-- The width that is taken for a longer form is less than its length. -/
theorem rsParsePackedInteger_large (hn : 250 < n) (rest : List UInt8) :
    ∃ k len, rsParsePackedInteger (packedInteger n ++ rest) = some (k, len) ∧
      len < (packedInteger n).length := by
  unfold packedInteger
  rw [if_neg (by omega)]
  split_ifs with h16 h24
  · refine ⟨_, _, rsParsePackedInteger_wide (UInt8.ofNat n) (UInt8.ofNat (n / 256) :: rest), ?_⟩
    rw [List.length_cons, length_leBytes]
    decide
  · refine ⟨_, _, rsParsePackedInteger_three (leBytes 3 n ++ rest) ?_, ?_⟩
    · rw [List.length_append, length_leBytes]
      omega
    · rw [List.length_cons, length_leBytes]
      decide
  · refine ⟨_, _, rsParsePackedInteger_eight (leBytes 8 n ++ rest) ?_, ?_⟩
    · rw [List.length_append, length_leBytes]
      omega
    · rw [List.length_cons, length_leBytes]
      decide

/-- A packed integer is read right exactly when it is a single byte. -/
theorem rsParsePackedInteger_iff (n : ℕ) (rest : List UInt8) :
    rsParsePackedInteger (packedInteger n ++ rest) = some (n, (packedInteger n).length) ↔ n ≤ 250 := by
  constructor
  · intro h
    by_contra hn
    obtain ⟨k, len, hread, hlen⟩ := rsParsePackedInteger_large (not_le.mp hn) rest
    rw [hread] at h
    obtain ⟨-, rfl⟩ := by simpa using h
    exact lt_irrefl _ hlen
  · intro hn
    rw [rsParsePackedInteger_small hn, length_packedInteger, if_pos hn]

/-- The walk finds each count, and behind it the bytes it counts and the place of the next field. -/
def CountsRight (tm types metas rest : List UInt8) : Prop :=
  ∃ db p tb q, parseName (tm.drop 8) = some (db, p) ∧ parseName p = some (tb, q) ∧
    parseCounted q = some (UInt32.ofNat types.length, types, packedInteger metas.length ++ (metas ++ rest)) ∧
    parseCounted (packedInteger metas.length ++ (metas ++ rest)) =
      some (UInt32.ofNat metas.length, metas, rest)

/-- A counted field is read right exactly when its count takes one byte. -/
theorem parseCounted_iff (bytes rest : List UInt8) :
    parseCounted (packedInteger bytes.length ++ (bytes ++ rest)) =
      some (UInt32.ofNat bytes.length, bytes, rest) ↔ bytes.length ≤ 250 := by
  constructor
  · intro h
    by_contra hn
    obtain ⟨k, len, hread, hlen⟩ := rsParsePackedInteger_large (not_le.mp hn) (bytes ++ rest)
    rw [parseCounted_eq hread] at h
    obtain ⟨out, hslice, hout⟩ := Option.map_eq_some_iff.mp h
    obtain ⟨-, hout⟩ := Prod.mk.inj hout
    obtain ⟨rfl, hrest⟩ := Prod.mk.inj hout
    have hwidth := slice_length hslice
    have hin := (slice_eq_some.mp hslice).1
    have hleft := congrArg List.length hrest
    simp only [List.length_drop, List.length_append] at hin hleft
    omega
  · intro hn
    have hpacked : packedInteger bytes.length = packed bytes.length := by
      rw [packedInteger, packed, if_pos hn, if_pos hn]
    rw [hpacked, ← List.append_assoc]
    exact parseCounted_narrow hn rest

end MySQLSyncer.Master
