import MySQLSyncer.Slave.DecodeRows

/-! # Counts on both sides

Both programs read counts with `rs_parse_packed_integer`, the master in front of the types and the
metadata of a table, the slave in front of the bitmaps of a row event. What follows a count is
found only when the count takes one byte.
-/
namespace MySQLSyncer.Slave
open Lib MySQLSyncer.Core Master

def tableMapBytes (head db tb types metas rest : List UInt8) : List UInt8 :=
  head ++ (TableMap.nameLayout db ++ (TableMap.nameLayout tb ++ (packedInteger types.length ++ (types ++
    (packedInteger metas.length ++ (metas ++ rest))))))

def rowEventFront (type : UInt8) (head useBits useBitsAfter : List UInt8) (n : ℕ) : List UInt8 :=
  head ++ (packedInteger n ++ (useBits ++ if type = rsUpdateRowsEvent then useBitsAfter else []))

/-- The number of columns, the first bitmap and the place of the rows are found. -/
def FrontRight (type : UInt8) (head useBits useBitsAfter rest : List UInt8) (n : ℕ) : Prop :=
  ∃ h, rowHead type (rowEventFront type head useBits useBitsAfter n ++ rest) = some h ∧ h.cn.toNat = n ∧
    h.useBits = useBits ∧ h.p = (rowEventFront type head useBits useBitsAfter n).length

variable {type : UInt8} {head db tb useBits useBitsAfter : List UInt8} {n : ℕ}

theorem countsRight_iff (hhead : head.length = 8) (hdb : db.length ≤ 255) (htb : tb.length ≤ 255)
    (types metas rest : List UInt8) :
    CountsRight (tableMapBytes head db tb types metas rest) types metas rest ↔
      types.length ≤ 250 ∧ metas.length ≤ 250 := by
  have hdrop : (tableMapBytes head db tb types metas rest).drop 8 = _ := List.drop_left' hhead
  have htypes := parseCounted_iff types (packedInteger metas.length ++ (metas ++ rest))
  have hmetas := parseCounted_iff metas rest
  rw [CountsRight, hdrop, ← htypes, ← hmetas, parseName_layout hdb]
  constructor
  · rintro ⟨_, p, _, q, hp, hq, hcounts⟩
    obtain ⟨-, rfl⟩ := by simpa using hp
    rw [parseName_layout htb] at hq
    obtain ⟨-, rfl⟩ := by simpa using hq
    exact hcounts
  · intro hcounts
    exact ⟨_, _, _, _, rfl, parseName_layout htb _, hcounts⟩

/-- The bitmaps are never taken to be longer than the number of columns calls for. -/
theorem un_le (cn : UInt32) : ((cn + 7) / 8).toNat ≤ (cn.toNat + 7) / 8 := by
  rw [un_eq]
  exact Nat.div_le_div_right (Nat.mod_le _ _)

theorem length_rowEventFront (hhead : head.length = 8) (hu : useBits.length = (n + 7) / 8)
    (hu' : useBitsAfter.length = (n + 7) / 8) : (rowEventFront type head useBits useBitsAfter n).length =
      8 + (packedInteger n).length + bitmaps type * ((n + 7) / 8) := by
  simp only [rowEventFront, bitmaps, List.length_append, hhead, hu]
  split_ifs
  · omega
  · rw [List.length_nil]
    omega

theorem frontRight_iff (hhead : head.length = 8) (hu : useBits.length = (n + 7) / 8)
    (hu' : useBitsAfter.length = (n + 7) / 8) (rest : List UInt8) :
    FrontRight type head useBits useBitsAfter rest n ↔ n ≤ 250 := by
  have hbody : rowEventFront type head useBits useBitsAfter n ++ rest = head ++ (packedInteger n ++
      (useBits ++ ((if type = rsUpdateRowsEvent then useBitsAfter else []) ++ rest))) := by
    simp only [rowEventFront, List.append_assoc]
  have hfront := @length_rowEventFront type _ _ _ _ hhead hu hu'
  constructor
  · rintro ⟨h, hh, hcn, -, hp⟩
    by_contra hn
    obtain ⟨k, cl, hk, -, hun, hplace⟩ := rowHead_spec hh
    rw [hbody, List.drop_left' hhead] at hk
    obtain ⟨k', len, hread, hlen⟩ := rsParsePackedInteger_large (not_le.mp hn) _
    rw [hread] at hk
    obtain ⟨-, rfl⟩ := by simpa using hk
    have hle := un_le h.cn
    rw [← hun, hcn] at hle
    have hbitmaps := Nat.mul_le_mul_left (bitmaps type) hle
    omega
  · intro hn
    refine ⟨_, hbody ▸ rowHead_narrow hhead hn hu hu' rest, ?_, rfl, ?_⟩
    · rw [UInt32.toNat_ofNat']
      omega
    · rw [hfront, length_packedInteger, if_pos hn]

/-- A packed integer, the counts of a table map and the count of a row event are read right
exactly when they take one byte. -/
theorem counts_iff (type : UInt8) (n : ℕ) (types metas rest : List UInt8) (hhead : head.length = 8)
    (hdb : db.length ≤ 255) (htb : tb.length ≤ 255) (hu : useBits.length = (n + 7) / 8)
    (hu' : useBitsAfter.length = (n + 7) / 8) :
    (rsParsePackedInteger (packedInteger n ++ rest) = some (n, (packedInteger n).length) ↔ n ≤ 250) ∧
    (CountsRight (tableMapBytes head db tb types metas rest) types metas rest ↔
      types.length ≤ 250 ∧ metas.length ≤ 250) ∧
    (FrontRight type head useBits useBitsAfter rest n ↔ n ≤ 250) := by
  refine ⟨rsParsePackedInteger_iff n rest, ?_, ?_⟩
  · exact countsRight_iff hhead hdb htb types metas rest
  · exact frontRight_iff hhead hu hu' rest

theorem counts_sample :
    rsParsePackedInteger (packedInteger 1 ++ [0]) = some (1, (packedInteger 1).length) ∧
    CountsRight (tableMapBytes (leBytes 8 0) [100] [116] [15] [10, 0] [0]) [15] [10, 0] [0] ∧
    FrontRight rsUpdateRowsEvent (leBytes 8 0) [1] [1] [0] 1 := by
  have h := @counts_iff (leBytes 8 0) [100] [116] [1] [1] rsUpdateRowsEvent 1 [15] [10, 0] [0] rfl
    (by decide) (by decide) rfl rfl
  exact ⟨h.1.mpr (by decide), h.2.1.mpr (by decide), h.2.2.mpr (by decide)⟩

/-- 251 is the first count that takes two bytes behind its marker. -/
theorem not_counts : ¬ ∀ n < 2 ^ 64, ∀ rest : List UInt8,
    rsParsePackedInteger (packedInteger n ++ rest) = some (n, (packedInteger n).length) := by
  intro h
  have h251 := h 251 (by decide) []
  revert h251
  decide

end MySQLSyncer.Slave
