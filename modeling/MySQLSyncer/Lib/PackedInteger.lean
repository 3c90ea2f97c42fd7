import MySQLSyncer.Lib.Bytes

/-! # Packed integers

A small number is one byte. A larger one is a marker and two, three or eight bytes.
-/
namespace MySQLSyncer.Lib

def packedInteger (n : ℕ) : List UInt8 :=
  if n ≤ 250 then [UInt8.ofNat n]
  else if n < 2 ^ 16 then 252 :: leBytes 2 n
  else if n < 2 ^ 24 then 253 :: leBytes 3 n
  else 254 :: leBytes 8 n

theorem length_packedInteger (n : ℕ) : (packedInteger n).length =
    if n ≤ 250 then 1 else if n < 2 ^ 16 then 3 else if n < 2 ^ 24 then 4 else 9 := by
  unfold packedInteger
  split_ifs <;> simp

end MySQLSyncer.Lib
