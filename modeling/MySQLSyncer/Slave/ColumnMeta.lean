import MySQLSyncer.Lib.Bytes
import MySQLSyncer.Lib.CString
import MySQLSyncer.Slave.DmlData

/-! # How the slave finds the length of a value

A parse function gets the bytes from the cursor on and the metadata from its own cursor on. It
gives the number of bytes in front of the value and the length of the value.
-/
namespace MySQLSyncer.Slave
open Lib

abbrev RsBinlogParseFunc := List UInt8 → List UInt8 → ℕ → ℕ → Option (ℕ × ℕ)

def readNat (n : ℕ) (p : List UInt8) : Option ℕ := (takeBytes n p).map fun r => leNat r.1

/-- `rs_memcpy(dl, p, pack_len)`, where `dl` has four bytes. -/
def readLength (packLen : ℕ) (p : List UInt8) : Option (ℕ × ℕ) :=
  if 4 < packLen then none else (readNat packLen p).map fun dl => (packLen, dl)

def rsBinlogParseDef : RsBinlogParseFunc := fun _ _ _ fl => some (0, fl)

def rsBinlogParseVarchar : RsBinlogParseFunc := fun p cm ml _ => do
  let max ← readNat ml cm
  readLength (if max < 256 then 1 else 2) p

def rsBinlogParseBit : RsBinlogParseFunc := fun _ cm _ _ => do
  let len ← readNat 1 cm
  some (0, len / 8)

def rsBinlogParseBlob : RsBinlogParseFunc := fun p cm ml _ => do
  let packLen ← readNat ml cm
  readLength packLen p

def rsBinlogParseVarstring : RsBinlogParseFunc := fun p cm _ _ => do
  let packLen ← readNat 1 (cm.drop 1)
  readLength packLen p

/-- The two upper bits of the length are stored inverted among the bits of the type. -/
def rsBinlogParseString : RsBinlogParseFunc := fun p cm _ _ => do
  let type ← readNat 1 cm
  let low ← readNat 1 (cm.drop 1)
  let maxLen := if type &&& 0x30 ≠ 0x30 then low ||| (((type &&& 0x30) ^^^ 0x30) <<< 4) else low
  readLength (if maxLen < 256 then 1 else 2) p

def dig2bytes : List ℕ := [0, 1, 1, 2, 2, 3, 3, 4, 4, 4]

/-- The sum is a `size_t` and is cut to 32 bits when it is returned. -/
def rsBinlogDecimalBinsize (decimal precision : UInt32) : UInt32 :=
  let intg := decimal - precision
  let intg0 := intg / 9
  let frac0 := precision / 9
  let intg0x := intg - intg0 * 9
  let frac0x := precision - frac0 * 9
  UInt32.ofNat (intg0.toNat * 4 + dig2bytes.getD intg0x.toNat 0 +
    frac0.toNat * 4 + dig2bytes.getD frac0x.toNat 0)

def rsBinlogParseDecimal : RsBinlogParseFunc := fun _ cm _ _ => do
  let decimal ← readNat 1 cm
  let precision ← readNat 1 (cm.drop 1)
  some (0, (rsBinlogDecimalBinsize (UInt32.ofNat decimal) (UInt32.ofNat precision)).toNat)

structure RsBinlogColumnMeta where
  metaLen : ℕ
  fixedLen : ℕ
  parseHandle : Option RsBinlogParseFunc

def rsColumnMeta (t : UInt8) : RsBinlogColumnMeta :=
  match t.toNat with
  | 1 => ⟨0, 1, some rsBinlogParseDef⟩
  | 2 => ⟨0, 2, some rsBinlogParseDef⟩
  | 3 => ⟨0, 4, some rsBinlogParseDef⟩
  | 4 => ⟨1, 4, some rsBinlogParseDef⟩
  | 5 => ⟨1, 8, some rsBinlogParseDef⟩
  | 7 => ⟨0, 4, some rsBinlogParseDef⟩
  | 8 => ⟨0, 8, some rsBinlogParseDef⟩
  | 9 => ⟨0, 3, some rsBinlogParseDef⟩
  | 10 => ⟨0, 3, some rsBinlogParseDef⟩
  | 11 => ⟨0, 3, some rsBinlogParseDef⟩
  | 12 => ⟨0, 8, some rsBinlogParseDef⟩
  | 13 => ⟨0, 1, some rsBinlogParseDef⟩
  | 15 => ⟨2, 0, some rsBinlogParseVarchar⟩
  | 16 => ⟨2, 0, some rsBinlogParseBit⟩
  | 246 => ⟨2, 0, some rsBinlogParseDecimal⟩
  | 252 => ⟨1, 0, some rsBinlogParseBlob⟩
  | 253 => ⟨2, 0, some rsBinlogParseVarstring⟩
  | 254 => ⟨2, 0, some rsBinlogParseString⟩
  | 255 => ⟨1, 0, some rsBinlogParseBlob⟩
  | _ => ⟨0, 0, none⟩

end MySQLSyncer.Slave
