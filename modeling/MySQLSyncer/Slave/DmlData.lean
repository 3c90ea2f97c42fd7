import MySQLSyncer.Core.EventType
import MySQLSyncer.Lib.Bytes
import MySQLSyncer.Lib.CString

/-! # How the slave takes a message apart

The bytes of the message are the whole memory that may be read: a function that looks at a
byte behind them is undefined.
-/
namespace MySQLSyncer.Slave
open Lib MySQLSyncer.Core

def rsMysqlSkipData : UInt8 := 0
/-- `sizeof(dump_info)`: a path, a comma, ten digits and the terminator. -/
def rsSlaveInfoStrLen : ℕ := 4096 + 1 + 10 + 1

/-- What `rs_redis_dml_data` does with a message: nothing, fail, or call the handler that is
registered under a key, with the data pointer's bytes, their announced length and the type. -/
inductive DmlResult (η : Type) where
  | skipped
  | failed
  | called (handler : η) (key data : List UInt8) (rl : ℕ) (t : UInt8)
  deriving DecidableEq

/-- The buffer starts at the newline. The length left for the handler is a 32-bit difference. -/
def rsRedisDmlData {η : Type} (tableFunc : List UInt8 → Option η) (buf : List UInt8) (len : ℕ) :
    Option (DmlResult η) := do
  let t ← buf[1]?
  if t = rsMysqlSkipData then some .skipped
  else if IsRowsEvent t then
    let p := buf.drop 3
    let key ← cstr p
    let rl := (len + 2 ^ 32 - 4 - key.length) % 2 ^ 32
    match tableFunc key with
    | none => some .failed
    | some handler => some (.called handler key (p.drop (key.length + 1)) rl t)
  else some .failed

/-- The part of `rs_start_redis_thread` that copies the position and hands on the rest. No
newline before the first zero byte ends the thread. -/
def takeApart {η : Type} (tableFunc : List UInt8 → Option η) (data : List UInt8) :
    Option (Option (List UInt8) × DmlResult η) := do
  match ← strchr 10 data with
  | none => some (none, .failed)
  | some len =>
    if rsSlaveInfoStrLen < len + 1 then none
    else
      let r ← rsRedisDmlData tableFunc (data.drop len) (data.length - len)
      some (some (data.take len), r)

/-- What `rs_dm_binlog_row` finds in front of the rows: the counts with what they count, and
the bytes from the event body on. -/
structure RowData where
  cn : ℕ
  ct : List UInt8
  ml : ℕ
  cm : List UInt8
  body : List UInt8
  deriving DecidableEq

def takeBytes (n : ℕ) (p : List UInt8) : Option (List UInt8 × List UInt8) :=
  if n ≤ p.length then some (p.take n, p.drop n) else none

/-- The beginning of `rs_dm_binlog_row`. The rows end where `data + len` is, so the body is
the rest of the first `len` bytes. -/
def rsDmBinlogRow (data : List UInt8) (len : ℕ) : Option RowData := do
  let (cn, p) ← takeBytes 4 data
  let (ct, p) ← takeBytes (leNat cn) p
  let (ml, p) ← takeBytes 4 p
  let (cm, p) ← takeBytes (leNat ml) p
  let (body, _) ← takeBytes (len - (8 + leNat cn + leNat ml)) p
  some ⟨leNat cn, ct, leNat ml, cm, body⟩

theorem takeBytes_append {n : ℕ} {w : List UInt8} (h : w.length = n) (p : List UInt8) :
    takeBytes n (w ++ p) = some (w, p) := by
  rw [takeBytes, if_pos (by rw [List.length_append]; omega), List.take_left' h, List.drop_left' h]

/-- The counts, the table description and the body, as both sides lay them out. -/
def rowLayout (ct cm body : List UInt8) : List UInt8 :=
  leBytes 4 ct.length ++ (ct ++ (leBytes 4 cm.length ++ (cm ++ body)))

theorem length_rowLayout (ct cm body : List UInt8) :
    (rowLayout ct cm body).length = 8 + ct.length + cm.length + body.length := by
  simp only [rowLayout, List.length_append, length_leBytes]
  omega

theorem rsDmBinlogRow_rowLayout {ct cm : List UInt8} (hcn : ct.length < 2 ^ 32)
    (hml : cm.length < 2 ^ 32) (body : List UInt8) :
    rsDmBinlogRow (rowLayout ct cm body) (rowLayout ct cm body).length =
      some ⟨ct.length, ct, cm.length, cm, body⟩ := by
  have hcn' : leNat (leBytes 4 ct.length) = ct.length := by
    rw [leNat_leBytes, Nat.mod_eq_of_lt (by omega)]
  have hml' : leNat (leBytes 4 cm.length) = cm.length := by
    rw [leNat_leBytes, Nat.mod_eq_of_lt (by omega)]
  have hleft : (rowLayout ct cm body).length - (8 + ct.length + cm.length) = body.length := by
    rw [length_rowLayout]
    omega
  have hbody : takeBytes body.length body = some (body, []) := by
    simpa using takeBytes_append (n := body.length) rfl []
  rw [rsDmBinlogRow, rowLayout]
  simp only [takeBytes_append (length_leBytes 4 _), Option.bind_eq_bind, Option.bind_some, hcn', hml',
    takeBytes_append (rfl : ct.length = ct.length), takeBytes_append (rfl : cm.length = cm.length)]
  rw [← rowLayout, hleft, hbody]
  rfl

end MySQLSyncer.Slave
