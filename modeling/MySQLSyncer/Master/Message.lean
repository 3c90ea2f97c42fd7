import MySQLSyncer.Lib.Bytes
import MySQLSyncer.Lib.CString

/-! # The messages that the master builds

A message is described by the values that `rs_binlog_create_data` formats and copies; its
bytes are what these calls leave in the chunk.
-/
namespace MySQLSyncer.Master
open Lib

def pathMax : ℕ := 4096

structure DumpFile where
  name : List UInt8
  short : name.length ≤ pathMax
  noNul : 0 ∉ name

theorem DumpFile.name_inj {f g : DumpFile} : f.name = g.name ↔ f = g := by
  cases f
  cases g
  simp

instance : DecidableEq DumpFile := fun _ _ => decidable_of_iff _ DumpFile.name_inj

def rsBinlogEventHeaderLen : ℕ := 19

/-- What a message is made of: the position, the mission event type and, for a row message,
the table description and the body of the event. The lengths `cn`, `ml` and `el` of the
source are those of `ct`, `cm` and of the body with its header. -/
structure Message where
  dumpFile : DumpFile
  dumpPos : UInt32
  mev : UInt8
  db : List UInt8
  tb : List UInt8
  ct : List UInt8
  cm : List UInt8
  body : List UInt8
  deriving DecidableEq

def Message.cn (m : Message) : ℕ := m.ct.length

def Message.ml (m : Message) : ℕ := m.cm.length

def Message.el (m : Message) : ℕ := m.body.length + rsBinlogEventHeaderLen

def Message.position (m : Message) : List UInt8 := m.dumpFile.name ++ 44 :: decimal m.dumpPos.toNat

/-- The length of a message without a row event: the text, a comma, a newline and a byte. -/
def Message.positionLen (m : Message) : ℕ :=
  (decimal m.dumpPos.toNat).length + (m.dumpFile.name.length + 1 + 1 + 1)

/-- `rbd->len`, in 32 bits. -/
def Message.len (m : Message) : ℕ :=
  if m.mev = 0 then m.positionLen % 2 ^ 32
  else (m.positionLen + (m.el - rsBinlogEventHeaderLen + m.tb.length + 3 + m.db.length + 4 + m.cn +
    4 + m.ml)) % 2 ^ 32

def Message.positionText (m : Message) : List UInt8 := m.position ++ [10, m.mev]

def Message.rowText (m : Message) : List UInt8 :=
  m.position ++ 10 :: m.mev :: 44 :: (m.db ++ 46 :: (m.tb ++ [0]))

/-- The chunk after all stores; the last copy takes what the earlier ones left of `rbd->len`. -/
def Message.fill (m : Message) : Option (List (Option UInt8)) :=
  let chunk := freshBlock m.len
  if m.mev = 0 then snprintf chunk m.len m.positionText
  else do
    let len := m.rowText.length
    let chunk ← snprintf chunk m.len m.rowText
    let chunk ← store chunk len (leBytes 4 m.cn)
    let chunk ← store chunk (len + 4) m.ct
    let chunk ← store chunk (len + 4 + m.cn) (leBytes 4 m.ml)
    let chunk ← store chunk (len + 4 + m.cn + 4) m.cm
    let left := m.len - len - 8 - m.cn - m.ml
    if m.body.length < left then none
    else store chunk (len + 4 + m.cn + 4 + m.ml) (m.body.take left)

end MySQLSyncer.Master
