import MySQLSyncer.Core.Code
import MySQLSyncer.Lib.Transition
import MySQLSyncer.Master.Message

/-! # The state of a dump session

The character arrays are byte lists of the declared lengths. The ring is the list of all
messages ever put into it; a full ring only delays the reader and the pool does not run
out of memory.
-/
namespace MySQLSyncer.Master
open Lib MySQLSyncer.Core

def rsDatabaseNameMaxLen : ℕ := 64
def rsTableNameMaxLen : ℕ := 64
def rsSqlMaxLen : ℕ := 1024
def rsColumnMaxLen : ℕ := 4096
def rsColumnMetaMaxLen : ℕ := 4096 * 2
def rsBinlogEventNum : ℕ := 27
def rsSkipDataFlushNum : UInt32 := 900
def rsBinlogMagicNumLen : ℕ := 4

/-- `RS_BINLOG_FORMAT_SQL_STATEMENT` and `RS_BINLOG_FORMAT_ROW_BASED` -/
inductive LogFormat where
  | sqlStatement
  | rowBased
  deriving DecidableEq, Repr

/-- `rs_binlog_info_t`. The field `data` of the source points to the body that the rows
handler has just read and is passed on as an argument here. -/
structure RsBinlogInfo where
  np : UInt32
  el : UInt32
  sbl : UInt32
  tbl : UInt32
  sl : UInt32
  dbl : UInt32
  ai : UInt64
  cn : UInt32
  ml : UInt32
  dl : UInt32
  svrid : UInt32
  tranid : UInt64
  skipN : UInt32
  sql : List UInt8
  db : List UInt8
  tb : List UInt8
  ct : List UInt8
  cm : List UInt8
  t : UInt8
  intvarT : UInt8
  mev : UInt8
  flush : Bool
  sent : Bool
  tran : Bool
  autoIncr : Bool
  logFormat : LogFormat
  filter : Bool
  skip : Bool
  deriving DecidableEq

/-- `rs_binlog_info_t_init`, which leaves `log_format` at what the zeroed record has. -/
def rsBinlogInfoTInit : RsBinlogInfo :=
  { np := 0, el := 0, sbl := 0, tbl := 0, sl := 0, dbl := 0, ai := 0, cn := 0, ml := 0, dl := 0,
    svrid := 0, tranid := 0, skipN := 0
    sql := List.replicate (rsSqlMaxLen + 1) 0
    db := List.replicate (rsDatabaseNameMaxLen + 1) 0
    tb := List.replicate (rsTableNameMaxLen + 1) 0
    ct := List.replicate rsColumnMaxLen 0
    cm := List.replicate rsColumnMetaMaxLen 0
    t := 0, intvarT := 0, mev := 0, flush := false, sent := false, tran := false,
    autoIncr := false, logFormat := .sqlStatement, filter := true, skip := false }

/-- The part of `rs_reqdump_data_t` that the event handlers use. -/
structure RsReqdumpData where
  dumpPos : UInt32
  dumpNum : UInt32
  dumpFile : DumpFile
  filterTables : Option (List UInt8)
  serverId : UInt32
  binlogInfo : RsBinlogInfo
  ring : List Message
  deriving DecidableEq

/-- A session at the position that the dump command asked for. The reading thread turns
position 0 into that of the first event when it opens the file. -/
def startSession (file : DumpFile) (num pos : UInt32) (filterTables : Option (List UInt8))
    (serverId : UInt32) : RsReqdumpData :=
  { dumpPos := if pos = 0 then UInt32.ofNat rsBinlogMagicNumLen else pos
    dumpNum := num, dumpFile := file, filterTables := filterTables, serverId := serverId,
    binlogInfo := rsBinlogInfoTInit, ring := [] }

/-- An event of the binlog: nineteen bytes of header, which give its length, and its body. -/
structure Event where
  head : List UInt8
  body : List UInt8
  head_length : head.length = rsBinlogEventHeaderLen
  el_eq : leNat ((head.drop 9).take 4) = rsBinlogEventHeaderLen + body.length
  deriving DecidableEq

namespace Event

def bytes (e : Event) : List UInt8 := e.head ++ e.body

def t (e : Event) : UInt8 := e.head.getD 4 0

def svrid (e : Event) : UInt32 := UInt32.ofNat (leNat ((e.head.drop 5).take 4))

def el (e : Event) : UInt32 := UInt32.ofNat (rsBinlogEventHeaderLen + e.body.length)

theorem length_lt (e : Event) : rsBinlogEventHeaderLen + e.body.length < 2 ^ 32 := by
  rw [← e.el_eq]
  have h := leNat_lt ((e.head.drop 9).take 4)
  have hlen : ((e.head.drop 9).take 4).length ≤ 4 := List.length_take_le _ _
  exact h.trans_le (Nat.pow_le_pow_right (by decide) hlen)

theorem el_toNat (e : Event) : e.el.toNat = rsBinlogEventHeaderLen + e.body.length := by
  rw [el, UInt32.toNat_ofNat', Nat.mod_eq_of_lt e.length_lt]

theorem length_bytes (e : Event) : e.bytes.length = rsBinlogEventHeaderLen + e.body.length := by
  rw [bytes, List.length_append, e.head_length]

/-- The data part that a handler reads has the length of the body. -/
theorem dl_toNat (e : Event) : (e.el - UInt32.ofNat rsBinlogEventHeaderLen).toNat = e.body.length := by
  have hle : UInt32.ofNat rsBinlogEventHeaderLen ≤ e.el := by
    rw [UInt32.le_iff_toNat_le, e.el_toNat]
    exact Nat.le_add_right _ _
  rw [UInt32.toNat_sub_of_le _ _ hle, e.el_toNat]
  exact Nat.add_sub_cancel_left ..

end Event

end MySQLSyncer.Master
