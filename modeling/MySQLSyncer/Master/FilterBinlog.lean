import MySQLSyncer.Lib.Slice
import MySQLSyncer.Master.BinlogInfo

/-! # Putting a message in the ring -/
namespace MySQLSyncer.Master
open Lib MySQLSyncer.Core

/-- What `rs_binlog_create_data` formats and copies. The names are C strings; the counts say
how much of the two column arrays is copied. -/
def createMessage (rd : RsReqdumpData) (data : List UInt8) : Option Message :=
  let bi := rd.binlogInfo
  if bi.mev = 0 then
    some { dumpFile := rd.dumpFile, dumpPos := rd.dumpPos, mev := 0, db := [], tb := [], ct := [],
           cm := [], body := [] }
  else do
    let db ← cstr bi.db
    let tb ← cstr bi.tb
    let ct ← slice bi.ct 0 bi.cn.toNat
    let cm ← slice bi.cm 0 bi.ml.toNat
    some { dumpFile := rd.dumpFile, dumpPos := rd.dumpPos, mev := bi.mev, db := db, tb := tb,
           ct := ct, cm := cm, body := data }

/-- A position message is dropped unless the counter is a multiple of `RS_SKIP_DATA_FLUSH_NUM`;
a dropped one sets the counter to one. -/
def rsBinlogCreateData (rd : RsReqdumpData) (data : List UInt8) : Option (RsCode × RsReqdumpData) :=
  let bi := rd.binlogInfo
  if bi.mev = 0 ∧ bi.skipN % rsSkipDataFlushNum ≠ 0 then
    some (.ok, { rd with binlogInfo := { bi with skipN := 1 } })
  else do
    let m ← createMessage rd data
    let skipN := if bi.mev = 0 then bi.skipN + 1 else bi.skipN
    some (.ok, { rd with
      ring := rd.ring ++ [m]
      binlogInfo := { bi with skipN := skipN, flush := false, mev := 0, sent := true } })

end MySQLSyncer.Master
