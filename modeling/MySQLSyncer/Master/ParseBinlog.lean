import MySQLSyncer.Core.EventType
import MySQLSyncer.Master.FilterBinlog

/-! # The event handlers

A handler is cut at its one call of `rs_eof_read_binlog2`, which asks for the whole data
part. Its first half decides whether to read at all, its second half parses what was read.
Looking behind the bytes that were read, or writing behind an array, is undefined.
-/
namespace MySQLSyncer.Master
open Lib MySQLSyncer.Core

/-- The handlers; the three rows handlers differ in the type of the message only. -/
inductive Handler where
  | skip
  | query
  | stop
  | intvar
  | xid
  | tableMap
  | rows (mev : UInt8)
  deriving DecidableEq, Repr

def rsBinlogWriteRowsHandler : Handler := .rows rsWriteRowsEvent

def rsBinlogUpdateRowsHandler : Handler := .rows rsUpdateRowsEvent

def rsBinlogDeleteRowsHandler : Handler := .rows rsDeleteRowsEvent

def rsBinlogFuncs (idx : ℕ) : Option Handler :=
  if idx = 0 ∨ rsBinlogEventNum < idx then none
  else match idx with
    | 2 => some .query
    | 3 => some .stop
    | 4 => some .stop
    | 5 => some .intvar
    | 16 => some .xid
    | 19 => some .tableMap
    | 23 => some rsBinlogWriteRowsHandler
    | 24 => some rsBinlogUpdateRowsHandler
    | 25 => some rsBinlogDeleteRowsHandler
    | _ => some .skip

/-- `rd->binlog_info.t - '\0'` as a `uint32_t`: the type is a signed character. -/
def eventIdx (t : UInt8) : ℕ := if t.toNat < 128 then t.toNat else t.toNat + (2 ^ 32 - 256)

def rsBinlogHeaderHandler (rd : RsReqdumpData) (eh : List UInt8) : RsReqdumpData :=
  let el := UInt32.ofNat (leNat ((eh.drop 9).take 4))
  let pos := rd.dumpPos + el
  { rd with
    dumpPos := pos
    binlogInfo := { rd.binlogInfo with
      t := eh.getD 4 0
      svrid := UInt32.ofNat (leNat ((eh.drop 5).take 4))
      el := el
      np := pos
      dl := el - UInt32.ofNat rsBinlogEventHeaderLen } }

/-- The first half of a handler: it returns, reads the data part, or waits for a new file. -/
inductive Start where
  | ret (code : RsCode) (rd : RsReqdumpData)
  | read (rd : RsReqdumpData)
  | wait (rd : RsReqdumpData)

def RsReqdumpData.setSkip (rd : RsReqdumpData) : RsReqdumpData :=
  { rd with binlogInfo := { rd.binlogInfo with skip := true } }

def rsBinlogSkipHandler (rd : RsReqdumpData) : Start := .ret .ok rd.setSkip

/-- A query that is too long is skipped. -/
def rsBinlogQueryHandler (rd : RsReqdumpData) : Start :=
  if rsSqlMaxLen * 2 < rd.binlogInfo.dl.toNat then .ret .ok rd.setSkip else .read rd

def rsTranKeyword : List UInt8 := [66, 69, 71, 73, 78]

def rsTranEndKeyword : List UInt8 := [67, 79, 77, 77, 73, 84]

def tranAfter (sql : List UInt8) (tran : Bool) : Bool :=
  if sql.take rsTranKeyword.length = rsTranKeyword then true
  else if sql.take rsTranEndKeyword.length = rsTranEndKeyword then false
  else tran

structure QueryData where
  dbl : ℕ
  sbl : ℕ
  db : List UInt8
  text : List UInt8

/-- The offsets of the query handler. The length of the text is a 32-bit difference that is
cut to `RS_SQL_MAX_LEN`. -/
def parseQuery (el : UInt32) (query : List UInt8) : Option QueryData := do
  let dbl := leNat (← slice query 8 1) + 1
  let sbl := leNat (← slice query 11 2)
  let db ← slice query (13 + sbl) dbl
  let sl := min rsSqlMaxLen
    (el - UInt32.ofNat rsBinlogEventHeaderLen - UInt32.ofNat sbl - 13 - UInt32.ofNat dbl).toNat
  let text ← slice query (13 + sbl + dbl) sl
  some ⟨dbl, sbl, db, text⟩

/-- The database name is copied over the one of the last table map. -/
def rsBinlogQueryBody (rd : RsReqdumpData) (query : List UInt8) :
    Option (RsCode × RsReqdumpData) := do
  let bi := rd.binlogInfo
  let q ← parseQuery bi.el query
  let db ← copyInto bi.db q.db
  let sql ← copyInto bi.sql (q.text ++ [0])
  some (.ok, { rd with binlogInfo := { bi with
    dbl := UInt32.ofNat q.dbl, sbl := UInt32.ofNat q.sbl, db := db,
    sl := UInt32.ofNat q.text.length, sql := sql, logFormat := .sqlStatement,
    tran := tranAfter sql bi.tran } })

def rsBinlogIntvarHandler (rd : RsReqdumpData) : Start := .read rd

def rsBinlogIntvarBody (rd : RsReqdumpData) (intvar : List UInt8) :
    Option (RsCode × RsReqdumpData) := do
  let bi := rd.binlogInfo
  let t ← intvar[0]?
  if t ≠ 2 then some (.ok, { rd with binlogInfo := { bi with intvarT := t } })
  else
    let ai := UInt64.ofNat (leNat (← slice intvar 1 8))
    some (.ok, { rd with binlogInfo := { bi with intvarT := t, ai := ai, autoIncr := true } })

/-- The flag is cleared before the read. -/
def rsBinlogXidHandler (rd : RsReqdumpData) : Start :=
  .read { rd with binlogInfo := { rd.binlogInfo with tran := false } }

/-- The data part is read straight into the eight bytes of `tranid`. -/
def rsBinlogXidBody (rd : RsReqdumpData) (xid : List UInt8) : Option (RsCode × RsReqdumpData) := do
  let old := leBytes 8 rd.binlogInfo.tranid.toNat
  let tranid ← copyInto old xid
  some (.ok, { rd with binlogInfo := { rd.binlogInfo with tranid := UInt64.ofNat (leNat tranid) } })

/-- The value of a packed integer and the number of bytes it takes. The multi-byte forms are
read from the prefix byte on. -/
def rsParsePackedInteger (p : List UInt8) : Option (ℕ × ℕ) := do
  let b ← p[0]?
  let len := if b.toNat ≤ 250 then 1 else if b.toNat ≤ 252 then 2 else if b.toNat ≤ 253 then 3
    else if b.toNat ≤ 254 then 4 else 8
  some (leNat (← slice p 0 len), len)

def rsBinlogTableMapHandler (rd : RsReqdumpData) : Start := .read rd

/-- `snprintf` of `,db.tb,` into the local array. -/
def filterKey (db tb : List UInt8) : List UInt8 :=
  (44 :: (db ++ 46 :: (tb ++ [44]))).take (rsDatabaseNameMaxLen + rsTableNameMaxLen + 3 - 1)

/-- `rs_strstr(filter_tables, dt) == NULL`; without a list the search reads through a null
pointer. -/
def filterDecision (filterTables : Option (List UInt8)) (dt : List UInt8) : Option Bool :=
  filterTables.map fun list => !decide (dt <:+: list)

structure TableMapData where
  db : List UInt8
  tb : List UInt8
  cn : UInt32
  ct : List UInt8
  ml : UInt32
  cm : List UInt8
  deriving DecidableEq

/-- A name behind the byte that gives its length, terminator included, and what follows. -/
def parseName (p : List UInt8) : Option (List UInt8 × List UInt8) := do
  let len := leNat (← slice p 0 1) + 1
  let name ← slice p 1 len
  some (name, p.drop (1 + len))

def parseCounted (p : List UInt8) : Option (UInt32 × List UInt8 × List UInt8) := do
  let (n, len) ← rsParsePackedInteger p
  let n := UInt32.ofNat n
  let bytes ← slice p len n.toNat
  some (n, bytes, p.drop (len + n.toNat))

/-- The walk of the table map handler over the data part, behind the table id. -/
def parseTableMap (tm : List UInt8) : Option TableMapData := do
  let (db, p) ← parseName (tm.drop 8)
  let (tb, p) ← parseName p
  let (cn, ct, p) ← parseCounted p
  let (ml, cm, _) ← parseCounted p
  some ⟨db, tb, cn, ct, ml, cm⟩

def rsBinlogTableMapBody (rd : RsReqdumpData) (tm : List UInt8) :
    Option (RsCode × RsReqdumpData) := do
  let bi := rd.binlogInfo
  let d ← parseTableMap tm
  let db ← copyInto bi.db d.db
  let tb ← copyInto bi.tb d.tb
  let ct ← copyInto bi.ct d.ct
  let cm ← copyInto bi.cm d.cm
  let filter ← filterDecision rd.filterTables (filterKey (← cstr db) (← cstr tb))
  some (.ok, { rd with binlogInfo := { bi with
    dbl := UInt32.ofNat d.db.length, db := db, tbl := UInt32.ofNat d.tb.length, tb := tb, cn := d.cn,
    ct := ct, ml := d.ml, cm := cm, filter := filter } })

/-- The common first half of the three rows handlers: a filtered event is skipped, and
outside a transaction the flag is cleared on the way. -/
def rowsHandler (rd : RsReqdumpData) : Start :=
  let bi := rd.binlogInfo
  if bi.filter then
    .ret .ok { rd with binlogInfo := { bi with
      filter := if bi.tran then bi.filter else false, skip := true } }
  else .read rd

def rowsBody (mev : UInt8) (rd : RsReqdumpData) (wr : List UInt8) :
    Option (RsCode × RsReqdumpData) :=
  rsBinlogCreateData
    { rd with binlogInfo := { rd.binlogInfo with logFormat := .rowBased, mev := mev } } wr

/-- A stop or rotate event of another server is skipped. -/
def rsBinlogStopHandler (rd : RsReqdumpData) : Start :=
  if rd.serverId ≠ rd.binlogInfo.svrid then .ret .ok rd.setSkip else .wait rd

def handlerStart : Handler → RsReqdumpData → Start
  | .skip => rsBinlogSkipHandler
  | .query => rsBinlogQueryHandler
  | .stop => rsBinlogStopHandler
  | .intvar => rsBinlogIntvarHandler
  | .xid => rsBinlogXidHandler
  | .tableMap => rsBinlogTableMapHandler
  | .rows _ => rowsHandler

def handlerBody : Handler → RsReqdumpData → List UInt8 → Option (RsCode × RsReqdumpData)
  | .query => rsBinlogQueryBody
  | .intvar => rsBinlogIntvarBody
  | .xid => rsBinlogXidBody
  | .tableMap => rsBinlogTableMapBody
  | .rows mev => rowsBody mev
  | .skip => fun _ _ => none
  | .stop => fun _ _ => none

/-- The test of `rs_binlog_finish_handler` for a position message. -/
def RsBinlogInfo.publishes (bi : RsBinlogInfo) : Prop :=
  (¬ bi.tran ∧ ¬ bi.sent ∧ ¬ bi.filter) ∨ bi.flush

instance (bi : RsBinlogInfo) : Decidable bi.publishes := inferInstanceAs (Decidable (_ ∨ _))

def rsBinlogFinishHandler (rd : RsReqdumpData) : Option (RsCode × RsReqdumpData) := do
  let (code, rd) ← if rd.binlogInfo.publishes then rsBinlogCreateData rd [] else some (.ok, rd)
  if code ≠ .ok then some (.err, rd)
  else some (.ok, { rd with binlogInfo := { rd.binlogInfo with sent := false, skip := false } })

end MySQLSyncer.Master
