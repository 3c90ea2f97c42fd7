import MySQLSyncer.Master.ParseBinlog
import MySQLSyncer.Master.RowFilter

/-! # A session, event by event

What a session does with a whole event, when the reader hands over exactly its bytes. That
the reader does so is shown in `ReadBinlog`.
-/
namespace MySQLSyncer.Master
open Lib MySQLSyncer.Core

/-- How a turn of the loop of `rs_read_binlog` ends: back at the top; out of the loop with
`RS_OK`, so that the file is opened again; in the loop of the stop handler; or with `RS_ERR`. -/
inductive Turn where
  | top (rd : RsReqdumpData)
  | reopen (rd : RsReqdumpData)
  | wait (rd : RsReqdumpData)
  | exit

def finishTurn (r : RsCode × RsReqdumpData) : Option Turn :=
  if r.1 = .ok then (rsBinlogFinishHandler r.2).map fun (code, rd) =>
    if code = .ok then .top rd else .exit
  else some .exit

def Event.handler (e : Event) : Option Handler := rsBinlogFuncs (eventIdx e.t)

def runHandler (h : Handler) (rd : RsReqdumpData) (body : List UInt8) : Option Turn :=
  match handlerStart h rd with
  | .ret code rd => finishTurn (code, rd)
  | .read rd => (handlerBody h rd body).bind finishTurn
  | .wait rd => some (.wait rd)

/-- One turn of the loop of `rs_read_binlog`. -/
def turn (rd : RsReqdumpData) (e : Event) : Option Turn :=
  match e.handler with
  | none => some (.reopen (rsBinlogHeaderHandler rd e.head))
  | some h => runHandler h (rsBinlogHeaderHandler rd e.head) e.body

inductive Item where
  | event (e : Event)
  | file (name : DumpFile) (num : UInt32)
  deriving DecidableEq

/-- A session; `waiting` is set while the stop handler looks for the next file. -/
structure Session where
  rd : RsReqdumpData
  waiting : Bool
  deriving DecidableEq

def Turn.session : Turn → Option Session
  | .top rd => some ⟨rd, false⟩
  | .reopen rd => some ⟨rd, false⟩
  | .wait rd => some ⟨rd, true⟩
  | .exit => none

/-- `rs_has_next_binlog` found `name`, which is then opened behind its magic number. -/
def RsReqdumpData.openNext (rd : RsReqdumpData) (name : DumpFile) (num : UInt32) : RsReqdumpData :=
  { rd with dumpFile := name, dumpNum := num, dumpPos := UInt32.ofNat rsBinlogMagicNumLen }

/-- One step of a session. Behind its own stop event it reads no further event of the file. -/
def sessionStep (s : Session) : Item → Option Session
  | .event e => if s.waiting then none else (turn s.rd e).bind Turn.session
  | .file name num => some ⟨s.rd.openNext name num, false⟩

def RsReqdumpData.flags (rd : RsReqdumpData) : Flags := ⟨rd.binlogInfo.filter, rd.binlogInfo.tran⟩

structure RsReqdumpData.Idle (rd : RsReqdumpData) : Prop where
  mev : rd.binlogInfo.mev = 0
  sent : rd.binlogInfo.sent = false
  skip : rd.binlogInfo.skip = false
  flush : rd.binlogInfo.flush = false

def rowsOf (ring : List Message) : List Message := ring.filter (·.mev ≠ 0)

/-- The message of `rs_binlog_finish_handler`. -/
def positionMessage (rd : RsReqdumpData) : Message :=
  { dumpFile := rd.dumpFile, dumpPos := rd.dumpPos, mev := 0, db := [], tb := [], ct := [], cm := [],
    body := [] }

def RsReqdumpData.finished (rd : RsReqdumpData) (skipN : UInt32) (pos : List Message) :
    RsReqdumpData :=
  { rd with
    ring := rd.ring ++ pos
    binlogInfo := { rd.binlogInfo with
      skipN := skipN, mev := 0, flush := false, sent := false, skip := false } }

variable {rd r : RsReqdumpData} {e : Event} {h : Handler} {code : RsCode} {body : List UInt8}

/-- What the finish handler may add: a position message, when nothing was sent for the event
and the filter is open. -/
def Publishes (r : RsReqdumpData) (pos : List Message) : Prop :=
  pos = [] ∨ (pos = [positionMessage r] ∧ r.binlogInfo.sent = false ∧ r.binlogInfo.filter = false)

/-- The finish handler returns, with at most a position message. -/
theorem rsBinlogFinishHandler_eq (hmev : rd.binlogInfo.mev = 0) (hflush : rd.binlogInfo.flush = false) :
    ∃ n pos, rsBinlogFinishHandler rd = some (.ok, rd.finished n pos) ∧ Publishes rd pos := by
  unfold rsBinlogFinishHandler
  by_cases hpub : rd.binlogInfo.publishes
  · have hopen : rd.binlogInfo.sent = false ∧ rd.binlogInfo.filter = false := by
      rcases hpub with ⟨-, hs, hf⟩ | hf
      · exact ⟨Bool.eq_false_of_not_eq_true hs, Bool.eq_false_of_not_eq_true hf⟩
      · exact absurd hf (by rw [hflush]; decide)
    by_cases hskip : rd.binlogInfo.skipN % rsSkipDataFlushNum ≠ 0
    · refine ⟨1, [], ?_, Or.inl rfl⟩
      rw [if_pos hpub, rsBinlogCreateData, if_pos ⟨hmev, hskip⟩]
      simp [RsReqdumpData.finished, hmev, hflush]
    · refine ⟨rd.binlogInfo.skipN + 1, [positionMessage rd], ?_, Or.inr ⟨rfl, hopen⟩⟩
      rw [if_pos hpub, rsBinlogCreateData, if_neg (fun hc => hskip hc.2)]
      simp [createMessage, RsReqdumpData.finished, hmev, positionMessage]
  · refine ⟨rd.binlogInfo.skipN, [], ?_, Or.inl rfl⟩
    rw [if_neg hpub]
    simp [RsReqdumpData.finished, hmev, hflush]

/-- A query sets the transaction flag by its text and overwrites the database name. -/
theorem rsBinlogQueryBody_spec (hs : rsBinlogQueryBody rd body = some (code, r)) :
    code = .ok ∧ ∃ q db sql, parseQuery rd.binlogInfo.el body = some q ∧
      copyInto rd.binlogInfo.db q.db = some db ∧ copyInto rd.binlogInfo.sql (q.text ++ [0]) = some sql ∧
      r = { rd with binlogInfo := { rd.binlogInfo with
        dbl := UInt32.ofNat q.dbl, sbl := UInt32.ofNat q.sbl, db := db,
        sl := UInt32.ofNat q.text.length, sql := sql, logFormat := .sqlStatement,
        tran := tranAfter sql rd.binlogInfo.tran } } := by
  simp only [rsBinlogQueryBody, Option.bind_eq_bind, Option.bind_eq_some_iff] at hs
  obtain ⟨q, hq, db, hdb, sql, hsql, hs⟩ := hs
  obtain ⟨rfl, rfl⟩ := Prod.mk.inj (Option.some.inj hs)
  exact ⟨rfl, q, db, sql, hq, hdb, hsql, rfl⟩

theorem rsBinlogIntvarBody_spec (hs : rsBinlogIntvarBody rd body = some (code, r)) :
    code = .ok ∧ ((∃ t, body[0]? = some t ∧ t ≠ 2 ∧
        r = { rd with binlogInfo := { rd.binlogInfo with intvarT := t } }) ∨
      ∃ ai, body[0]? = some 2 ∧ slice body 1 8 = some ai ∧
        r = { rd with binlogInfo := { rd.binlogInfo with
          intvarT := 2, ai := UInt64.ofNat (leNat ai), autoIncr := true } }) := by
  simp only [rsBinlogIntvarBody, Option.bind_eq_bind, Option.bind_eq_some_iff] at hs
  obtain ⟨t, ht, hs⟩ := hs
  split_ifs at hs with h2
  · obtain ⟨rfl, rfl⟩ := Prod.mk.inj (Option.some.inj hs)
    exact ⟨rfl, Or.inl ⟨t, ht, h2, rfl⟩⟩
  · obtain rfl := not_not.mp h2
    obtain ⟨ai, hai, hs⟩ := Option.bind_eq_some_iff.mp hs
    obtain ⟨rfl, rfl⟩ := Prod.mk.inj (Option.some.inj hs)
    exact ⟨rfl, Or.inr ⟨ai, ht, hai, rfl⟩⟩

theorem rsBinlogXidBody_spec (hs : rsBinlogXidBody rd body = some (code, r)) :
    code = .ok ∧ ∃ id, copyInto (leBytes 8 rd.binlogInfo.tranid.toNat) body = some id ∧
      r = { rd with binlogInfo := { rd.binlogInfo with tranid := UInt64.ofNat (leNat id) } } := by
  simp only [rsBinlogXidBody, Option.bind_eq_bind, Option.bind_eq_some_iff] at hs
  obtain ⟨id, hid, hs⟩ := hs
  obtain ⟨rfl, rfl⟩ := Prod.mk.inj (Option.some.inj hs)
  exact ⟨rfl, id, hid, rfl⟩

/-- A table map replaces the table description and decides whether its rows are filtered. -/
theorem rsBinlogTableMapBody_spec (hs : rsBinlogTableMapBody rd body = some (code, r)) :
    code = .ok ∧ ∃ d db tb ct cm dbName tbName filter, parseTableMap body = some d ∧
      copyInto rd.binlogInfo.db d.db = some db ∧ copyInto rd.binlogInfo.tb d.tb = some tb ∧
      copyInto rd.binlogInfo.ct d.ct = some ct ∧ copyInto rd.binlogInfo.cm d.cm = some cm ∧
      cstr db = some dbName ∧ cstr tb = some tbName ∧
      filterDecision rd.filterTables (filterKey dbName tbName) = some filter ∧
      r = { rd with binlogInfo := { rd.binlogInfo with
        dbl := UInt32.ofNat d.db.length, db := db, tbl := UInt32.ofNat d.tb.length, tb := tb,
        cn := d.cn, ct := ct, ml := d.ml, cm := cm, filter := filter } } := by
  simp only [rsBinlogTableMapBody, Option.bind_eq_bind, Option.bind_eq_some_iff] at hs
  obtain ⟨d, hd, db, hdb, tb, htb, ct, hct, cm, hcm, dbName, hdbn, tbName, htbn, filter, hf, hs⟩ := hs
  obtain ⟨rfl, rfl⟩ := Prod.mk.inj (Option.some.inj hs)
  exact ⟨rfl, d, db, tb, ct, cm, dbName, tbName, filter, hd, hdb, htb, hct, hcm, hdbn, htbn, hf, rfl⟩

/-- Outside a transaction a filtered row event opens the filter. -/
theorem rowsHandler_filtered (hfilter : rd.binlogInfo.filter = true) :
    rowsHandler rd = .ret .ok { rd with binlogInfo := { rd.binlogInfo with
      filter := rd.binlogInfo.tran, skip := true } } := by
  have hflag : (if rd.binlogInfo.tran = true then rd.binlogInfo.filter else false) =
      rd.binlogInfo.tran := by
    rw [hfilter]
    cases rd.binlogInfo.tran <;> rfl
  rw [rowsHandler, if_pos hfilter, hflag]

/-- A row event that is not filtered puts its message in the ring. -/
theorem rowsBody_spec {mev : UInt8} (hmev : mev ≠ 0) (hs : rowsBody mev rd body = some (code, r)) :
    code = .ok ∧ ∃ db tb ct cm, cstr rd.binlogInfo.db = some db ∧ cstr rd.binlogInfo.tb = some tb ∧
      slice rd.binlogInfo.ct 0 rd.binlogInfo.cn.toNat = some ct ∧
      slice rd.binlogInfo.cm 0 rd.binlogInfo.ml.toNat = some cm ∧
      r = { rd with
        ring := rd.ring ++ [⟨rd.dumpFile, rd.dumpPos, mev, db, tb, ct, cm, body⟩]
        binlogInfo := { rd.binlogInfo with
          logFormat := .rowBased, flush := false, mev := 0, sent := true } } := by
  rw [rowsBody, rsBinlogCreateData, if_neg (fun hc => hmev hc.1)] at hs
  simp only [createMessage, if_neg hmev, Option.bind_eq_bind, Option.bind_eq_some_iff] at hs
  obtain ⟨m, ⟨db, hdb, tb, htb, ct, hct, cm, hcm, hm⟩, hs⟩ := hs
  obtain ⟨rfl, rfl⟩ := Prod.mk.inj (Option.some.inj hs)
  obtain rfl := Option.some.inj hm
  exact ⟨rfl, db, tb, ct, cm, hdb, htb, hct, hcm, rfl⟩

inductive Effect (rd : RsReqdumpData) (body : List UInt8) : Handler → RsReqdumpData → Prop where
  | skip : Effect rd body .skip rd.setSkip
  | longQuery (hlong : rsSqlMaxLen * 2 < rd.binlogInfo.dl.toNat) : Effect rd body .query rd.setSkip
  | foreignStop (hid : rd.serverId ≠ rd.binlogInfo.svrid) : Effect rd body .stop rd.setSkip
  | query {q : QueryData} {db sql : List UInt8}
      (hshort : ¬ rsSqlMaxLen * 2 < rd.binlogInfo.dl.toNat)
      (hq : parseQuery rd.binlogInfo.el body = some q)
      (hdb : copyInto rd.binlogInfo.db q.db = some db)
      (hsql : copyInto rd.binlogInfo.sql (q.text ++ [0]) = some sql) :
      Effect rd body .query { rd with binlogInfo := { rd.binlogInfo with
        dbl := UInt32.ofNat q.dbl, sbl := UInt32.ofNat q.sbl, db := db,
        sl := UInt32.ofNat q.text.length, sql := sql, logFormat := .sqlStatement,
        tran := tranAfter sql rd.binlogInfo.tran } }
  | intvar {t : UInt8} (ht : body[0]? = some t) (hother : t ≠ 2) :
      Effect rd body .intvar { rd with binlogInfo := { rd.binlogInfo with intvarT := t } }
  | insertId {ai : List UInt8} (ht : body[0]? = some 2) (hai : slice body 1 8 = some ai) :
      Effect rd body .intvar { rd with binlogInfo := { rd.binlogInfo with
        intvarT := 2, ai := UInt64.ofNat (leNat ai), autoIncr := true } }
  | xid {id : List UInt8} (hid : copyInto (leBytes 8 rd.binlogInfo.tranid.toNat) body = some id) :
      Effect rd body .xid { rd with binlogInfo := { rd.binlogInfo with
        tran := false, tranid := UInt64.ofNat (leNat id) } }
  | tableMap {d : TableMapData} {db tb ct cm dbName tbName : List UInt8} {filter : Bool}
      (hd : parseTableMap body = some d)
      (hdb : copyInto rd.binlogInfo.db d.db = some db) (htb : copyInto rd.binlogInfo.tb d.tb = some tb)
      (hct : copyInto rd.binlogInfo.ct d.ct = some ct) (hcm : copyInto rd.binlogInfo.cm d.cm = some cm)
      (hdbName : cstr db = some dbName) (htbName : cstr tb = some tbName)
      (hfilter : filterDecision rd.filterTables (filterKey dbName tbName) = some filter) :
      Effect rd body .tableMap { rd with binlogInfo := { rd.binlogInfo with
        dbl := UInt32.ofNat d.db.length, db := db, tbl := UInt32.ofNat d.tb.length, tb := tb,
        cn := d.cn, ct := ct, ml := d.ml, cm := cm, filter := filter } }
  | filtered {mev : UInt8} (hfilter : rd.binlogInfo.filter = true) :
      Effect rd body (.rows mev) { rd with binlogInfo := { rd.binlogInfo with
        filter := rd.binlogInfo.tran, skip := true } }
  | forwarded {mev : UInt8} {db tb ct cm : List UInt8} (hfilter : rd.binlogInfo.filter = false)
      (hdb : cstr rd.binlogInfo.db = some db) (htb : cstr rd.binlogInfo.tb = some tb)
      (hct : slice rd.binlogInfo.ct 0 rd.binlogInfo.cn.toNat = some ct)
      (hcm : slice rd.binlogInfo.cm 0 rd.binlogInfo.ml.toNat = some cm) :
      Effect rd body (.rows mev) { rd with
        ring := rd.ring ++ [⟨rd.dumpFile, rd.dumpPos, mev, db, tb, ct, cm, body⟩]
        binlogInfo := { rd.binlogInfo with
          logFormat := .rowBased, flush := false, mev := 0, sent := true } }

theorem rsBinlogFuncs_rows {idx : ℕ} {mev : UInt8} (h : rsBinlogFuncs idx = some (.rows mev)) :
    IsRowsEvent mev := by
  unfold rsBinlogFuncs at h
  split_ifs at h
  split at h <;> simp only [Option.some.injEq, reduceCtorEq, rsBinlogWriteRowsHandler,
    rsBinlogUpdateRowsHandler, rsBinlogDeleteRowsHandler, Handler.rows.injEq] at h
  · exact Or.inl h.symm
  · exact Or.inr (Or.inl h.symm)
  · exact Or.inr (Or.inr h.symm)

/-- What a handler does up to its read: it passes the event over, reads the data part, or waits. -/
inductive Started (rd : RsReqdumpData) : Handler → Start → Prop
  | passes (h : Handler) (filter : Bool) :
    Started rd h (.ret .ok { rd with binlogInfo := { rd.binlogInfo with filter := filter, skip := true } })
  | reads (h : Handler) (tran : Bool) :
    Started rd h (.read { rd with binlogInfo := { rd.binlogInfo with tran := tran } })
  | waits (hid : rd.serverId = rd.binlogInfo.svrid) : Started rd .stop (.wait rd)

theorem handlerStart_started (h : Handler) (rd : RsReqdumpData) : Started rd h (handlerStart h rd) := by
  cases h with
  | skip => exact .passes _ rd.binlogInfo.filter
  | query =>
    rw [handlerStart, rsBinlogQueryHandler]
    split_ifs
    · exact .passes _ rd.binlogInfo.filter
    · exact .reads _ rd.binlogInfo.tran
  | stop =>
    rw [handlerStart, rsBinlogStopHandler]
    split_ifs with hid
    · exact .passes _ rd.binlogInfo.filter
    · exact .waits (not_not.mp hid)
  | intvar => exact .reads _ rd.binlogInfo.tran
  | xid => exact .reads _ false
  | tableMap => exact .reads _ rd.binlogInfo.tran
  | rows mev =>
    rw [handlerStart, rowsHandler]
    by_cases hfilter : rd.binlogInfo.filter = true
    · rw [if_pos hfilter]
      exact .passes ..
    · rw [if_neg hfilter]
      exact .reads _ rd.binlogInfo.tran

/-- A handler waits for the next file or returns with `RS_OK`. -/
theorem handler_effect (hrows : ∀ mev, h = .rows mev → mev ≠ 0) :
    (h = .stop ∧ rd.serverId = rd.binlogInfo.svrid ∧ handlerStart h rd = .wait rd) ∨
    (∃ r, handlerStart h rd = .ret .ok r ∧ Effect rd body h r) ∨
    ∃ r, handlerStart h rd = .read r ∧ ∀ code u, handlerBody h r body = some (code, u) →
      code = .ok ∧ Effect rd body h u := by
  cases h with
  | skip => exact Or.inr (Or.inl ⟨_, rfl, .skip⟩)
  | query =>
    by_cases hlong : rsSqlMaxLen * 2 < rd.binlogInfo.dl.toNat
    · exact Or.inr (Or.inl ⟨_, if_pos hlong, .longQuery hlong⟩)
    · refine Or.inr (Or.inr ⟨rd, if_neg hlong, fun code u hu => ?_⟩)
      obtain ⟨rfl, q, db, sql, hq, hdb, hsql, rfl⟩ := rsBinlogQueryBody_spec hu
      exact ⟨rfl, .query hlong hq hdb hsql⟩
  | stop =>
    by_cases hid : rd.serverId ≠ rd.binlogInfo.svrid
    · exact Or.inr (Or.inl ⟨_, if_pos hid, .foreignStop hid⟩)
    · exact Or.inl ⟨rfl, not_not.mp hid, if_neg hid⟩
  | intvar =>
    refine Or.inr (Or.inr ⟨rd, rfl, fun code u hu => ?_⟩)
    obtain ⟨rfl, ⟨t, ht, hother, rfl⟩ | ⟨ai, ht, hai, rfl⟩⟩ := rsBinlogIntvarBody_spec hu
    · exact ⟨rfl, .intvar ht hother⟩
    · exact ⟨rfl, .insertId ht hai⟩
  | xid =>
    refine Or.inr (Or.inr ⟨_, rfl, fun code u hu => ?_⟩)
    obtain ⟨rfl, id, hid, rfl⟩ := rsBinlogXidBody_spec hu
    exact ⟨rfl, .xid hid⟩
  | tableMap =>
    refine Or.inr (Or.inr ⟨rd, rfl, fun code u hu => ?_⟩)
    obtain ⟨rfl, d, db, tb, ct, cm, dbName, tbName, filter, hd, hdb, htb, hct, hcm, hdbn, htbn, hf, rfl⟩ :=
      rsBinlogTableMapBody_spec hu
    exact ⟨rfl, .tableMap hd hdb htb hct hcm hdbn htbn hf⟩
  | rows mev =>
    by_cases hfilter : rd.binlogInfo.filter = true
    · exact Or.inr (Or.inl ⟨_, rowsHandler_filtered hfilter, .filtered hfilter⟩)
    · refine Or.inr (Or.inr ⟨rd, if_neg hfilter, fun code u hu => ?_⟩)
      obtain ⟨rfl, db, tb, ct, cm, hdb, htb, hct, hcm, rfl⟩ := rowsBody_spec (hrows mev rfl) hu
      exact ⟨rfl, .forwarded (Bool.eq_false_of_not_eq_true hfilter) hdb htb hct hcm⟩

theorem Effect.clear (hidle : rd.Idle) (he : Effect rd body h r) :
    r.binlogInfo.mev = 0 ∧ r.binlogInfo.flush = false := by
  cases he with
  | forwarded => exact ⟨rfl, rfl⟩
  | _ => exact ⟨hidle.mev, hidle.flush⟩

/-- What one turn of the loop can do with a known event. -/
theorem runHandler_effect (hidle : rd.Idle) (hrows : ∀ mev, h = .rows mev → mev ≠ 0) {t : Turn}
    (ht : runHandler h rd body = some t) :
    (h = .stop ∧ rd.serverId = rd.binlogInfo.svrid ∧ t = .wait rd) ∨
      ∃ r n pos, Effect rd body h r ∧ t = .top (r.finished n pos) ∧ Publishes r pos := by
  have hfinish (r : RsReqdumpData) (he : Effect rd body h r) (hr : finishTurn (.ok, r) = some t) :
      ∃ r n pos, Effect rd body h r ∧ t = .top (r.finished n pos) ∧ Publishes r pos := by
    obtain ⟨hmev, hflush⟩ := he.clear hidle
    obtain ⟨n, pos, hrun, hpos⟩ := rsBinlogFinishHandler_eq hmev hflush
    rw [finishTurn, if_pos rfl, hrun] at hr
    exact ⟨r, n, pos, he, (Option.some.inj hr).symm, hpos⟩
  unfold runHandler at ht
  rcases @handler_effect rd h body hrows with
    ⟨hstop, hid, hwait⟩ | ⟨r, hret, he⟩ | ⟨r, hread, hbody⟩
  · rw [hwait] at ht
    exact Or.inl ⟨hstop, hid, (Option.some.inj ht).symm⟩
  · rw [hret] at ht
    exact Or.inr (hfinish r he ht)
  · rw [hread] at ht
    obtain ⟨⟨code, u⟩, hu, ht⟩ := Option.bind_eq_some_iff.mp ht
    obtain ⟨rfl, he⟩ := hbody code u hu
    exact Or.inr (hfinish u he ht)

/-- The turn does take place in every state that a handler can reach. -/
theorem Effect.runs (hidle : rd.Idle) (hrows : ∀ mev, h = .rows mev → mev ≠ 0)
    (he : Effect rd body h r) : ∃ n pos, runHandler h rd body = some (.top (r.finished n pos)) := by
  obtain ⟨hmev, hflush⟩ := he.clear hidle
  obtain ⟨n, pos, hfinish, -⟩ := rsBinlogFinishHandler_eq hmev hflush
  have hturn : finishTurn (.ok, r) = some (.top (r.finished n pos)) := by
    rw [finishTurn, if_pos rfl, hfinish]
    rfl
  refine ⟨n, pos, ?_⟩
  unfold runHandler
  cases he with
  | skip => exact hturn
  | longQuery hlong => simpa [handlerStart, rsBinlogQueryHandler, hlong] using hturn
  | foreignStop hid => simpa [handlerStart, rsBinlogStopHandler, hid] using hturn
  | query hshort hq hdb hsql =>
    simpa [handlerStart, rsBinlogQueryHandler, hshort, handlerBody, rsBinlogQueryBody, hq, hdb, hsql]
      using hturn
  | intvar ht hother =>
    simpa [handlerStart, rsBinlogIntvarHandler, handlerBody, rsBinlogIntvarBody, ht, hother] using hturn
  | insertId ht hai =>
    simpa [handlerStart, rsBinlogIntvarHandler, handlerBody, rsBinlogIntvarBody, ht, hai] using hturn
  | xid hid => simpa [handlerStart, rsBinlogXidHandler, handlerBody, rsBinlogXidBody, hid] using hturn
  | tableMap hd hdb htb hct hcm hdbName htbName hfilter =>
    simpa [handlerStart, rsBinlogTableMapHandler, handlerBody, rsBinlogTableMapBody, hd, hdb, htb, hct,
      hcm, hdbName, htbName, hfilter] using hturn
  | filtered hfilter =>
    simpa only [handlerStart, rowsHandler_filtered hfilter] using hturn
  | @forwarded mev db tb ct cm hfilter hdb htb hct hcm =>
    have hmev := hrows mev rfl
    simpa [handlerStart, rowsHandler, hfilter, handlerBody, rowsBody, rsBinlogCreateData, createMessage,
      hmev, hdb, htb, hct, hcm] using hturn

end MySQLSyncer.Master
