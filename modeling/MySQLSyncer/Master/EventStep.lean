import MySQLSyncer.Master.Session

/-! # What a session does with an event -/
namespace MySQLSyncer.Master
open Lib MySQLSyncer.Core

def rsTableMapEvent : UInt8 := 19

theorem eventIdx_eq {t u : UInt8} (hu : u.toNat < 128) : eventIdx t = u.toNat ↔ t = u := by
  rw [← UInt8.toNat_inj, eventIdx]
  have ht := t.toNat_lt
  split_ifs
  · rfl
  · omega

theorem rsBinlogFuncs_rows_iff {idx : ℕ} {mev : UInt8} :
    rsBinlogFuncs idx = some (.rows mev) ↔ IsRowsEvent mev ∧ idx = mev.toNat := by
  constructor
  · intro h
    refine ⟨rsBinlogFuncs_rows h, ?_⟩
    unfold rsBinlogFuncs at h
    split_ifs at h
    split at h <;> simp only [Option.some.injEq, reduceCtorEq, rsBinlogWriteRowsHandler,
      rsBinlogUpdateRowsHandler, rsBinlogDeleteRowsHandler, Handler.rows.injEq] at h
    all_goals exact h ▸ rfl
  · rintro ⟨rfl | rfl | rfl, rfl⟩ <;> rfl

theorem rsBinlogFuncs_tableMap_iff {idx : ℕ} :
    rsBinlogFuncs idx = some .tableMap ↔ idx = rsTableMapEvent.toNat := by
  constructor
  · intro h
    unfold rsBinlogFuncs at h
    split_ifs at h
    split at h <;> simp only [Option.some.injEq, reduceCtorEq, rsBinlogWriteRowsHandler,
      rsBinlogUpdateRowsHandler, rsBinlogDeleteRowsHandler] at h
    rfl
  · rintro rfl
    rfl

namespace Event
variable {e : Event} {mev : UInt8}

theorem handler_rows : e.handler = some (.rows mev) ↔ IsRowsEvent e.t ∧ mev = e.t := by
  rw [handler, rsBinlogFuncs_rows_iff]
  constructor
  · rintro ⟨hrows, hidx⟩
    have hlt : mev.toNat < 128 := by rcases hrows with rfl | rfl | rfl <;> decide
    obtain rfl := (eventIdx_eq hlt).mp hidx
    exact ⟨hrows, rfl⟩
  · rintro ⟨hrows, rfl⟩
    have hlt : e.t.toNat < 128 := by rcases hrows with h | h | h <;> rw [h] <;> decide
    exact ⟨hrows, (eventIdx_eq hlt).mpr rfl⟩

theorem handler_tableMap : e.handler = some .tableMap ↔ e.t = rsTableMapEvent := by
  rw [handler, rsBinlogFuncs_tableMap_iff, eventIdx_eq (by decide)]

def tranText (text : List UInt8) : Option Bool :=
  if text.take rsTranKeyword.length = rsTranKeyword then some true
  else if text.take rsTranEndKeyword.length = rsTranEndKeyword then some false
  else none

def query (e : Event) : Option QueryData :=
  if rsSqlMaxLen * 2 < e.body.length then none else parseQuery e.el e.body

def tran (e : Event) : Option Bool := e.query.bind fun q => tranText q.text

end Event

def Handler.sym (listed : Bool) (tran : Option Bool) : Handler → Sym
  | .tableMap => .tableMap listed
  | .rows _ => .rows
  | .xid => .tran false
  | .query => (tran.map Sym.tran).getD .other
  | _ => .other

namespace Handler
variable {h : Handler} {listed : Bool} {tran : Option Bool}

theorem sym_rows (hs : h.sym listed tran = .rows) : ∃ mev, h = .rows mev := by
  cases h with
  | rows mev => exact ⟨mev, rfl⟩
  | query => cases tran <;> cases hs
  | _ => cases hs

theorem sym_tableMap {l : Bool} (hs : h.sym listed tran = .tableMap l) : h = .tableMap := by
  cases h with
  | tableMap => rfl
  | query => cases tran <;> cases hs
  | _ => cases hs

theorem sym_eq (hne : h ≠ .tableMap) (b c : Bool) : h.sym b tran = h.sym c tran := by
  cases h with
  | tableMap => exact absurd rfl hne
  | _ => rfl

end Handler

/-- What an event is to the filter; whether a table is listed is told by its handler. -/
def Event.sym (listed : Bool) (e : Event) : Sym := (e.handler.map (Handler.sym listed e.tran)).getD .other

namespace Event
variable {e : Event} {b : Bool}

theorem sym_rows_iff : e.sym b = .rows ↔ IsRowsEvent e.t := by
  constructor
  · intro hs
    cases hh : e.handler with
    | none => rw [sym, hh] at hs; cases hs
    | some h =>
      rw [sym, hh] at hs
      obtain ⟨mev, rfl⟩ := Handler.sym_rows hs
      exact (handler_rows.mp hh).1
  · intro h
    rw [sym, handler_rows.mpr ⟨h, rfl⟩]
    rfl

theorem sym_tableMap {l : Bool} (hs : e.sym b = .tableMap l) : e.handler = some .tableMap := by
  cases hh : e.handler with
  | none => rw [sym, hh] at hs; cases hs
  | some h =>
    rw [sym, hh] at hs
    rw [Handler.sym_tableMap hs]

theorem sym_eq (ht : e.t ≠ rsTableMapEvent) (b c : Bool) : e.sym b = e.sym c := by
  cases hh : e.handler with
  | none => rw [sym, sym, hh]; rfl
  | some h =>
    rw [sym, sym, hh]
    exact Handler.sym_eq (fun hc => ht (handler_tableMap.mp (hc ▸ hh))) b c

theorem listedStep_sym (ht : e.t ≠ rsTableMapEvent) (listed : Bool) :
    listedStep listed (e.sym b) = listed := by
  cases hs : e.sym b with
  | tableMap l => exact absurd (handler_tableMap.mp (sym_tableMap hs)) ht
  | _ => rfl

theorem tranAfter_eq (text w : List UInt8) (tran : Bool) :
    tranAfter (text ++ 0 :: w) tran = (tranText text).getD tran := by
  simp only [tranAfter, tranText, take_terminated (by decide : 0 ∉ rsTranKeyword),
    take_terminated (by decide : 0 ∉ rsTranEndKeyword)]
  split_ifs <;> rfl

end Event

inductive EventStep (rd : RsReqdumpData) (e : Event) : Session → Prop where
  | unknown (hh : e.handler = none) : EventStep rd e ⟨rsBinlogHeaderHandler rd e.head, false⟩
  | stopped (hh : e.handler = some .stop)
      (hid : rd.serverId = (rsBinlogHeaderHandler rd e.head).binlogInfo.svrid) :
      EventStep rd e ⟨rsBinlogHeaderHandler rd e.head, true⟩
  | handled {h : Handler} {r : RsReqdumpData} {n : UInt32} {pos : List Message}
      (hh : e.handler = some h) (he : Effect (rsBinlogHeaderHandler rd e.head) e.body h r)
      (hpos : Publishes r pos) : EventStep rd e ⟨r.finished n pos, false⟩

variable {rd r : RsReqdumpData} {e : Event} {h : Handler} {s s' : Session} {body : List UInt8}

theorem RsReqdumpData.Idle.header (hidle : rd.Idle) (eh : List UInt8) :
    (rsBinlogHeaderHandler rd eh).Idle := ⟨hidle.mev, hidle.sent, hidle.skip, hidle.flush⟩

theorem header_dumpPos (rd : RsReqdumpData) (e : Event) :
    (rsBinlogHeaderHandler rd e.head).dumpPos = rd.dumpPos + e.el := by
  rw [rsBinlogHeaderHandler, e.el_eq]
  rfl

theorem header_dl (rd : RsReqdumpData) (e : Event) :
    (rsBinlogHeaderHandler rd e.head).binlogInfo.dl.toNat = e.body.length := by
  rw [← e.dl_toNat, rsBinlogHeaderHandler, e.el_eq]
  rfl

theorem header_el (rd : RsReqdumpData) (e : Event) :
    (rsBinlogHeaderHandler rd e.head).binlogInfo.el = e.el := by
  rw [rsBinlogHeaderHandler, e.el_eq]
  rfl

theorem sessionStep_event (hidle : s.rd.Idle) (hs : sessionStep s (.event e) = some s') :
    s.waiting = false ∧ EventStep s.rd e s' := by
  obtain ⟨rd, waiting⟩ := s
  cases waiting with
  | true => exact absurd hs (by simp [sessionStep])
  | false =>
    refine ⟨rfl, ?_⟩
    obtain ⟨t, ht, hs⟩ := Option.bind_eq_some_iff.mp
      (show (turn rd e).bind Turn.session = some s' from hs)
    unfold turn at ht
    cases hh : e.handler with
    | none =>
      rw [hh] at ht
      obtain rfl := Option.some.inj ht
      obtain rfl := Option.some.inj hs
      exact .unknown hh
    | some h =>
      rw [hh] at ht
      have hrows (mev : UInt8) (hm : h = .rows mev) : mev ≠ 0 :=
        IsRowsEvent.ne_zero (rsBinlogFuncs_rows (hm ▸ hh))
      rcases runHandler_effect (hidle.header e.head) hrows ht with
        ⟨rfl, hid, rfl⟩ | ⟨r, n, pos, he, rfl, hpos⟩
      · obtain rfl := Option.some.inj hs
        exact .stopped hh hid
      · obtain rfl := Option.some.inj hs
        exact .handled hh he hpos

theorem Effect.kept (he : Effect rd body h r) :
    r.dumpPos = rd.dumpPos ∧ r.dumpFile = rd.dumpFile ∧ r.dumpNum = rd.dumpNum ∧
      r.filterTables = rd.filterTables ∧ r.serverId = rd.serverId := by
  cases he <;> exact ⟨rfl, rfl, rfl, rfl, rfl⟩

namespace EventStep

theorem idle (hidle : rd.Idle) (h : EventStep rd e s') : s'.rd.Idle := by
  cases h with
  | unknown hh => exact hidle.header e.head
  | stopped hh hid => exact hidle.header e.head
  | handled hh he hpos => exact ⟨rfl, rfl, rfl, rfl⟩

theorem dumpPos (h : EventStep rd e s') : s'.rd.dumpPos = rd.dumpPos + e.el := by
  cases h with
  | unknown hh => exact header_dumpPos rd e
  | stopped hh hid => exact header_dumpPos rd e
  | handled hh he hpos => exact he.kept.1.trans (header_dumpPos rd e)

theorem kept (h : EventStep rd e s') :
    s'.rd.dumpFile = rd.dumpFile ∧ s'.rd.dumpNum = rd.dumpNum ∧
      s'.rd.filterTables = rd.filterTables ∧ s'.rd.serverId = rd.serverId := by
  cases h with
  | unknown hh => exact ⟨rfl, rfl, rfl, rfl⟩
  | stopped hh hid => exact ⟨rfl, rfl, rfl, rfl⟩
  | handled hh he hpos => exact he.kept.2

theorem flags (h : EventStep rd e s') :
    s'.rd.flags = rd.flags.step (e.sym (!s'.rd.binlogInfo.filter)) := by
  cases h with
  | unknown hh =>
    rw [Event.sym, hh]
    rfl
  | stopped hh hid =>
    rw [Event.sym, hh]
    rfl
  | handled hh he hpos =>
    rw [Event.sym, hh]
    cases he with
    | skip => rfl
    | longQuery hlong =>
      rw [header_dl] at hlong
      simp only [Event.tran, Event.query, if_pos hlong]
      rfl
    | foreignStop => rfl
    | query hshort hq hdb hsql =>
      rw [header_dl] at hshort
      rw [header_el] at hq
      obtain ⟨-, rfl⟩ := copyInto_eq_some.mp hsql
      simp only [Event.tran, Event.query, if_neg hshort, hq, Option.bind_some]
      simp only [RsReqdumpData.flags, RsReqdumpData.finished, List.append_assoc, List.singleton_append,
        Event.tranAfter_eq]
      cases Event.tranText _ <;> rfl
    | intvar => rfl
    | insertId => rfl
    | xid => rfl
    | tableMap hd hdb htb hct hcm hdbName htbName hfilter =>
      exact congrArg (Flags.mk · rd.binlogInfo.tran) (Bool.not_not _).symm
    | filtered hfilter => exact (if_pos hfilter).symm
    | forwarded hfilter hdb htb hct hcm => exact (if_neg (Bool.eq_false_iff.mp hfilter)).symm

end EventStep

def RsReqdumpData.rowMessage (rd : RsReqdumpData) (e : Event) : Option Message := do
  let db ← cstr rd.binlogInfo.db
  let tb ← cstr rd.binlogInfo.tb
  let ct ← slice rd.binlogInfo.ct 0 rd.binlogInfo.cn.toNat
  let cm ← slice rd.binlogInfo.cm 0 rd.binlogInfo.ml.toNat
  some ⟨rd.dumpFile, rd.dumpPos + e.el, e.t, db, tb, ct, cm, e.body⟩

def newRows (s s' : Session) : List Message := rowsOf (s'.rd.ring.drop s.rd.ring.length)

theorem rowsOf_append (l₁ l₂ : List Message) : rowsOf (l₁ ++ l₂) = rowsOf l₁ ++ rowsOf l₂ :=
  List.filter_append ..

/-- A handler puts at most the message of its own row event in the ring. -/
theorem Effect.ring (hm : ∀ mev, h = .rows mev → mev = e.t)
    (he : Effect (rsBinlogHeaderHandler rd e.head) e.body h r) :
    (∃ m mev, h = .rows mev ∧ rd.binlogInfo.filter = false ∧ rd.rowMessage e = some m ∧
      r.ring = rd.ring ++ [m] ∧ r.binlogInfo.sent = true) ∨
    ((∀ mev, h = .rows mev → rd.binlogInfo.filter = true) ∧ r.ring = rd.ring) := by
  cases he with
  | @forwarded mev db tb ct cm hfilter hdb htb hct hcm =>
    obtain rfl := hm mev rfl
    have hmsg : rd.rowMessage e = some ⟨rd.dumpFile, rd.dumpPos + e.el, e.t, db, tb, ct, cm, e.body⟩ := by
      simp only [rsBinlogHeaderHandler] at hdb htb hct hcm
      simp [RsReqdumpData.rowMessage, hdb, htb, hct, hcm]
    refine Or.inl ⟨_, e.t, rfl, hfilter, hmsg, ?_, rfl⟩
    simp only [header_dumpPos]
    rfl
  | filtered hfilter => exact Or.inr ⟨fun _ _ => hfilter, rfl⟩
  | _ => exact Or.inr ⟨nofun, rfl⟩

/-- A row event that meets an open filter is forwarded. Any other message is about the
position, and leaves the filter open too. -/
theorem EventStep.ring (h : EventStep rd e s') :
    (∃ m, IsRowsEvent e.t ∧ rd.binlogInfo.filter = false ∧ rd.rowMessage e = some m ∧
      s'.rd.ring = rd.ring ++ [m]) ∨
    ((IsRowsEvent e.t → rd.binlogInfo.filter = true) ∧ (s'.rd.ring = rd.ring ∨
      s'.rd.ring = rd.ring ++ [positionMessage s'.rd] ∧ s'.rd.binlogInfo.filter = false)) := by
  have hnone {g : Option Handler} (hh : e.handler = g) (hg : ∀ mev, g ≠ some (.rows mev)) :
      IsRowsEvent e.t → rd.binlogInfo.filter = true := fun hrows =>
    absurd (hh.symm.trans (Event.handler_rows.mpr ⟨hrows, rfl⟩)) (hg e.t)
  cases h with
  | unknown hh => exact Or.inr ⟨hnone hh (fun _ => nofun), Or.inl rfl⟩
  | stopped hh hid => exact Or.inr ⟨hnone hh (fun _ => nofun), Or.inl rfl⟩
  | @handled h r n pos hh he hpos =>
    have hm (mev : UInt8) (hmev : h = .rows mev) : mev = e.t :=
      (Event.handler_rows.mp (hmev ▸ hh)).2
    rcases he.ring hm with ⟨m, mev, rfl, hfilter, hmsg, hring, hs⟩ | ⟨hfilter, hring⟩
    · obtain rfl : pos = [] := hpos.resolve_right fun hp => by simp [hs] at hp
      refine Or.inl ⟨m, (Event.handler_rows.mp hh).1, hfilter, hmsg, ?_⟩
      rw [RsReqdumpData.finished, hring, List.append_nil]
    · refine Or.inr ⟨fun hrows => hfilter e.t ?_, ?_⟩
      · exact Option.some.inj (hh.symm.trans (Event.handler_rows.mpr ⟨hrows, rfl⟩))
      · rcases hpos with rfl | ⟨rfl, -, hopen⟩
        · exact Or.inl ((List.append_nil _).trans hring)
        · exact Or.inr ⟨congrArg (· ++ [positionMessage r]) hring, hopen⟩

theorem newRows_of_ring {ms : List Message} (h : s'.rd.ring = s.rd.ring ++ ms) :
    newRows s s' = rowsOf ms := by
  rw [newRows, h, List.drop_left]

theorem RsReqdumpData.rowMessage_spec {m : Message} (h : rd.rowMessage e = some m) :
    m.dumpFile = rd.dumpFile ∧ m.dumpPos = rd.dumpPos + e.el ∧ m.mev = e.t := by
  obtain ⟨db, -, tb, -, ct, -, cm, -, rfl⟩ := by
    simpa [RsReqdumpData.rowMessage, Option.bind_eq_some_iff] using h
  exact ⟨rfl, rfl, rfl⟩

/-- A row event is forwarded exactly when the filter is open. -/
theorem EventStep.newRows_eq (h : EventStep s.rd e s') :
    newRows s s' = if IsRowsEvent e.t ∧ s.rd.binlogInfo.filter = false then
      (s.rd.rowMessage e).toList else [] := by
  rcases h.ring with ⟨m, hrows, hfilter, hmsg, hring⟩ | ⟨hfilter, hring⟩
  · rw [if_pos ⟨hrows, hfilter⟩, hmsg, newRows_of_ring hring]
    simp [rowsOf, (RsReqdumpData.rowMessage_spec hmsg).2.2, hrows.ne_zero]
  · rw [if_neg fun hc => absurd (hfilter hc.1) (by rw [hc.2]; decide)]
    rcases hring with hring | ⟨hring, -⟩
    · rw [newRows, hring, List.drop_length]
      rfl
    · rw [newRows_of_ring hring]
      rfl

theorem sampleFile_short : ([98] : List UInt8).length ≤ pathMax := by decide

theorem sampleFile_noNul : (0 : UInt8) ∉ [98] := by decide

def sampleFile : DumpFile := ⟨[98], sampleFile_short, sampleFile_noNul⟩

def sampleTables : List UInt8 := [44, 100, 46, 97, 44]

/-- A table map of the table with the one-letter name `c` in the database `d`, with one
column; the table id is `c` too. -/
def sampleTableMap (c : UInt8) : Event :=
  ⟨[0, 0, 0, 0, 19, 1, 0, 0, 0, 36, 0, 0, 0, 0, 0, 0, 0, 0, 0],
    [c, 0, 0, 0, 0, 0, 1, 0, 1, 100, 0, 1, c, 0, 1, 3, 0], rfl, rfl⟩

def sampleBegin : Event :=
  ⟨[0, 0, 0, 0, 2, 1, 0, 0, 0, 39, 0, 0, 0, 0, 0, 0, 0, 0, 0],
    [0, 0, 0, 0, 0, 0, 0, 0, 1, 0, 0, 0, 0, 100, 0, 66, 69, 71, 73, 78], rfl, rfl⟩

def sampleRows (c : UInt8) : Event :=
  ⟨[0, 0, 0, 0, 23, 1, 0, 0, 0, 28, 0, 0, 0, 0, 0, 0, 0, 0, 0], [c, 0, 0, 0, 0, 0, 1, 0, 1], rfl, rfl⟩

end MySQLSyncer.Master
