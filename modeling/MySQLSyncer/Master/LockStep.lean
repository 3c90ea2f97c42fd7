import MySQLSyncer.Master.Binlog

/-! # Two sessions in lock-step

A session that goes on and a fresh one that starts at the same place may disagree about the
filter, the transaction flag and, up to the next table map, the description of the table.
-/
namespace MySQLSyncer.Master
open Lib MySQLSyncer.Core

structure SameSizes (x y : RsBinlogInfo) : Prop where
  db : y.db.length = x.db.length
  tb : y.tb.length = x.tb.length
  ct : y.ct.length = x.ct.length
  cm : y.cm.length = x.cm.length
  sql : y.sql.length = x.sql.length

structure Alike (x y : RsReqdumpData) : Prop where
  dumpFile : y.dumpFile = x.dumpFile
  dumpPos : y.dumpPos = x.dumpPos
  tables : y.filterTables = x.filterTables
  serverId : y.serverId = x.serverId
  sizes : SameSizes x.binlogInfo y.binlogInfo

structure SameDescription (x y : RsBinlogInfo) : Prop where
  db : cstr y.db = cstr x.db
  tb : cstr y.tb = cstr x.tb
  ct : slice y.ct 0 y.cn.toNat = slice x.ct 0 x.cn.toNat
  cm : slice y.cm 0 y.ml.toNat = slice x.cm 0 x.ml.toNat

variable {x y r : RsReqdumpData} {e : Event} {h : Handler} {s t u v : Session} {i : Item}
  {items : List Item}

theorem copyInto_of_length {a b src out : List UInt8} (hlen : b.length = a.length)
    (ha : copyInto a src = some out) :
    ∃ out', copyInto b src = some out' ∧ out'.length = out.length := by
  obtain ⟨hle, rfl⟩ := copyInto_eq_some.mp ha
  exact ⟨_, copyInto_eq_some.mpr ⟨hlen ▸ hle, rfl⟩, by simp [hlen]⟩

theorem cstr_of_copies {a b src out out' : List UInt8} (hsrc : 0 ∈ src)
    (ha : copyInto a src = some out) (hb : copyInto b src = some out') : cstr out' = cstr out := by
  obtain ⟨-, rfl⟩ := copyInto_eq_some.mp ha
  obtain ⟨-, rfl⟩ := copyInto_eq_some.mp hb
  rw [cstr_append_of_mem hsrc, cstr_append_of_mem hsrc]

theorem Alike.header (ha : Alike x y) (eh : List UInt8) :
    Alike (rsBinlogHeaderHandler x eh) (rsBinlogHeaderHandler y eh) :=
  ⟨ha.dumpFile, congrArg (· + _) ha.dumpPos, ha.tables, ha.serverId, { ha.sizes with }⟩

theorem Alike.rowMessage (ha : Alike x y) (hd : SameDescription x.binlogInfo y.binlogInfo) :
    y.rowMessage e = x.rowMessage e := by
  rw [RsReqdumpData.rowMessage, hd.db, hd.tb, hd.ct, hd.cm, ha.dumpFile, ha.dumpPos,
    RsReqdumpData.rowMessage]

/-- Sessions stay alike when only their binlog informations and rings change. -/
theorem Alike.info {p q : RsBinlogInfo} {l k : List Message} (ha : Alike x y) (h : SameSizes p q) :
    Alike { x with binlogInfo := p, ring := l } { y with binlogInfo := q, ring := k } :=
  ⟨ha.dumpFile, ha.dumpPos, ha.tables, ha.serverId, h⟩

/-- A handler that returns in one session returns in the other, unless that one forwards a row
event which the first one skips. Behind a table map the descriptions agree. -/
theorem Effect.alike (ha : Alike x y) (hwf : e.WellFormed) (hh : e.handler = some h)
    (hrows : ∀ mev, h = .rows mev → y.binlogInfo.filter = x.binlogInfo.filter ∧
      (x.binlogInfo.filter = false → SameDescription x.binlogInfo y.binlogInfo))
    (he : Effect (rsBinlogHeaderHandler x e.head) e.body h r) :
    ∃ r', Effect (rsBinlogHeaderHandler y e.head) e.body h r' ∧ Alike r r' ∧
      (SameDescription x.binlogInfo y.binlogInfo ∨ h = .tableMap →
        SameDescription r.binlogInfo r'.binlogInfo) := by
  have hx := ha.header e.head
  cases he with
  | skip => exact ⟨_, .skip, hx.info { hx.sizes with }, fun hd => { hd.resolve_right nofun with }⟩
  | longQuery hlong =>
    exact ⟨_, .longQuery hlong, hx.info { hx.sizes with }, fun hd => { hd.resolve_right nofun with }⟩
  | foreignStop hid =>
    exact ⟨_, .foreignStop (by rw [hx.serverId]; exact hid), hx.info { hx.sizes with },
      fun hd => { hd.resolve_right nofun with }⟩
  | @query q db sql hshort hq hdb hsql =>
    obtain ⟨db', hdb', hdbl⟩ := copyInto_of_length hx.sizes.db hdb
    obtain ⟨sql', hsql', hsqll⟩ := copyInto_of_length hx.sizes.sql hsql
    have hterm : 0 ∈ q.db := by
      rw [header_dl] at hshort
      rw [header_el] at hq
      exact hwf.query hh q ((if_neg hshort).trans hq)
    exact ⟨_, .query hshort hq hdb' hsql', hx.info { hx.sizes with db := hdbl, sql := hsqll }, fun hd =>
      { hd.resolve_right nofun with db := cstr_of_copies hterm hdb hdb' }⟩
  | intvar ht hother =>
    exact ⟨_, .intvar ht hother, hx.info { hx.sizes with }, fun hd => { hd.resolve_right nofun with }⟩
  | insertId ht hai =>
    exact ⟨_, .insertId ht hai, hx.info { hx.sizes with }, fun hd => { hd.resolve_right nofun with }⟩
  | xid hid =>
    obtain ⟨id', hid', -⟩ := copyInto_of_length
      ((length_leBytes 8 y.binlogInfo.tranid.toNat).trans (length_leBytes 8 _).symm) hid
    exact ⟨_, .xid hid', hx.info { hx.sizes with }, fun hd => { hd.resolve_right nofun with }⟩
  | @tableMap d db tb ct cm dbName tbName filter hd hdb htb hct hcm hdbName htbName hfilter =>
    obtain ⟨db', hdb', hdbl⟩ := copyInto_of_length hx.sizes.db hdb
    obtain ⟨tb', htb', htbl⟩ := copyInto_of_length hx.sizes.tb htb
    obtain ⟨ct', hct', hctl⟩ := copyInto_of_length hx.sizes.ct hct
    obtain ⟨cm', hcm', hcml⟩ := copyInto_of_length hx.sizes.cm hcm
    obtain ⟨m, -, reserved, nullable, hres, hbody⟩ := hwf.tableMap (Event.handler_tableMap.mp hh)
    obtain ⟨hdname, htname, -⟩ := parseTableMap_layout hres (hbody ▸ hd)
    obtain ⟨hcn, hml⟩ := parseTableMap_length hd
    have hdbs := cstr_of_copies (by simp [hdname]) hdb hdb'
    have htbs := cstr_of_copies (by simp [htname]) htb htb'
    refine ⟨_, .tableMap hd hdb' htb' hct' hcm' (hdbs.trans hdbName) (htbs.trans htbName)
      (by rw [hx.tables]; exact hfilter),
      hx.info { hx.sizes with db := hdbl, tb := htbl, ct := hctl, cm := hcml }, fun _ => ⟨hdbs, htbs, ?_, ?_⟩⟩
    · exact (slice_copied hct' hcn.symm).trans (slice_copied hct hcn.symm).symm
    · exact (slice_copied hcm' hml.symm).trans (slice_copied hcm hml.symm).symm
  | @filtered mev hfilter =>
    have hy := (hrows mev rfl).1.trans hfilter
    exact ⟨_, .filtered hy, hx.info { hx.sizes with }, fun hd => { hd.resolve_right nofun with }⟩
  | @forwarded mev db tb ct cm hfilter hdb htb hct hcm =>
    obtain ⟨hsame, hdesc⟩ := hrows mev rfl
    have hd := hdesc hfilter
    exact ⟨_, .forwarded (hsame.trans hfilter) (hd.db.trans hdb) (hd.tb.trans htb) (hd.ct.trans hct)
      (hd.cm.trans hcm), hx.info { hx.sizes with }, fun _ => { hd with }⟩

def Item.IsTableMap : Item → Prop
  | .event e => e.handler = some .tableMap
  | .file _ _ => False

/-- Two sessions in lock-step stay so over an item, and their descriptions stay alike or become
so. -/
theorem sessionStep_alike (hs : s.rd.Idle) (hu : u.rd.Idle) (ha : Alike s.rd u.rd)
    (hw : u.waiting = s.waiting) (hwf : ∀ e, i = .event e → e.WellFormed)
    (hrows : i.sym s.rd.filterTables = .rows → u.rd.binlogInfo.filter = s.rd.binlogInfo.filter ∧
      (s.rd.binlogInfo.filter = false → SameDescription s.rd.binlogInfo u.rd.binlogInfo))
    (hstep : sessionStep s i = some t) :
    ∃ v, sessionStep u i = some v ∧ Alike t.rd v.rd ∧ v.waiting = t.waiting ∧
      (SameDescription s.rd.binlogInfo u.rd.binlogInfo ∨ i.IsTableMap →
        SameDescription t.rd.binlogInfo v.rd.binlogInfo) := by
  cases i with
  | file name num =>
    obtain rfl := Option.some.inj hstep
    exact ⟨_, rfl, ⟨rfl, rfl, ha.tables, ha.serverId, ha.sizes⟩, rfl,
      fun hd => { hd.resolve_right id with }⟩
  | event e =>
    obtain ⟨hnot, he⟩ := sessionStep_event hs hstep
    have hrun (v : Session) (hv : (turn u.rd e).bind Turn.session = some v) :
        sessionStep u (.event e) = some v := by
      rw [sessionStep, hw, hnot]
      exact hv
    have hx := ha.header e.head
    cases he with
    | unknown hh =>
      have hmap : ¬ (Item.event e).IsTableMap := by simp [Item.IsTableMap, hh]
      exact ⟨⟨rsBinlogHeaderHandler u.rd e.head, false⟩, hrun _ (by rw [turn, hh]; rfl), hx, rfl,
        fun hd => { hd.resolve_right hmap with }⟩
    | stopped hh hid =>
      have hmap : ¬ (Item.event e).IsTableMap := by simp [Item.IsTableMap, hh]
      have hid' : (rsBinlogHeaderHandler u.rd e.head).serverId =
          (rsBinlogHeaderHandler u.rd e.head).binlogInfo.svrid := hx.serverId.trans hid
      have hwait : turn u.rd e = some (.wait (rsBinlogHeaderHandler u.rd e.head)) := by
        rw [turn, hh]
        simp only [runHandler, handlerStart, rsBinlogStopHandler]
        rw [if_neg (not_not.mpr hid')]
      exact ⟨⟨rsBinlogHeaderHandler u.rd e.head, true⟩, hrun _ (by rw [hwait]; rfl), hx, rfl,
        fun hd => { hd.resolve_right hmap with }⟩
    | @handled h r n pos hh heff hpos =>
      have hrows' (mev : UInt8) (hmev : h = .rows mev) :=
        hrows (Event.sym_rows_iff.mpr (Event.handler_rows.mp (hmev ▸ hh)).1)
      obtain ⟨r', heff', ha', hd'⟩ := heff.alike ha (hwf e rfl) hh hrows'
      obtain ⟨n', pos', hturn⟩ := heff'.runs (hu.header e.head) fun mev hmev =>
        (rsBinlogFuncs_rows (hmev ▸ hh)).ne_zero
      refine ⟨⟨r'.finished n' pos', false⟩, hrun _ (by rw [turn, hh]; simp only [hturn]; rfl),
        ⟨ha'.dumpFile, ha'.dumpPos, ha'.tables, ha'.serverId, { ha'.sizes with }⟩, rfl, fun hd => ?_⟩
      exact { hd' (hd.imp_right fun hm => Option.some.inj (hh.symm.trans hm)) with }

/-- Both put the same row message in the ring, or neither puts any. -/
theorem newRows_alike (hs : s.rd.Idle) (hu : u.rd.Idle) (ha : Alike s.rd u.rd)
    (hrows : i.sym s.rd.filterTables = .rows → u.rd.binlogInfo.filter = s.rd.binlogInfo.filter ∧
      (s.rd.binlogInfo.filter = false → SameDescription s.rd.binlogInfo u.rd.binlogInfo))
    (hst : sessionStep s i = some t) (huv : sessionStep u i = some v) : newRows u v = newRows s t := by
  cases i with
  | file name num =>
    obtain rfl := Option.some.inj hst
    obtain rfl := Option.some.inj huv
    exact (congrArg rowsOf List.drop_length).trans (congrArg rowsOf List.drop_length).symm
  | event e =>
    obtain ⟨-, hse⟩ := sessionStep_event hs hst
    obtain ⟨-, hue⟩ := sessionStep_event hu huv
    rw [hue.newRows_eq, hse.newRows_eq]
    by_cases hr : IsRowsEvent e.t
    · obtain ⟨hfilter, hdesc⟩ := hrows (Event.sym_rows_iff.mpr hr)
      by_cases hopen : s.rd.binlogInfo.filter = false
      · rw [if_pos ⟨hr, hfilter.trans hopen⟩, if_pos ⟨hr, hopen⟩, ha.rowMessage (hdesc hopen)]
      · rw [if_neg (fun hc => hopen (hfilter.symm.trans hc.2)), if_neg (fun hc => hopen hc.2)]
    · rw [if_neg (fun hc => hr hc.1), if_neg (fun hc => hr hc.1)]

theorem newRows_trans {ms ns : List Message} (hst : t.rd.ring = s.rd.ring ++ ms)
    (htu : u.rd.ring = t.rd.ring ++ ns) : newRows s u = newRows s t ++ newRows t u := by
  rw [newRows_of_ring hst, newRows_of_ring htu, ← rowsOf_append]
  exact newRows_of_ring (by rw [htu, hst, List.append_assoc])

theorem ItemStep.grows (h : ItemStep s i t) : ∃ ms, t.rd.ring = s.rd.ring ++ ms := by
  rcases h.ring with ⟨h, -⟩ | ⟨m, h, -⟩
  · exact ⟨[], h.trans (List.append_nil _).symm⟩
  · exact ⟨[m], h⟩

/-- The descriptions stay alike, or there is still a table map to come before the next row
event. -/
theorem description_next {tables : Option (List UInt8)} {d d' : Prop} {as : List Sym}
    (hnext : d ∨ i.IsTableMap → d') (h : d ∨ NoRowsBeforeMap (i.sym tables :: as)) :
    d' ∨ NoRowsBeforeMap as := by
  rcases h with hd | hno
  · exact Or.inl (hnext (Or.inl hd))
  · cases ha : i.sym tables with
    | rows =>
      rw [ha] at hno
      exact absurd hno id
    | tableMap l =>
      cases i with
      | event e => exact Or.inl (hnext (Or.inr (Event.sym_tableMap ha)))
      | file name num => cases ha
    | tran b =>
      rw [ha] at hno
      exact Or.inr hno
    | other =>
      rw [ha] at hno
      exact Or.inr hno

/-- Two sessions that let the same row events through put the same row messages in the ring. -/
theorem rows_alike (hs : s.rd.Idle) (hu : u.rd.Idle) (ha : Alike s.rd u.rd) (hw : u.waiting = s.waiting)
    (hwf : ∀ e, .event e ∈ items → e.WellFormed)
    (hshort : ∀ p ∈ places s.rd.place items, p.2 < 2 ^ 32)
    (htrace : s.rd.flags.trace (items.map (Item.sym s.rd.filterTables)) =
      u.rd.flags.trace (items.map (Item.sym s.rd.filterTables)))
    (hdesc : SameDescription s.rd.binlogInfo u.rd.binlogInfo ∨
      NoRowsBeforeMap (items.map (Item.sym s.rd.filterTables)))
    (hrun : exec sessionStep s items = some t) :
    ∃ v, exec sessionStep u items = some v ∧ newRows u v = newRows s t ∧
      ∃ ms, v.rd.ring = u.rd.ring ++ ms := by
  induction items generalizing s u with
  | nil =>
    obtain rfl := Option.some.inj hrun
    exact ⟨u, rfl, (congrArg rowsOf List.drop_length).trans (congrArg rowsOf List.drop_length).symm,
      [], (List.append_nil _).symm⟩
  | cons i is ih =>
    obtain ⟨a, hsa, hat⟩ := Option.bind_eq_some_iff.mp hrun
    rw [List.map_cons] at htrace hdesc
    obtain ⟨hhead, htail⟩ := List.cons.inj htrace
    have hwfi (e : Event) (he : i = .event e) : e.WellFormed := hwf e (he ▸ List.mem_cons_self ..)
    have hplace : u.rd.place = s.rd.place := by
      rw [RsReqdumpData.place, ha.dumpFile, ha.dumpPos]
      rfl
    have hrows : i.sym s.rd.filterTables = .rows → u.rd.binlogInfo.filter = s.rd.binlogInfo.filter ∧
        (s.rd.binlogInfo.filter = false → SameDescription s.rd.binlogInfo u.rd.binlogInfo) := by
      intro hr
      refine ⟨?_, fun _ => hdesc.resolve_right fun hno => by rw [hr] at hno; exact hno⟩
      simpa [hr, RsReqdumpData.flags] using hhead.symm
    obtain ⟨b, hub, hab, hwab, hnext⟩ := sessionStep_alike hs hu ha hw hwfi hrows hsa
    have hsi := sessionStep_item hs hwfi (hshort _ (List.mem_cons_self ..)) hsa
    have hui := sessionStep_item hu hwfi (by rw [hplace]; exact hshort _ (List.mem_cons_self ..)) hub
    have hwfs (e : Event) (he : .event e ∈ is) : e.WellFormed := hwf e (List.mem_cons_of_mem _ he)
    have hshorts : ∀ p ∈ places a.rd.place is, p.2 < 2 ^ 32 := by
      rw [hsi.place]
      exact fun p hp => hshort p (List.mem_cons_of_mem _ hp)
    have htrace' : a.rd.flags.trace (is.map (Item.sym a.rd.filterTables)) =
        b.rd.flags.trace (is.map (Item.sym a.rd.filterTables)) := by
      rw [hsi.tables, hsi.flags, hui.flags, ha.tables]
      exact htail
    obtain ⟨v, hbv, hnew, ns, hgrow⟩ := ih hsi.idle hui.idle hab hwab hwfs hshorts htrace'
      (by rw [hsi.tables]; exact description_next hnext hdesc) hat
    obtain ⟨ms, hat', -⟩ := rows_of_run hsi.idle hwfs hshorts hat
    obtain ⟨xs, hsa'⟩ := hsi.grows
    obtain ⟨ys, hub'⟩ := hui.grows
    refine ⟨v, by rw [exec_cons, hub]; exact hbv, ?_, ys ++ ns, by rw [hgrow, hub', List.append_assoc]⟩
    rw [newRows_trans hub' hgrow, newRows_trans hsa' hat', hnew, newRows_alike hs hu ha hrows hsa hub]

end MySQLSyncer.Master
