import MySQLSyncer.Master.ForwardedTables
import MySQLSyncer.Master.TableMap

/-! # By which table a row event is described

A row event names its table by the id of a table map of its statement. The session keeps the
description of the last table map only.
-/
namespace MySQLSyncer.Master
open Lib MySQLSyncer.Core

/-- What the session keeps of a table map. Counts that take more than one byte are lost. -/
structure RsBinlogInfo.Describes (bi : RsBinlogInfo) (l : TableMap) : Prop where
  db : cstr bi.db = some l.db
  tb : cstr bi.tb = some l.tb
  narrow : l.Narrow → slice bi.ct 0 bi.cn.toNat = some l.types ∧ slice bi.cm 0 bi.ml.toNat = some l.metas
  wide : ¬ l.Narrow → bi.cn.toNat ≠ l.types.length ∨ bi.ml.toNat ≠ l.metas.length

def TableMap.Listed (tables : Option (List UInt8)) (m : TableMap) : Prop :=
  filterDecision tables (filterKey m.db m.tb) = some false

instance (tables : Option (List UInt8)) (m : TableMap) : Decidable (m.Listed tables) :=
  inferInstanceAs (Decidable (_ = _))

/-- The table maps of the statement that a well-formed sequence has reached, the last one
first. A query or another file ends the statement. -/
inductive OpenMaps : List Item → List TableMap → Prop where
  | start : OpenMaps [] []
  | map {items : List Item} {maps : List TableMap} {e : Event} {m : TableMap} :
      OpenMaps items maps → e.Maps m → OpenMaps (items ++ [.event e]) (m :: maps)
  | query {items : List Item} {maps : List TableMap} {e : Event} :
      OpenMaps items maps → e.handler = some .query → OpenMaps (items ++ [.event e]) []
  | other {items : List Item} {maps : List TableMap} {e : Event} : OpenMaps items maps →
      e.t ≠ rsTableMapEvent → e.handler ≠ some .query → OpenMaps (items ++ [.event e]) maps
  | file {items : List Item} {maps : List TableMap} (name : DumpFile) (num : UInt32) :
      OpenMaps items maps → OpenMaps (items ++ [.file name num]) []

def OwnMap (maps : List TableMap) (id : List UInt8) (m : TableMap) : Prop :=
  ∃ newer older, maps = newer ++ m :: older ∧ m.id = id ∧ ∀ x ∈ newer, x.id ≠ id

/-- A statement has one definition of each of its tables. -/
def OneDefinition (maps : List TableMap) : Prop :=
  ∀ a ∈ maps, ∀ b ∈ maps, a.db = b.db → a.tb = b.tb → a.types = b.types ∧ a.metas = b.metas

def ownRows (rd : RsReqdumpData) (e : Event) (m : TableMap) : List Message :=
  if m.Listed rd.filterTables then
    [⟨rd.dumpFile, rd.dumpPos + e.el, e.t, m.db, m.tb, m.types, m.metas, e.body⟩]
  else []

variable {rd r : RsReqdumpData} {e : Event} {h : Handler} {s s' : Session} {w w' : Watched}
  {l m : TableMap} {items : List Item} {maps : List TableMap} {tables : Option (List UInt8)}

theorem cstr_copied {arr name out : List UInt8} (hname : 0 ∉ name)
    (h : copyInto arr (name ++ [0]) = some out) : cstr out = some name := by
  obtain ⟨-, rfl⟩ := copyInto_eq_some.mp h
  rw [List.append_assoc]
  exact cstr_append hname _

theorem slice_copied {arr src out : List UInt8} {n : ℕ} (h : copyInto arr src = some out)
    (hn : n = src.length) : slice out 0 n = some src := by
  obtain ⟨-, rfl⟩ := copyInto_eq_some.mp h
  subst hn
  exact slice_left _ _

theorem EventStep.tableMap_effect (ht : e.t = rsTableMapEvent) (h : EventStep rd e s') :
    ∃ r n pos, Effect (rsBinlogHeaderHandler rd e.head) e.body .tableMap r ∧
      s' = ⟨r.finished n pos, false⟩ := by
  have hhandler := Event.handler_tableMap.mpr ht
  cases h with
  | unknown hh => exact absurd (hhandler.symm.trans hh) (by simp)
  | stopped hh hid => exact absurd (hhandler.symm.trans hh) (by simp)
  | handled hh he hpos =>
    obtain rfl := Option.some.inj (hhandler.symm.trans hh)
    exact ⟨_, _, _, he, rfl⟩

theorem EventStep.parseTableMap (hmap : e.Maps m) (h : EventStep rd e s') :
    ∃ d, parseTableMap e.body = some d := by
  obtain ⟨r, n, pos, he, -⟩ := h.tableMap_effect hmap.1
  cases he with
  | tableMap hd hdb htb hct hcm hdbName htbName hfilter => exact ⟨_, hd⟩

/-- Behind a table map the session holds its description and its filter decision. -/
theorem EventStep.describes_map (hmap : e.Maps m) (h : EventStep rd e s') :
    s'.rd.binlogInfo.Describes m ∧
      filterDecision rd.filterTables (filterKey m.db m.tb) = some s'.rd.binlogInfo.filter := by
  obtain ⟨r, n, pos, he, rfl⟩ := h.tableMap_effect hmap.1
  obtain ⟨ht, reserved, nullable, hres, hbody⟩ := hmap
  cases he with
  | @tableMap d db tb ct cm dbName tbName filter hd hdb htb hct hcm hdbName htbName hfilter =>
    rw [hbody] at hd
    obtain ⟨hddb, hdtb, hnarrow, hwide⟩ := parseTableMap_layout hres hd
    have hdbn := cstr_copied m.db_noNul (hddb ▸ hdb)
    have htbn := cstr_copied m.tb_noNul (hdtb ▸ htb)
    obtain rfl := Option.some.inj (hdbName.symm.trans hdbn)
    obtain rfl := Option.some.inj (htbName.symm.trans htbn)
    refine ⟨⟨hdbn, htbn, fun hn => ?_, hwide⟩, hfilter⟩
    obtain ⟨hcn, hdct, hml, hdcm⟩ := hnarrow hn
    exact ⟨slice_copied (hdct ▸ hct) hcn, slice_copied (hdcm ▸ hcm) hml⟩

theorem EventStep.describes_other (ht : e.t ≠ rsTableMapEvent) (hq : e.handler ≠ some .query)
    (hd : rd.binlogInfo.Describes l) (h : EventStep rd e s') : s'.rd.binlogInfo.Describes l := by
  cases h with
  | unknown hh => exact ⟨hd.db, hd.tb, hd.narrow, hd.wide⟩
  | stopped hh hid => exact ⟨hd.db, hd.tb, hd.narrow, hd.wide⟩
  | handled hh he hpos =>
    cases he with
    | query => exact absurd hh hq
    | tableMap => exact absurd (Event.handler_tableMap.mp hh) ht
    | _ => exact ⟨hd.db, hd.tb, hd.narrow, hd.wide⟩

structure Watched.Holds (w : Watched) (tables : Option (List UInt8)) (maps : List TableMap) : Prop where
  inv : w.Inv
  tables_eq : w.session.rd.filterTables = tables
  last : ∀ l older, maps = l :: older →
    w.session.rd.binlogInfo.Describes l ∧ (w.listed = true ↔ l.Listed tables)

theorem Watched.Holds.event (hw : w.Inv) (htables : w.session.rd.filterTables = tables)
    (hstep : watchedStep w (.event e) = some w')
    (hlast : EventStep w.session.rd e w'.session → ∀ l older, maps = l :: older →
      w'.session.rd.binlogInfo.Describes l ∧ (w'.listed = true ↔ l.Listed tables)) :
    w'.Holds tables maps := by
  obtain ⟨-, he⟩ := sessionStep_event hw.idle (watchedStep_event hstep).1
  exact ⟨hw.step hstep, he.kept.2.2.1.trans htables, hlast he⟩

theorem Watched.Holds.of_openMaps (hopen : OpenMaps items maps) {start : Watched}
    (hstart : start.Holds tables []) (hrun : exec watchedStep start items = some w) :
    w.Holds tables maps := by
  induction hopen generalizing w with
  | start =>
    obtain rfl := Option.some.inj hrun
    exact hstart
  | @map items maps e m _ hmap ih =>
    obtain ⟨v, hv, hstep⟩ := exec_append_eq_some.mp hrun
    replace hstep : watchedStep v (.event e) = some w := by simpa using hstep
    have hvh := ih hv
    refine Holds.event hvh.inv hvh.tables_eq hstep fun he l older hlo => ?_
    obtain ⟨rfl, rfl⟩ := List.cons.inj hlo
    obtain ⟨hd, hfilter⟩ := he.describes_map hmap
    refine ⟨hd, ?_⟩
    have hsym : e.sym (!w.session.rd.binlogInfo.filter) =
        .tableMap (!w.session.rd.binlogInfo.filter) := by
      rw [Event.sym, Event.handler_tableMap.mpr hmap.1]
      rfl
    rw [(watchedStep_event hstep).2.1, hsym, TableMap.Listed, ← hvh.tables_eq, hfilter, listedStep]
    simp
  | query hopen hq ih =>
    obtain ⟨v, hv, hstep⟩ := exec_append_eq_some.mp hrun
    exact Holds.event (ih hv).inv (ih hv).tables_eq (by simpa using hstep) (by simp)
  | @other items maps e _ ht hq ih =>
    obtain ⟨v, hv, hstep⟩ := exec_append_eq_some.mp hrun
    replace hstep : watchedStep v (.event e) = some w := by simpa using hstep
    have hvh := ih hv
    refine Holds.event hvh.inv hvh.tables_eq hstep fun he l older hlo => ?_
    obtain ⟨hd, hlisted⟩ := hvh.last l older hlo
    refine ⟨he.describes_other ht hq hd, ?_⟩
    rw [(watchedStep_event hstep).2.1, ← hlisted]
    exact Eq.to_iff (congrArg (· = true) (Event.listedStep_sym ht _))
  | file name num _ ih =>
    obtain ⟨v, hv, hstep⟩ := exec_append_eq_some.mp hrun
    replace hstep : watchedStep v (.file name num) = some w := by simpa using hstep
    refine ⟨(ih hv).inv.step hstep, ?_, by simp⟩
    obtain ⟨s, hs, rfl⟩ := Option.map_eq_some_iff.mp hstep
    obtain rfl := Option.some.inj hs
    exact (ih hv).tables_eq

/-- The message is that of another table exactly when that table has the same description and
its counts took one byte. -/
theorem RsBinlogInfo.Describes.rowMessage_eq (hd : rd.binlogInfo.Describes l)
    (hsame : l.db = m.db → l.tb = m.tb → l.types = m.types ∧ l.metas = m.metas) :
    rd.rowMessage e =
        some ⟨rd.dumpFile, rd.dumpPos + e.el, e.t, m.db, m.tb, m.types, m.metas, e.body⟩ ↔
      l.Narrow ∧ l.SameTable m := by
  simp only [RsReqdumpData.rowMessage, hd.db, hd.tb, Option.bind_eq_bind, Option.bind_some]
  constructor
  · intro h
    obtain ⟨ct, hct, cm, hcm, hm⟩ := by simpa only [Option.bind_eq_some_iff] using h
    obtain ⟨hdb, htb, rfl, rfl⟩ := by simpa using hm
    obtain ⟨htypes, hmetas⟩ := hsame hdb htb
    refine ⟨not_not.mp fun hwide => ?_, hdb, htb, htypes, hmetas⟩
    have hcn := slice_length hct
    have hml := slice_length hcm
    rcases hd.wide hwide with h | h
    · exact h (hcn.symm.trans (congrArg List.length htypes.symm))
    · exact h (hml.symm.trans (congrArg List.length hmetas.symm))
  · rintro ⟨hnarrow, hdb, htb, htypes, hmetas⟩
    obtain ⟨hct, hcm⟩ := hd.narrow hnarrow
    rw [hct, hcm, hdb, htb, htypes, hmetas]
    rfl

theorem TableMap.SameTable.listed (h : l.SameTable m) (tables : Option (List UInt8)) :
    l.Listed tables ↔ m.Listed tables := by
  rw [TableMap.Listed, h.1, h.2.1, TableMap.Listed]

/-- A row event is described by its own table, and forwarded by its own table's filter
decision, exactly when one of two things holds: its table is listed and is that of the last
table map, whose counts take one byte; or neither its table nor the last one is listed, and no
row event was met outside a transaction since the last table map. -/
theorem describedByOwn_iff (file : DumpFile) (num pos : UInt32) (tables : Option (List UInt8))
    (id : UInt32) (items : List Item) (l m : TableMap) (older : List TableMap) (e : Event)
    (w w' : Watched) (hopen : OpenMaps items (l :: older)) (hdef : OneDefinition (l :: older))
    (hrows : IsRowsEvent e.t) (hown : OwnMap (l :: older) e.tableId m)
    (hrun : exec watchedStep (Watched.start (startSession file num pos tables id)) items = some w)
    (hstep : watchedStep w (.event e) = some w') :
    newRows w.session w'.session = ownRows w.session.rd e m ↔
      (m.Listed tables ∧ l.Narrow ∧ l.SameTable m) ∨
        (¬ m.Listed tables ∧ ¬ l.Listed tables ∧ w.bare = false) := by
  have hw : w.Holds tables (l :: older) :=
    Watched.Holds.of_openMaps hopen ⟨Watched.start_inv file num pos tables id, rfl, nofun⟩ hrun
  obtain ⟨hd, hlisted⟩ := hw.last l older rfl
  have hmem : m ∈ l :: older := by
    obtain ⟨newer, rest, heq, -⟩ := hown
    rw [heq]
    simp
  have hsame := hdef l (List.mem_cons_self ..) m hmem
  have hforward := hw.inv.newRows_ne_nil hrows hstep
  obtain ⟨-, he⟩ := sessionStep_event hw.inv.idle (watchedStep_event hstep).1
  rw [ownRows, hw.tables_eq]
  by_cases hm : m.Listed tables
  · rw [if_pos hm]
    have hmsg := hd.rowMessage_eq (e := e) hsame
    have hopened : l.SameTable m → w.session.rd.binlogInfo.filter = false := fun h => by
      rw [hw.inv.filter, hlisted.mpr ((h.listed tables).mpr hm)]
      rfl
    rw [he.newRows_eq]
    constructor
    · intro h
      split_ifs at h with hc
      exact Or.inl ⟨hm, hmsg.mp (by simpa [Option.toList_eq_singleton_iff] using h)⟩
    · rintro (⟨-, hl⟩ | ⟨hn, -⟩)
      · rw [if_pos ⟨hrows, hopened hl.2⟩, hmsg.mpr hl]
        rfl
      · exact absurd hm hn
  · rw [if_neg hm]
    have hnot : newRows w.session w'.session = [] ↔ ¬ (w.listed = true ∨ w.bare = true) := by
      rw [← hforward, not_not]
    rw [hnot, hlisted]
    simp [hm]

def sampleMap (c : UInt8) (hc : c ≠ 0) : TableMap :=
  { id := [c, 0, 0, 0, 0, 0], db := [100], tb := [c], types := [3], metas := [], id_length := rfl,
    db_length := by decide, tb_length := by simp, db_noNul := by decide, tb_noNul := by simpa using hc.symm,
    types_length := by decide, metas_length := by decide }

theorem sampleTableMap_maps (c : UInt8) (hc : c ≠ 0) : (sampleTableMap c).Maps (sampleMap c hc) :=
  ⟨rfl, [1, 0], [], rfl, rfl⟩

theorem openMaps_pair (a b : UInt8) (ha : a ≠ 0) (hb : b ≠ 0) :
    OpenMaps [.event sampleBegin, .event (sampleTableMap a), .event (sampleTableMap b)]
      [sampleMap b hb, sampleMap a ha] := by
  have h : OpenMaps ([] ++ [.event sampleBegin]) [] := .query .start rfl
  exact (h.map (sampleTableMap_maps a ha)).map (sampleTableMap_maps b hb)

theorem oneDefinition_pair (a b : UInt8) (ha : a ≠ 0) (hb : b ≠ 0) :
    OneDefinition [sampleMap b hb, sampleMap a ha] := by
  intro x hx y hy _ _
  simp only [List.mem_cons, List.not_mem_nil, or_false] at hx hy
  rcases hx with rfl | rfl <;> rcases hy with rfl | rfl <;> exact ⟨rfl, rfl⟩

theorem describedByOwn_sample : ∃ w w',
    exec watchedStep (Watched.start (startSession sampleFile 1 4 (some sampleTables) 1))
      [.event sampleBegin, .event (sampleTableMap 98), .event (sampleTableMap 97)] = some w ∧
    watchedStep w (.event (sampleRows 97)) = some w' ∧
    (newRows w.session w'.session =
        ownRows w.session.rd (sampleRows 97) (sampleMap 97 (by decide)) ↔
      ((sampleMap 97 (by decide)).Listed (some sampleTables) ∧ (sampleMap 97 (by decide)).Narrow ∧
        (sampleMap 97 (by decide)).SameTable (sampleMap 97 (by decide))) ∨
      (¬ (sampleMap 97 (by decide)).Listed (some sampleTables) ∧
        ¬ (sampleMap 97 (by decide)).Listed (some sampleTables) ∧ w.bare = false)) := by
  have hrun : ((exec watchedStep (Watched.start (startSession sampleFile 1 4 (some sampleTables) 1))
      [.event sampleBegin, .event (sampleTableMap 98), .event (sampleTableMap 97)]).bind fun w =>
        watchedStep w (.event (sampleRows 97))).isSome := by decide +kernel
  obtain ⟨w', hw'⟩ := Option.isSome_iff_exists.mp hrun
  obtain ⟨w, hw, hstep⟩ := Option.bind_eq_some_iff.mp hw'
  exact ⟨w, w', hw, hstep, describedByOwn_iff _ _ _ _ _ _ _ _ _ _ w w'
    (openMaps_pair 98 97 (by decide) (by decide)) (oneDefinition_pair 98 97 _ _) (by decide)
    ⟨[], _, rfl, rfl, nofun⟩ hw hstep⟩

/-- Two listed tables are open; a row event of the first one is sent as one of the second. -/
theorem describes_last : ¬ ∀ (file : DumpFile) (num pos : UInt32) (tables : Option (List UInt8))
    (id : UInt32) (items : List Item) (l m : TableMap) (older : List TableMap) (e : Event)
    (w w' : Watched), OpenMaps items (l :: older) → OneDefinition (l :: older) → IsRowsEvent e.t →
    OwnMap (l :: older) e.tableId m →
    exec watchedStep (Watched.start (startSession file num pos tables id)) items = some w →
    watchedStep w (.event e) = some w' →
    newRows w.session w'.session = ownRows w.session.rd e m := by
  intro h
  have hrun : ((exec watchedStep
      (Watched.start (startSession sampleFile 1 4 (some (sampleTables ++ [100, 46, 98, 44])) 1))
      [.event sampleBegin, .event (sampleTableMap 97), .event (sampleTableMap 98)]).bind fun w =>
        (watchedStep w (.event (sampleRows 97))).map fun w' =>
          newRows w.session w'.session == ownRows w.session.rd (sampleRows 97)
            (sampleMap 97 (by decide))) = some false := by decide +kernel
  obtain ⟨w, hw, hstep⟩ := Option.bind_eq_some_iff.mp hrun
  obtain ⟨w', hw', hres⟩ := Option.map_eq_some_iff.mp hstep
  have heq := h _ _ _ _ _ _ _ (sampleMap 97 (by decide)) _ (sampleRows 97) w w'
    (openMaps_pair 97 98 (by decide) (by decide)) (oneDefinition_pair 97 98 _ _) (by decide)
    ⟨[sampleMap 98 (by decide)], [], rfl, rfl, by decide⟩ hw hw'
  rw [heq] at hres
  simp at hres

end MySQLSyncer.Master
