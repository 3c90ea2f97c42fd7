import MySQLSyncer.Master.LockStep

/-! # Resuming at a published position

Every message names a place of the log. A fresh session that starts there should put the same
row messages in the ring as the session that published it.
-/
namespace MySQLSyncer.Master
open Lib MySQLSyncer.Core

variable {x r : RsReqdumpData} {e : Event} {h : Handler} {s t u : Session} {i : Item}
  {items : List Item}

/-- The message was put in the ring, behind `l₁`, by the last item before some place of this
part of the log; it names that place, and the session goes on with an open filter. -/
def PutAt (s t : Session) (items : List Item) (l₁ : List Message) (m : Message) : Prop :=
  ∃ before after b, items = before ++ after ∧ before ≠ [] ∧ exec sessionStep s before = some b ∧
    exec sessionStep b after = some t ∧ b.rd.ring = l₁ ++ [m] ∧ m.place = b.rd.place ∧
    b.rd.binlogInfo.filter = false ∧ b.waiting = false

/-- The step that put a message in the ring. -/
theorem putStep_of_run (hs : s.rd.Idle) (hwf : ∀ e, .event e ∈ items → e.WellFormed)
    (hshort : ∀ p ∈ places s.rd.place items, p.2 < 2 ^ 32) (hrun : exec sessionStep s items = some t)
    {l₁ l₂ : List Message} {m : Message} (hring : t.rd.ring = l₁ ++ m :: l₂)
    (hlen : s.rd.ring.length ≤ l₁.length) :
    ∃ before i after a b, items = before ++ i :: after ∧ exec sessionStep s before = some a ∧
      sessionStep a i = some b ∧ exec sessionStep b after = some t ∧ a.rd.ring = l₁ ∧
      b.rd.ring = l₁ ++ [m] := by
  induction items generalizing s with
  | nil =>
    obtain rfl := Option.some.inj hrun
    rw [hring, List.length_append, List.length_cons] at hlen
    omega
  | cons i is ih =>
    obtain ⟨a, hsa, hat⟩ := Option.bind_eq_some_iff.mp hrun
    have hi := sessionStep_item hs (fun e he => hwf e (he ▸ List.mem_cons_self ..))
      (hshort _ (List.mem_cons_self ..)) hsa
    have hwfs (e : Event) (he : .event e ∈ is) : e.WellFormed := hwf e (List.mem_cons_of_mem _ he)
    have hshorts : ∀ p ∈ places a.rd.place is, p.2 < 2 ^ 32 := by
      rw [hi.place]
      exact fun p hp => hshort p (List.mem_cons_of_mem _ hp)
    by_cases hlater : a.rd.ring.length ≤ l₁.length
    · obtain ⟨before, j, after, b, c, rfl, hab, hrest⟩ := ih hi.idle hwfs hshorts hat hlater
      exact ⟨i :: before, j, after, b, c, rfl, by rw [exec_cons, hsa]; exact hab, hrest⟩
    · rcases hi.ring with ⟨hsame, -⟩ | ⟨x, hput, -⟩
      · exact absurd (hsame ▸ hlen) hlater
      · obtain ⟨ms, hgrow, -⟩ := rows_of_run hi.idle hwfs hshorts hat
        rw [hput, List.length_append, List.length_singleton] at hlater
        rw [hgrow, hput, List.append_assoc] at hring
        obtain ⟨hl, hxm⟩ := List.append_inj hring (by omega)
        obtain ⟨rfl, -⟩ := List.cons.inj hxm
        exact ⟨[], i, is, s, a, rfl, rfl, hsa, hat, hl, hl ▸ hput⟩

theorem put_of_run (hs : s.rd.Idle) (hwf : ∀ e, .event e ∈ items → e.WellFormed)
    (hshort : ∀ p ∈ places s.rd.place items, p.2 < 2 ^ 32) (hrun : exec sessionStep s items = some t)
    {l₁ l₂ : List Message} {m : Message} (hring : t.rd.ring = l₁ ++ m :: l₂)
    (hlen : s.rd.ring.length ≤ l₁.length) : PutAt s t items l₁ m := by
  obtain ⟨before, i, after, a, b, rfl, ha, hab, hbt, hal, hbl⟩ := putStep_of_run hs hwf hshort hrun hring hlen
  rw [places_append, places] at hshort
  obtain ⟨hidle, hplace, -⟩ := state_of_run hs (fun e he => hwf e (List.mem_append_left _ he))
    (fun p hp => hshort p (List.mem_append_left _ hp)) ha
  have hi := sessionStep_item hidle
    (fun e he => hwf e (List.mem_append_right _ (he ▸ List.mem_cons_self ..)))
    (hplace ▸ hshort _ (List.mem_append_right _ (List.mem_cons_self ..))) hab
  rcases hi.ring with ⟨hsame, -⟩ | ⟨x, hput, hx, hopen, -⟩
  · simp [hsame, hal] at hbl
  · rw [hput, hal, List.append_cancel_left_eq, List.singleton_inj] at hbl
    subst hbl
    refine ⟨before ++ [i], after, b, by simp, by simp, ?_, hbt, hal ▸ hput, hx, hopen, hi.waiting ?_⟩
    · exact exec_append_eq_some.mpr ⟨a, ha, by rw [exec_cons, hab]; rfl⟩
    · rw [hput]
      simp

/-- The row messages of a fresh session that starts at the file and position in a message. -/
def Binlog.resume (log : Binlog) (tables : Option (List UInt8)) (id num : UInt32) (m : Message) :
    Option (List Message) :=
  (splitAt m.place log.start log.items).bind fun (_, after) =>
    (exec sessionStep ⟨startSession m.dumpFile num m.dumpPos tables id, false⟩ after).map fun t =>
      rowsOf t.rd.ring

def tranBehind (tables : Option (List UInt8)) (before : List Item) : Bool :=
  ((before.map (Item.sym tables)).foldl Flags.step Flags.cold).tran

/-- No row event comes before the next table map; and when the message lies in a transaction,
no unlisted table map up to its end is followed by two row events. -/
def Binlog.SafePosition (log : Binlog) (tables : Option (List UInt8)) (m : Message) : Prop :=
  ∃ before after, splitAt m.place log.start log.items = some (before, after) ∧
    SafeBehind (tranBehind tables before) (after.map (Item.sym tables))

theorem startSession_place {file : DumpFile} {num pos id : UInt32} {tables : Option (List UInt8)}
    (hpos : pos ≠ 0) : (startSession file num pos tables id).place = (file, pos.toNat) := by
  rw [startSession, if_neg hpos]
  rfl

theorem foldl_next_ne_zero {before : List Item} (h : before ≠ []) (p : Place) :
    (before.foldl Item.next p).2 ≠ 0 := by
  rw [← List.dropLast_append_getLast h, List.foldl_append, List.foldl_cons, List.foldl_nil]
  cases before.getLast h with
  | event e =>
    have hlen := e.length_bytes
    simp only [Item.next, hlen, rsBinlogEventHeaderLen]
    omega
  | file name num => exact Nat.succ_ne_zero 3

theorem Effect.sizes {body : List UInt8} (he : Effect x body h r) :
    SameSizes x.binlogInfo r.binlogInfo := by
  cases he with
  | query hshort hq hdb hsql => exact ⟨length_copyInto hdb, rfl, rfl, rfl, length_copyInto hsql⟩
  | tableMap hd hdb htb hct hcm hdbName htbName hfilter =>
    exact ⟨length_copyInto hdb, length_copyInto htb, length_copyInto hct, length_copyInto hcm, rfl⟩
  | _ => exact ⟨rfl, rfl, rfl, rfl, rfl⟩

theorem request_of_run (hs : s.rd.Idle) (hrun : exec sessionStep s items = some t) :
    t.rd.filterTables = s.rd.filterTables ∧ t.rd.serverId = s.rd.serverId ∧
      SameSizes s.rd.binlogInfo t.rd.binlogInfo := by
  induction items generalizing s with
  | nil =>
    obtain rfl := Option.some.inj hrun
    exact ⟨rfl, rfl, rfl, rfl, rfl, rfl, rfl⟩
  | cons i is ih =>
    obtain ⟨a, hsa, hat⟩ := Option.bind_eq_some_iff.mp hrun
    cases i with
    | file name num =>
      obtain rfl := Option.some.inj hsa
      exact ih (s := ⟨s.rd.openNext name num, false⟩) ⟨hs.mev, hs.sent, hs.skip, hs.flush⟩ hat
    | event e =>
      obtain ⟨-, he⟩ := sessionStep_event hs hsa
      obtain ⟨htables, hid, hsizes⟩ := ih (he.idle hs) hat
      have hfirst : SameSizes s.rd.binlogInfo a.rd.binlogInfo := by
        cases he with
        | handled hh heff hpos => exact { heff.sizes with }
        | _ => exact ⟨rfl, rfl, rfl, rfl, rfl⟩
      exact ⟨htables.trans he.kept.2.2.1, hid.trans he.kept.2.2.2, hsizes.db.trans hfirst.db,
        hsizes.tb.trans hfirst.tb, hsizes.ct.trans hfirst.ct, hsizes.cm.trans hfirst.cm,
        hsizes.sql.trans hfirst.sql⟩

/-- The message was put behind the items `before`, where the session was in the state `b`. -/
structure Binlog.PutBehind (log : Binlog) (tables : Option (List UInt8)) (id num : UInt32) (t : Session)
    (l₂ : List Message) (m : Message) (before after : List Item) (b : Session) : Prop where
  split : splitAt m.place log.start log.items = some (before, after)
  run : exec sessionStep b after = some t
  rows : newRows b t = rowsOf l₂
  idle : b.rd.Idle
  waiting : b.waiting = false
  filterTables : b.rd.filterTables = tables
  flags : b.rd.flags = ⟨false, tranBehind tables before⟩
  place : (startSession m.dumpFile num m.dumpPos tables id).place = b.rd.place
  alike : Alike b.rd (startSession m.dumpFile num m.dumpPos tables id)
  events : ∀ e, .event e ∈ after → e.WellFormed
  short : ∀ p ∈ places b.rd.place after, p.2 < 2 ^ 32
  nodup : (places b.rd.place after).Nodup

theorem Binlog.exists_putBehind {log : Binlog} (hlog : log.WellFormed) {tables : Option (List UInt8)} {id : UInt32}
    (num : UInt32) {l₁ l₂ : List Message} {m : Message}
    (hrun : exec sessionStep ⟨startSession log.first log.num 0 tables id, false⟩ log.items = some t)
    (hring : t.rd.ring = l₁ ++ m :: l₂) : ∃ before after b, log.PutBehind tables id num t l₂ m before after b := by
  have hstart : (startSession log.first log.num 0 tables id).Idle := startSession_idle _ _ _ _ _
  have hplace : (startSession log.first log.num 0 tables id).place = log.start := rfl
  obtain ⟨before, after, b, hitems, hne, hb, ht, hbring, hm, hopen, hnot⟩ :=
    put_of_run hstart hlog.events (hplace ▸ hlog.short) hrun hring (Nat.zero_le _)
  have hnodup := places_nodup (p := log.start) hlog.names
  have hshort := hlog.short
  rw [hitems] at hnodup
  rw [hitems, places_append] at hshort
  obtain ⟨hidle, hbplace, htables, hflags⟩ := state_of_run
    (s := ⟨startSession log.first log.num 0 tables id, false⟩) hstart
    (fun e he => hlog.events e (hitems ▸ List.mem_append_left _ he))
        (fun p hp => hshort p (List.mem_append_left _ hp)) hb
  replace hbplace : b.rd.place = before.foldl Item.next log.start := hbplace
  have htran : b.rd.binlogInfo.tran = tranBehind tables before := congrArg Flags.tran hflags
  have hpos : m.dumpPos ≠ 0 := fun h0 => by
    have h := foldl_next_ne_zero hne log.start
    rw [← hbplace, ← hm, Message.place, h0] at h
    exact h rfl
  have hfresh : (startSession m.dumpFile num m.dumpPos tables id).place = b.rd.place :=
      (startSession_place hpos).trans hm
  obtain ⟨hfile, hnum⟩ := Prod.mk.inj hfresh
  obtain ⟨hrequest, hid, hsizes⟩ := request_of_run hstart hb
  exact ⟨before, after, b,
    { split := by
        rw [hm, hbplace, hitems]
        exact splitAt_append hnodup
      run := ht
      rows := newRows_of_ring (by rw [hbring, hring, List.append_assoc]; rfl)
      idle := hidle
      waiting := hnot
      filterTables := htables
      flags := by rw [RsReqdumpData.flags, hopen, htran]
      place := hfresh
      alike := ⟨hfile, UInt32.toNat_inj.mp hnum, hrequest.symm, hid.symm, hsizes.db.symm, hsizes.tb.symm,
        hsizes.ct.symm, hsizes.cm.symm, hsizes.sql.symm⟩
      events := fun e he => hlog.events e (hitems ▸ List.mem_append_right _ he)
      short := by
        rw [hbplace]
        exact fun p hp => hshort p (List.mem_append_right _ hp)
      nodup := by
        rw [places_append, ← hbplace] at hnodup
        exact (List.nodup_cons.mp hnodup).2.of_append_right }⟩

namespace Binlog.PutBehind

variable {log : Binlog} {tables : Option (List UInt8)} {id num : UInt32} {l₂ : List Message} {m : Message}
  {before after : List Item} {b : Session}

theorem resume_eq (h : log.PutBehind tables id num t l₂ m before after b) : log.resume tables id num m =
    (exec sessionStep ⟨startSession m.dumpFile num m.dumpPos tables id, false⟩ after).map fun v =>
        rowsOf v.rd.ring := by
  rw [Binlog.resume, h.split]
  rfl

theorem safePosition_iff (h : log.PutBehind tables id num t l₂ m before after b) :
    log.SafePosition tables m ↔ SafeBehind (tranBehind tables before) (after.map (Item.sym tables)) := by
  refine ⟨?_, fun hsafe => ⟨before, after, h.split, hsafe⟩⟩
  rintro ⟨before', after', heq, hsafe⟩
  obtain ⟨rfl, rfl⟩ := Prod.mk.inj (Option.some.inj (h.split.symm.trans heq))
  exact hsafe

/-- A fresh session with the same rows makes the same choice at every place. -/
theorem trace_eq (h : log.PutBehind tables id num t l₂ m before after b)
    (hres : log.resume tables id num m = some (rowsOf l₂)) :
    (⟨false, tranBehind tables before⟩ : Flags).trace (after.map (Item.sym tables)) =
      Flags.cold.trace (after.map (Item.sym tables)) := by
  rw [h.resume_eq] at hres
  obtain ⟨v, hv, hrows⟩ := Option.map_eq_some_iff.mp hres
  have hplace := h.place
  obtain ⟨ms, hms, hpick⟩ := rows_of_run h.idle h.events h.short h.run
  obtain ⟨ns, hns, hpick'⟩ := rows_of_run (startSession_idle _ _ _ _ _) h.events (hplace.symm ▸ h.short) hv
  have hsame : rowsOf ns = rowsOf ms := by
    rw [← newRows_of_ring hms, h.rows, ← hrows, hns]
    rfl
  dsimp only at hpick'
  rw [hsame, hpick, hplace, h.filterTables, h.flags] at hpick'
  have hlen (f : Flags) : (f.trace (after.map (Item.sym tables))).length = (places b.rd.place after).length := by
    rw [Flags.length_trace, List.length_map, length_places]
  exact pick_inj h.nodup (hlen _) (hlen _) hpick'

end Binlog.PutBehind

/-- A fresh session at the position in a message puts exactly the row messages behind that
message in the ring, if and only if the position is safe. -/
theorem resume_iff (log : Binlog) (hlog : log.WellFormed) (tables : Option (List UInt8))
    (id num : UInt32) (t : Session) (l₁ l₂ : List Message) (m : Message)
    (hrun : exec sessionStep ⟨startSession log.first log.num 0 tables id, false⟩ log.items = some t)
    (hring : t.rd.ring = l₁ ++ m :: l₂) :
    log.resume tables id num m = some (rowsOf l₂) ↔ log.SafePosition tables m := by
  obtain ⟨before, after, b, h⟩ := Binlog.exists_putBehind hlog num hrun hring
  have hcold := trace_cold_iff (tranBehind tables before) (after.map (Item.sym tables))
  rw [h.safePosition_iff]
  constructor
  · exact fun hres => hcold.mp (h.trace_eq hres)
  · intro hsafe
    obtain ⟨v, hv, hnew, -⟩ := rows_alike (u := ⟨startSession m.dumpFile num m.dumpPos tables id, false⟩) h.idle
      (startSession_idle _ _ _ _ _) h.alike h.waiting.symm h.events h.short
      (by rw [h.flags, h.filterTables]; exact hcold.mpr hsafe) (Or.inr (by rw [h.filterTables]; exact hsafe.1)) h.run
    rw [h.resume_eq, hv, ← h.rows, ← hnew]
    rfl

theorem sampleTableMap_wellFormed (c : UInt8) (hc : c ≠ 0) : (sampleTableMap c).WellFormed :=
  ⟨fun _ => ⟨_, sampleTableMap_maps c hc⟩, nofun⟩

theorem sampleRows_wellFormed (c : UInt8) : (sampleRows c).WellFormed := ⟨nofun, nofun⟩

theorem sampleBegin_wellFormed : sampleBegin.WellFormed := by
  have hquery : sampleBegin.query = some ⟨2, 0, [100, 0], [66, 69, 71, 73, 78]⟩ := rfl
  refine ⟨nofun, fun _ q hq => ?_⟩
  obtain rfl := Option.some.inj (hq.symm.trans hquery)
  decide

def sampleLog : Binlog :=
  { first := sampleFile, num := 1
    items := [.event sampleBegin, .event (sampleTableMap 97), .event (sampleRows 97),
      .event (sampleRows 97)] }

/-- A transaction with a row event, and what stands behind it. -/
theorem wellFormed_of_row {log : Binlog} {after : List Item}
    (hitems : log.items = [.event sampleBegin, .event (sampleTableMap 97), .event (sampleRows 97)] ++ after)
    (hnames : (log.first :: fileNames log.items).Nodup) (hshort : ∀ p ∈ places log.start log.items, p.2 < 2 ^ 32)
    (hafter : ∀ e, .event e ∈ after → e.WellFormed) : log.WellFormed := by
  refine ⟨hnames, hshort, fun e he => ?_⟩
  rw [hitems, List.mem_append] at he
  rcases he with he | he
  · simp only [List.mem_cons, Item.event.injEq, List.not_mem_nil, or_false] at he
    rcases he with rfl | rfl | rfl
    · exact sampleBegin_wellFormed
    · exact sampleTableMap_wellFormed 97 (by decide)
    · exact sampleRows_wellFormed 97
  · exact hafter e he

theorem sampleLog_wellFormed : sampleLog.WellFormed := by
  refine wellFormed_of_row (show sampleLog.items = _ ++ [.event (sampleRows 97)] from rfl)
      (by decide) (by decide) fun e he => ?_
  obtain rfl := Item.event.inj (List.mem_singleton.mp he)
  exact sampleRows_wellFormed 97

theorem resume_sample : ∃ t m l,
    exec sessionStep ⟨startSession sampleFile 1 0 (some sampleTables) 1, false⟩ sampleLog.items = some t ∧
    t.rd.ring = m :: l ∧ (sampleLog.resume (some sampleTables) 1 1 m = some (rowsOf l) ↔
      sampleLog.SafePosition (some sampleTables) m) := by
  have hrun : (exec sessionStep ⟨startSession sampleFile 1 0 (some sampleTables) 1, false⟩
      sampleLog.items).map (fun t => t.rd.ring.isEmpty) = some false := by decide +kernel
  obtain ⟨t, ht, hne⟩ := Option.map_eq_some_iff.mp hrun
  obtain ⟨m, l, hring⟩ := List.exists_cons_of_ne_nil (by simpa using hne)
  exact ⟨t, m, l, ht, hring, resume_iff sampleLog sampleLog_wellFormed _ 1 1 t [] l m ht hring⟩

/-- The second row event of the transaction is lost when a session resumes behind the first. -/
theorem resume_loses_row : ¬ ∀ (log : Binlog) (_ : log.WellFormed) (tables : Option (List UInt8))
    (id num : UInt32) (t : Session) (l₁ l₂ : List Message) (m : Message),
    exec sessionStep ⟨startSession log.first log.num 0 tables id, false⟩ log.items = some t →
    t.rd.ring = l₁ ++ m :: l₂ → log.resume tables id num m = some (rowsOf l₂) := by
  intro h
  have hrun : (exec sessionStep ⟨startSession sampleFile 1 0 (some sampleTables) 1, false⟩
      sampleLog.items).map (fun t => t.rd.ring.head?.map fun m =>
        sampleLog.resume (some sampleTables) 1 1 m == some (rowsOf t.rd.ring.tail)) =
      some (some false) := by decide +kernel
  obtain ⟨t, ht, hres⟩ := Option.map_eq_some_iff.mp hrun
  obtain ⟨m, hm, hne⟩ := Option.map_eq_some_iff.mp hres
  have hring : t.rd.ring = [] ++ m :: t.rd.ring.tail := (List.cons_head?_tail hm).symm
  rw [h sampleLog sampleLog_wellFormed _ 1 1 t [] _ m ht hring] at hne
  simp at hne

end MySQLSyncer.Master
