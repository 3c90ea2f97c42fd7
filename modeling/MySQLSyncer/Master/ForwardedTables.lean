import MySQLSyncer.Master.EventStep

/-! # Which row events are forwarded

A session is watched with two facts about the events that it has read: whether the last table
map named a listed table, and whether a row event was met outside a transaction since then.
-/
namespace MySQLSyncer.Master
open Lib MySQLSyncer.Core

structure Watched where
  session : Session
  listed : Bool
  bare : Bool

def watchedStep (w : Watched) (i : Item) : Option Watched :=
  (sessionStep w.session i).map fun s =>
    match i with
    | .event e =>
      let a := e.sym (!s.rd.binlogInfo.filter)
      ⟨s, listedStep w.listed a, bareStep w.session.rd.binlogInfo.tran w.bare a⟩
    | .file _ _ => ⟨s, w.listed, w.bare⟩

def Watched.start (rd : RsReqdumpData) : Watched := ⟨⟨rd, false⟩, false, false⟩

structure Watched.Inv (w : Watched) : Prop where
  idle : w.session.rd.Idle
  filter : w.session.rd.binlogInfo.filter = !(w.listed || w.bare)

variable {w w' : Watched} {s s' : Session} {i : Item} {e : Event}

theorem watchedStep_event (h : watchedStep w (.event e) = some w') :
    sessionStep w.session (.event e) = some w'.session ∧
      w'.listed = listedStep w.listed (e.sym (!w'.session.rd.binlogInfo.filter)) ∧
      w'.bare = bareStep w.session.rd.binlogInfo.tran w.bare
        (e.sym (!w'.session.rd.binlogInfo.filter)) := by
  obtain ⟨s, hs, rfl⟩ := Option.map_eq_some_iff.mp h
  exact ⟨hs, rfl, rfl⟩

theorem startSession_idle (file : DumpFile) (num pos : UInt32) (tables : Option (List UInt8))
    (id : UInt32) : (startSession file num pos tables id).Idle := ⟨rfl, rfl, rfl, rfl⟩

theorem Watched.start_inv (file : DumpFile) (num pos : UInt32) (tables : Option (List UInt8))
    (id : UInt32) : (Watched.start (startSession file num pos tables id)).Inv :=
  ⟨startSession_idle file num pos tables id, rfl⟩

theorem Watched.Inv.step (hw : w.Inv) (h : watchedStep w i = some w') : w'.Inv := by
  cases i with
  | event e =>
    obtain ⟨hs, hlisted, hbare⟩ := watchedStep_event h
    obtain ⟨-, hstep⟩ := sessionStep_event hw.idle hs
    refine ⟨hstep.idle hw.idle, ?_⟩
    rw [hlisted, hbare]
    exact (congrArg Flags.filter hstep.flags).trans
      (filter_step (s := w.session.rd.flags) hw.filter _)
  | file name num =>
    obtain ⟨s, hs, rfl⟩ := Option.map_eq_some_iff.mp h
    obtain rfl := Option.some.inj hs
    exact ⟨⟨hw.idle.mev, hw.idle.sent, hw.idle.skip, hw.idle.flush⟩, hw.filter⟩

/-- A row event is forwarded exactly when the last table map was of a listed table or a row
event was met outside a transaction since then. -/
theorem Watched.Inv.newRows_ne_nil (hw : w.Inv) (hrows : IsRowsEvent e.t)
    (h : watchedStep w (.event e) = some w') :
    newRows w.session w'.session ≠ [] ↔ w.listed = true ∨ w.bare = true := by
  obtain ⟨-, hstep⟩ := sessionStep_event hw.idle (watchedStep_event h).1
  have hopen : w.session.rd.binlogInfo.filter = false ↔ w.listed = true ∨ w.bare = true := by
    rw [hw.filter]
    cases w.listed <;> cases w.bare <;> decide
  rw [← hopen]
  rcases hstep.ring with ⟨m, -, hfilter, hmsg, hring⟩ | ⟨hfilter, -⟩
  · rw [hstep.newRows_eq, if_pos ⟨hrows, hfilter⟩, hmsg]
    exact iff_of_true (List.cons_ne_nil m []) hfilter
  · rw [hstep.newRows_eq, if_neg (fun hc => absurd (hfilter hrows) (by rw [hc.2]; decide))]
    exact iff_of_false (fun hc => hc rfl) (by rw [hfilter hrows]; decide)

/-- In every session from its start on, a row event is forwarded just for a listed table
exactly when the table is listed or no row event was met outside a transaction since its
table map. -/
theorem forwardsListed_iff (file : DumpFile) (num pos : UInt32) (tables : Option (List UInt8))
    (id : UInt32) (items : List Item) (e : Event) (w w' : Watched) (hrows : IsRowsEvent e.t)
    (hrun : exec watchedStep (Watched.start (startSession file num pos tables id)) items = some w)
    (hstep : watchedStep w (.event e) = some w') :
    (newRows w.session w'.session ≠ [] ↔ w.listed = true) ↔ (w.listed = true ∨ w.bare = false) := by
  have hw : w.Inv := exec_invariant (I := Watched.Inv) (fun _ _ _ h hs => h.step hs)
    (Watched.start_inv file num pos tables id) hrun
  rw [hw.newRows_ne_nil hrows hstep]
  cases w.listed <;> cases w.bare <;> decide

theorem forwardsListed_sample : ∃ w w',
    exec watchedStep (Watched.start (startSession sampleFile 1 4 (some sampleTables) 1))
      [.event (sampleTableMap 97)] = some w ∧
    watchedStep w (.event (sampleRows 97)) = some w' ∧
    ((newRows w.session w'.session ≠ [] ↔ w.listed = true) ↔ (w.listed = true ∨ w.bare = false)) := by
  have hrun : ((exec watchedStep (Watched.start (startSession sampleFile 1 4 (some sampleTables) 1))
      [.event (sampleTableMap 97)]).bind fun w => watchedStep w (.event (sampleRows 97))).isSome := by
    decide +kernel
  obtain ⟨w', hw'⟩ := Option.isSome_iff_exists.mp hrun
  obtain ⟨w, hw, hstep⟩ := Option.bind_eq_some_iff.mp hw'
  exact ⟨w, w', hw, hstep, forwardsListed_iff _ _ _ _ _ _ _ w w' (by decide) hw hstep⟩

/-- Two row events behind the table map of a table that is not listed: the second one is
forwarded. -/
theorem forwards_unlisted : ¬ ∀ (file : DumpFile) (num pos : UInt32) (tables : Option (List UInt8))
    (id : UInt32) (items : List Item) (e : Event) (w w' : Watched), IsRowsEvent e.t →
    exec watchedStep (Watched.start (startSession file num pos tables id)) items = some w →
    watchedStep w (.event e) = some w' →
    (newRows w.session w'.session ≠ [] ↔ w.listed = true) := by
  intro h
  have hrun : ((exec watchedStep (Watched.start (startSession sampleFile 1 4 (some sampleTables) 1))
      [.event (sampleTableMap 98), .event (sampleRows 98)]).bind fun w =>
        (watchedStep w (.event (sampleRows 98))).map fun w' =>
          (newRows w.session w'.session == [], w.listed)) = some (false, false) := by
    decide +kernel
  obtain ⟨w, hw, hstep⟩ := Option.bind_eq_some_iff.mp hrun
  obtain ⟨w', hw', hres⟩ := Option.map_eq_some_iff.mp hstep
  obtain ⟨hrows, hlisted⟩ := Prod.mk.inj hres
  have hiff := h sampleFile 1 4 (some sampleTables) 1 _ _ w w' (by decide) hw hw'
  exact absurd (hiff.mp (by simpa using hrows)) (by rw [hlisted]; decide)

end MySQLSyncer.Master
