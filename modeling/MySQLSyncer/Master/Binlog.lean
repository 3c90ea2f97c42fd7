import MySQLSyncer.Master.TableDescription

/-! # The log, and where in it a session is

The log is the sequence of its events, with a mark where a file ends and the next one begins.
Positions take 32 bits, so a file has less than 4 GiB.
-/
namespace MySQLSyncer.Master
open Lib MySQLSyncer.Core

abbrev Place := DumpFile × ℕ

def RsReqdumpData.place (rd : RsReqdumpData) : Place := (rd.dumpFile, rd.dumpPos.toNat)

def Message.place (m : Message) : Place := (m.dumpFile, m.dumpPos.toNat)

def Item.next (p : Place) : Item → Place
  | .event e => (p.1, p.2 + e.bytes.length)
  | .file name _ => (name, rsBinlogMagicNumLen)

def places (p : Place) : List Item → List Place
  | [] => []
  | i :: is => i.next p :: places (i.next p) is

def splitAt (target p : Place) : List Item → Option (List Item × List Item)
  | [] => if p = target then some ([], []) else none
  | i :: is => if p = target then some ([], i :: is)
      else (splitAt target (i.next p) is).map fun (before, after) => (i :: before, after)

def fileNames : List Item → List DumpFile
  | [] => []
  | .event _ :: is => fileNames is
  | .file name _ :: is => name :: fileNames is

/-- What the format promises of table maps, and of queries that their database name ends. -/
structure Event.WellFormed (e : Event) : Prop where
  tableMap : e.t = rsTableMapEvent → ∃ m, e.Maps m
  query : e.handler = some .query → ∀ q, e.query = some q → 0 ∈ q.db

/-- A binlog: its first file, and all events with the changes of file between them. -/
structure Binlog where
  first : DumpFile
  num : UInt32
  items : List Item

def Binlog.start (log : Binlog) : Place := (log.first, rsBinlogMagicNumLen)

structure Binlog.WellFormed (log : Binlog) : Prop where
  names : (log.first :: fileNames log.items).Nodup
  short : ∀ p ∈ places log.start log.items, p.2 < 2 ^ 32
  events : ∀ e, .event e ∈ log.items → e.WellFormed

def Event.listed (tables : Option (List UInt8)) (e : Event) : Bool :=
  ((parseTableMap e.body).bind fun d => (cstr d.db).bind fun db => (cstr d.tb).bind fun tb =>
    filterDecision tables (filterKey db tb)) == some false

def Item.sym (tables : Option (List UInt8)) : Item → Sym
  | .event e => e.sym (e.listed tables)
  | .file _ _ => .other

theorem mem_places {p q : Place} {items : List Item} (h : q ∈ places p items) :
    (q.1 = p.1 ∧ p.2 < q.2) ∨ q.1 ∈ fileNames items := by
  induction items generalizing p with
  | nil => exact absurd h List.not_mem_nil
  | cons i is ih =>
    cases i with
    | event e =>
      have hlen := e.length_bytes
      rcases List.mem_cons.mp h with rfl | h
      · exact Or.inl ⟨rfl, by simp only [Item.next, hlen, rsBinlogEventHeaderLen]; omega⟩
      · exact (ih h).imp_left fun ⟨hfile, hlt⟩ => ⟨hfile, lt_of_le_of_lt (Nat.le_add_right ..) hlt⟩
    | file name num =>
      refine Or.inr (List.mem_cons.mpr ?_)
      rcases List.mem_cons.mp h with rfl | h
      · exact Or.inl rfl
      · exact (ih h).imp_left And.left

theorem places_nodup {p : Place} {items : List Item} (h : (p.1 :: fileNames items).Nodup) :
    (p :: places p items).Nodup := by
  induction items generalizing p with
  | nil => exact List.nodup_singleton p
  | cons i is ih =>
    obtain ⟨hp, hnames⟩ := List.nodup_cons.mp h
    cases i with
    | event e =>
      refine List.nodup_cons.mpr ⟨fun hmem => ?_, ih h⟩
      rcases mem_places hmem with ⟨-, hlt⟩ | hname
      · exact absurd hlt (lt_irrefl _)
      · exact hp hname
    | file name num =>
      refine List.nodup_cons.mpr ⟨fun hmem => ?_, ih hnames⟩
      rcases mem_places hmem with ⟨-, hlt⟩ | hname
      · exact absurd hlt (lt_irrefl _)
      · exact hp hname

theorem splitAt_append {p : Place} {before after : List Item}
    (h : (p :: places p (before ++ after)).Nodup) :
    splitAt (before.foldl Item.next p) p (before ++ after) = some (before, after) := by
  induction before generalizing p with
  | nil => cases after <;> exact if_pos rfl
  | cons i is ih =>
    obtain ⟨hp, hrest⟩ := List.nodup_cons.mp h
    have hmem (q : Place) (js : List Item) : js.foldl Item.next q ∈ q :: places q (js ++ after) := by
      induction js generalizing q with
      | nil => exact List.mem_cons_self ..
      | cons j js ihj => exact List.mem_cons_of_mem _ (ihj (j.next q))
    have hne : p ≠ is.foldl Item.next (i.next p) := by
      intro heq
      have htarget := hmem (i.next p) is
      rw [← heq] at htarget
      exact hp htarget
    rw [List.cons_append, List.foldl_cons, splitAt, if_neg hne, ih hrest]
    rfl

variable {s s' t : Session} {i : Item} {e : Event} {items : List Item} {tables : Option (List UInt8)}

theorem EventStep.sym_eq {rd : RsReqdumpData} (hwf : e.WellFormed) (h : EventStep rd e s') :
    e.sym (!s'.rd.binlogInfo.filter) = e.sym (e.listed rd.filterTables) := by
  by_cases ht : e.t = rsTableMapEvent
  · obtain ⟨m, hmap⟩ := hwf.tableMap ht
    obtain ⟨d, hd⟩ := h.parseTableMap hmap
    have hfilter := (h.describes_map hmap).2
    obtain ⟨-, reserved, nullable, hres, hbody⟩ := hmap
    obtain ⟨hdb, htb, -⟩ := parseTableMap_layout hres (hbody ▸ hd)
    have hlisted : e.listed rd.filterTables = !s'.rd.binlogInfo.filter := by
      rw [Event.listed, hd, Option.bind_some, hdb, htb, cstr_append m.db_noNul, Option.bind_some,
        cstr_append m.tb_noNul, Option.bind_some, hfilter]
      cases s'.rd.binlogInfo.filter <;> rfl
    rw [hlisted]
  · exact Event.sym_eq ht _ _

structure ItemStep (s : Session) (i : Item) (s' : Session) : Prop where
  idle : s'.rd.Idle
  place : s'.rd.place = i.next s.rd.place
  tables : s'.rd.filterTables = s.rd.filterTables
  flags : s'.rd.flags = s.rd.flags.step (i.sym s.rd.filterTables)
  waiting : s'.rd.ring ≠ s.rd.ring → s'.waiting = false
  ring : s'.rd.ring = s.rd.ring ∧
      ¬ (i.sym s.rd.filterTables = .rows ∧ s.rd.binlogInfo.filter = false) ∨
    ∃ m, s'.rd.ring = s.rd.ring ++ [m] ∧ m.place = s'.rd.place ∧ s'.rd.binlogInfo.filter = false ∧
      (m.mev ≠ 0 ↔ i.sym s.rd.filterTables = .rows ∧ s.rd.binlogInfo.filter = false)

theorem EventStep.waiting {rd : RsReqdumpData} (h : EventStep rd e s') (hput : s'.rd.ring ≠ rd.ring) :
    s'.waiting = false := by
  cases h with
  | unknown hh => rfl
  | stopped hh hid => exact absurd rfl hput
  | handled hh he hpos => rfl

theorem sessionStep_item (hidle : s.rd.Idle) (hwf : ∀ e, i = .event e → e.WellFormed)
    (hshort : (i.next s.rd.place).2 < 2 ^ 32) (h : sessionStep s i = some s') : ItemStep s i s' := by
  cases i with
  | file name num =>
    obtain rfl := Option.some.inj h
    exact ⟨⟨hidle.mev, hidle.sent, hidle.skip, hidle.flush⟩, rfl, rfl, rfl, fun _ => rfl,
      Or.inl ⟨rfl, nofun⟩⟩
  | event e =>
    obtain ⟨-, he⟩ := sessionStep_event hidle h
    have hplace : s'.rd.place = Item.next s.rd.place (.event e) := by
      have hlen := e.length_bytes
      simp only [Item.next, RsReqdumpData.place, hlen, rsBinlogEventHeaderLen] at hshort ⊢
      rw [he.kept.1, he.dumpPos, UInt32.toNat_add, e.el_toNat, rsBinlogEventHeaderLen,
        Nat.mod_eq_of_lt hshort]
    have hflags := he.flags
    rw [he.sym_eq (hwf e rfl)] at hflags
    refine ⟨he.idle hidle, hplace, he.kept.2.2.1, hflags, he.waiting, ?_⟩
    rw [Item.sym, Event.sym_rows_iff]
    rcases he.ring with ⟨m, hrows, hfilter, hmsg, hring⟩ | ⟨hfilter, hring⟩
    · obtain ⟨hfile, hpos, hmev⟩ := RsReqdumpData.rowMessage_spec hmsg
      refine Or.inr ⟨m, hring, ?_, ?_, iff_of_true (hmev ▸ hrows.ne_zero) ⟨hrows, hfilter⟩⟩
      · rw [Message.place, hfile, hpos, ← he.dumpPos, ← he.kept.1]
        rfl
      · rw [Event.sym_rows_iff.mpr hrows] at hflags
        have := congrArg Flags.filter hflags
        simpa [RsReqdumpData.flags, Flags.step, hfilter] using this
    · have hnot : ¬ (IsRowsEvent e.t ∧ s.rd.binlogInfo.filter = false) := fun hc =>
        absurd (hfilter hc.1) (by rw [hc.2]; decide)
      rcases hring with hring | ⟨hring, hopen⟩
      · exact Or.inl ⟨hring, hnot⟩
      · exact Or.inr ⟨_, hring, rfl, hopen, iff_of_false (fun h => h rfl) hnot⟩

/-- The row messages of a part of the log, by their places: those that the filter on its own
lets through. -/
theorem rows_of_run (hidle : s.rd.Idle) (hwf : ∀ e, .event e ∈ items → e.WellFormed)
    (hshort : ∀ p ∈ places s.rd.place items, p.2 < 2 ^ 32) (hrun : exec sessionStep s items = some t) :
    ∃ ms, t.rd.ring = s.rd.ring ++ ms ∧ (rowsOf ms).map Message.place =
      pick (places s.rd.place items) (s.rd.flags.trace (items.map (Item.sym s.rd.filterTables))) := by
  induction items generalizing s with
  | nil =>
    obtain rfl := Option.some.inj hrun
    exact ⟨[], (List.append_nil _).symm, rfl⟩
  | cons i is ih =>
    obtain ⟨m, hm, hrest⟩ := Option.bind_eq_some_iff.mp hrun
    have hi := sessionStep_item hidle (fun e he => hwf e (he ▸ List.mem_cons_self ..))
      (hshort _ (List.mem_cons_self ..)) hm
    obtain ⟨ms, hring, hrows⟩ := ih hi.idle (fun e he => hwf e (List.mem_cons_of_mem _ he))
      (hi.place ▸ fun p hp => hshort p (List.mem_cons_of_mem _ hp)) hrest
    rw [hi.place, hi.flags, hi.tables] at hrows
    rw [List.map_cons, places, Flags.trace, pick]
    rcases hi.ring with ⟨hsame, hnot⟩ | ⟨x, hput, hplace, -, hmev⟩
    · refine ⟨ms, hsame ▸ hring, ?_⟩
      rw [hrows, if_neg (by simpa [RsReqdumpData.flags] using hnot)]
    · refine ⟨x :: ms, by rw [hring, hput, List.append_assoc]; rfl, ?_⟩
      have hcond : (decide (i.sym s.rd.filterTables = .rows) && !s.rd.flags.filter) = true ↔
          x.mev ≠ 0 := by
        rw [hmev]
        simp [RsReqdumpData.flags]
      by_cases hx : x.mev = 0
      · rw [if_neg (fun hc => hcond.mp hc hx), ← hrows, rowsOf, List.filter_cons_of_neg (by simpa using hx)]
        rfl
      · rw [if_pos (hcond.mpr hx), ← hrows, rowsOf, List.filter_cons_of_pos (by simpa using hx),
          List.map_cons, hplace, hi.place]
        rfl

theorem state_of_run (hs : s.rd.Idle) (hwf : ∀ e, .event e ∈ items → e.WellFormed)
    (hshort : ∀ p ∈ places s.rd.place items, p.2 < 2 ^ 32) (hrun : exec sessionStep s items = some t) :
    t.rd.Idle ∧ t.rd.place = items.foldl Item.next s.rd.place ∧ t.rd.filterTables = s.rd.filterTables ∧
      t.rd.flags = (items.map (Item.sym s.rd.filterTables)).foldl Flags.step s.rd.flags := by
  induction items generalizing s with
  | nil =>
    obtain rfl := Option.some.inj hrun
    exact ⟨hs, rfl, rfl, rfl⟩
  | cons i is ih =>
    obtain ⟨a, hsa, hat⟩ := Option.bind_eq_some_iff.mp hrun
    have hi := sessionStep_item hs (fun e he => hwf e (he ▸ List.mem_cons_self ..))
      (hshort _ (List.mem_cons_self ..)) hsa
    obtain ⟨hidle, hplace, htables, hflags⟩ := ih hi.idle
      (fun e he => hwf e (List.mem_cons_of_mem _ he))
      (hi.place ▸ fun p hp => hshort p (List.mem_cons_of_mem _ hp)) hat
    refine ⟨hidle, by rw [hplace, hi.place]; rfl, htables.trans hi.tables, ?_⟩
    rw [hflags, hi.tables, hi.flags]
    rfl

theorem length_places (p : Place) (items : List Item) : (places p items).length = items.length := by
  induction items generalizing p with
  | nil => rfl
  | cons i is ih => rw [places, List.length_cons, List.length_cons, ih]

theorem places_append (p : Place) (before after : List Item) :
    places p (before ++ after) = places p before ++ places (before.foldl Item.next p) after := by
  induction before generalizing p with
  | nil => rfl
  | cons i is ih => rw [List.cons_append, places, places, ih, List.cons_append, List.foldl_cons]

end MySQLSyncer.Master
