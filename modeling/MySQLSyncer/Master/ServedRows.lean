import MySQLSyncer.Master.Published
import MySQLSyncer.Master.Resume

/-! # Sessions that are started at published places

The first session reads the log from its start. Any other one is started at a place that such a
session published. With all these places safe, its row messages are those that the first session
has behind the place, and it publishes only such places again.
-/
namespace MySQLSyncer.Master
open Lib MySQLSyncer.Core

variable {s t u v : Session} {i : Item} {items before after : List Item} {e : Event} {rd r : RsReqdumpData}
  {m : Message} {l₁ l₂ : List Message} {h : Handler} {body : List UInt8}

def Item.Waits (id : UInt32) : Item → Prop
  | .event e => e.handler = some .stop ∧ id = e.svrid
  | .file _ _ => False

theorem sessionStep_waiting (hidle : s.rd.Idle) (hstep : sessionStep s i = some t) :
    t.waiting = true ↔ i.Waits s.rd.serverId := by
  cases i with
  | file name num =>
    obtain rfl := Option.some.inj hstep
    exact iff_of_false nofun id
  | event e =>
    obtain ⟨-, he⟩ := sessionStep_event hidle hstep
    cases he with
    | unknown hh => exact iff_of_false nofun (by simp [Item.Waits, hh])
    | stopped hh hid => exact iff_of_true rfl ⟨hh, hid⟩
    | @handled h r n pos hh heff hpos =>
      refine iff_of_false nofun fun ⟨hstop, hid⟩ => ?_
      obtain rfl := Option.some.inj (hh.symm.trans hstop)
      cases heff with
      | foreignStop hne => exact hne hid

/-- The finish handler puts a message outside a transaction only. -/
theorem rsBinlogFinishHandler_put {code : RsCode} (hmev : rd.binlogInfo.mev = 0)
    (hflush : rd.binlogInfo.flush = false) (h : rsBinlogFinishHandler rd = some (code, r)) :
    r.ring = rd.ring ∨ r.binlogInfo.tran = false := by
  by_cases hpub : rd.binlogInfo.publishes
  · obtain ⟨n, pos, hrun, -⟩ := rsBinlogFinishHandler_eq hmev hflush
    obtain ⟨-, rfl⟩ := Prod.mk.inj (Option.some.inj (hrun.symm.trans h))
    rcases hpub with ⟨htran, -, -⟩ | hf
    · exact Or.inr (Bool.eq_false_of_not_eq_true htran)
    · exact absurd hf (by rw [hflush]; decide)
  · rw [rsBinlogFinishHandler, if_neg hpub] at h
    obtain ⟨-, rfl⟩ := Prod.mk.inj (Option.some.inj h)
    exact Or.inl rfl

/-- A message about the position comes outside a transaction. -/
theorem Effect.position (hidle : rd.Idle) (hh : e.handler = some h)
    (he : Effect (rsBinlogHeaderHandler rd e.head) e.body h r) {t : Turn} (hturn : finishTurn (.ok, r) = some t)
    (ht : t.session = some u) (hput : u.rd.ring = rd.ring ++ [m]) (hmev : m.mev = 0) :
    u.rd.binlogInfo.tran = false := by
  obtain ⟨hclear, hflush⟩ := he.clear (hidle.header e.head)
  rw [finishTurn, if_pos rfl] at hturn
  obtain ⟨⟨code, r'⟩, hfinish, rfl⟩ := Option.map_eq_some_iff.mp hturn
  dsimp only at ht
  split_ifs at ht
  · obtain rfl := Option.some.inj ht
    refine (rsBinlogFinishHandler_put hclear hflush hfinish).resolve_left fun hsame => ?_
    have hm (mev : UInt8) (hmev : h = .rows mev) : mev = e.t := (Event.handler_rows.mp (hmev ▸ hh)).2
    dsimp only at hput
    rw [hsame] at hput
    rcases he.ring hm with ⟨x, mev, rfl, -, hmsg, hring, -⟩ | ⟨-, hring⟩
    · rw [hring, List.append_cancel_left_eq, List.singleton_inj] at hput
      obtain ⟨-, -, hx⟩ := RsReqdumpData.rowMessage_spec hmsg
      rw [← hput, hx] at hmev
      exact (Event.handler_rows.mp hh).1.ne_zero hmev
    · rw [hring] at hput
      simp at hput
  · cases ht

theorem sessionStep_position (hidle : s.rd.Idle) (hstep : sessionStep s (.event e) = some t)
    (hput : t.rd.ring = s.rd.ring ++ [m]) (hmev : m.mev = 0) : t.rd.binlogInfo.tran = false := by
  obtain ⟨hnot, -⟩ := sessionStep_event hidle hstep
  rw [sessionStep, hnot, if_neg Bool.false_ne_true] at hstep
  obtain ⟨a, hturn, ht⟩ := Option.bind_eq_some_iff.mp hstep
  unfold turn at hturn
  cases hh : e.handler with
  | none =>
    simp only [hh, Option.some.injEq] at hturn
    subst hturn
    obtain rfl := Option.some.inj ht
    simp [rsBinlogHeaderHandler] at hput
  | some h =>
    simp only [hh] at hturn
    have hrows (mev : UInt8) (hmev : h = .rows mev) : mev ≠ 0 := (rsBinlogFuncs_rows (hmev ▸ hh)).ne_zero
    unfold runHandler at hturn
    rcases @handler_effect (rsBinlogHeaderHandler s.rd e.head) h e.body hrows with
      ⟨-, -, hwait⟩ | ⟨r, hret, he⟩ | ⟨r, hread, hbody⟩
    · rw [hwait] at hturn
      obtain rfl := Option.some.inj hturn
      obtain rfl := Option.some.inj ht
      simp [rsBinlogHeaderHandler] at hput
    · rw [hret] at hturn
      exact he.position hidle hh hturn ht hput hmev
    · rw [hread] at hturn
      obtain ⟨⟨code, w⟩, hw, hturn⟩ := Option.bind_eq_some_iff.mp hturn
      obtain ⟨rfl, he⟩ := hbody code w hw
      exact he.position hidle hh hturn ht hput hmev

theorem Flags.trace_take (f : Flags) (as : List Sym) (n : ℕ) : f.trace (as.take n) = (f.trace as).take n := by
  induction as generalizing f n with
  | nil => rw [List.take_nil, Flags.trace, List.take_nil]
  | cons a as ih =>
    cases n with
    | zero => rfl
    | succ n => rw [List.take_succ_cons, Flags.trace, Flags.trace, List.take_succ_cons, ih]

theorem NoRowsBeforeMap.take {as : List Sym} (h : NoRowsBeforeMap as) (n : ℕ) : NoRowsBeforeMap (as.take n) := by
  induction as generalizing n with
  | nil => rwa [List.take_nil]
  | cons a as ih =>
    cases n with
    | zero => trivial
    | succ n =>
      cases a with
      | rows => exact h
      | tableMap listed => trivial
      | tran b => exact ih h n
      | other => exact ih h n

namespace Binlog

def placeAt (log : Binlog) (k : ℕ) : Place := (log.items.take k).foldl Item.next log.start

def syms (log : Binlog) (tables : Option (List UInt8)) : List Sym := log.items.map (Item.sym tables)

/-- The session that began at the start of the log, behind the first `k` items. -/
def session (log : Binlog) (tables : Option (List UInt8)) (id : UInt32) (k : ℕ) : Option Session :=
  exec sessionStep ⟨startSession log.first log.num 0 tables id, false⟩ (log.items.take k)

def rowsUpTo (log : Binlog) (tables : Option (List UInt8)) (id : UInt32) (k : ℕ) : List Message :=
  ((log.session tables id k).map fun s => rowsOf s.rd.ring).getD []

def messagesFrom (log : Binlog) (tables : Option (List UInt8)) (id num : UInt32) (file : DumpFile)
    (pos : UInt32) : Option (List Message) :=
  (splitAt (startSession file num pos tables id).place log.start log.items).bind fun (_, after) =>
    (exec sessionStep ⟨startSession file num pos tables id, false⟩ after).map fun t => t.rd.ring

end Binlog

variable {log : Binlog} {tables : Option (List UInt8)} {id num pos : UInt32} {file : DumpFile} {k n : ℕ}

structure Binlog.First (log : Binlog) (tables : Option (List UInt8)) (id : UInt32) (k : ℕ) (b : Session) :
    Prop where
  run : log.session tables id k = some b
  idle : b.rd.Idle
  place : b.rd.place = log.placeAt k
  filterTables : b.rd.filterTables = tables
  serverId : b.rd.serverId = id
  sizes : SameSizes rsBinlogInfoTInit b.rd.binlogInfo
  flags : b.rd.flags = Flags.cold.after ((log.syms tables).take k)

theorem Binlog.WellFormed.sub (hlog : log.WellFormed) (hitems : log.items = before ++ (items ++ after)) :
    (∀ e, .event e ∈ items → e.WellFormed) ∧
      ∀ p ∈ places (before.foldl Item.next log.start) items, p.2 < 2 ^ 32 := by
  have hmem {i : Item} (hi : i ∈ items) : i ∈ log.items := by
    rw [hitems]
    exact List.mem_append_right _ (List.mem_append_left _ hi)
  refine ⟨fun e he => hlog.events e (hmem he), fun p hp => hlog.short p ?_⟩
  rw [hitems, places_append, places_append]
  exact List.mem_append_right _ (List.mem_append_left _ hp)

/-- The first session reaches every place when it reaches the end. -/
theorem Binlog.first_at (hlog : log.WellFormed) (hrun : log.session tables id log.items.length = some t)
    (k : ℕ) : ∃ b, log.First tables id k b := by
  rw [session, List.take_length, ← List.take_append_drop k log.items] at hrun
  obtain ⟨b, hb, -⟩ := exec_append_eq_some.mp hrun
  have hitems : log.items = [] ++ (log.items.take k ++ log.items.drop k) := (List.take_append_drop k log.items).symm
  have hsub := hlog.sub hitems
  obtain ⟨hidle, hplace, htables, hflags⟩ := state_of_run
    (s := ⟨startSession log.first log.num 0 tables id, false⟩) (startSession_idle _ _ _ _ _) hsub.1 hsub.2 hb
  obtain ⟨-, hid, hsizes⟩ := request_of_run (startSession_idle _ _ _ _ _) hb
  refine ⟨b, hb, hidle, hplace, htables, hid, hsizes, hflags.trans ?_⟩
  rw [syms, ← List.map_take]
  rfl

theorem Binlog.First.rowsUpTo {b : Session} (h : log.First tables id k b) :
    log.rowsUpTo tables id k = rowsOf b.rd.ring := by
  rw [Binlog.rowsUpTo, h.run]
  rfl

/-- A session that is started at a safe place takes the same way as the first one, and has the
same row messages. -/
theorem fresh_run (hlog : log.WellFormed) (hrun : log.session tables id log.items.length = some t)
    (hsafe : k = 0 ∨ SafeAt (log.syms tables) k) {b : Session} (hb : log.First tables id k b)
    (hnot : b.waiting = false) (hplace : (startSession file num pos tables id).place = log.placeAt k)
    (hn : k + n ≤ log.items.length) :
    ∃ v, exec sessionStep ⟨startSession file num pos tables id, false⟩ ((log.items.drop k).take n) = some v ∧
      log.rowsUpTo tables id (k + n) = log.rowsUpTo tables id k ++ rowsOf v.rd.ring := by
  obtain ⟨c, hc⟩ := Binlog.first_at hlog hrun (k + n)
  have hbc : exec sessionStep b ((log.items.drop k).take n) = some c := by
    have hwhole := hc.run
    rw [Binlog.session, List.take_add] at hwhole
    obtain ⟨b', hb', hrest⟩ := exec_append_eq_some.mp hwhole
    obtain rfl := Option.some.inj (hb.run.symm.trans hb')
    exact hrest
  have hitems : log.items = log.items.take k ++ ((log.items.drop k).take n ++ (log.items.drop k).drop n) := by
    rw [List.take_append_drop, List.take_append_drop]
  obtain ⟨hwf, hshort⟩ := hlog.sub hitems
  have halike : Alike b.rd (startSession file num pos tables id) := by
    have heq := hplace.trans hb.place.symm
    obtain ⟨hfile, hnum⟩ := Prod.mk.inj heq
    have hsizes := hb.sizes
    exact ⟨hfile, UInt32.toNat_inj.mp hnum, hb.filterTables.symm, hb.serverId.symm, hsizes.db.symm,
      hsizes.tb.symm, hsizes.ct.symm, hsizes.cm.symm, hsizes.sql.symm⟩
  have hsyms : ((log.items.drop k).take n).map (Item.sym b.rd.filterTables) =
      ((log.syms tables).drop k).take n := by
    rw [hb.filterTables, Binlog.syms, List.map_take, List.map_drop]
  have hcold : (startSession file num pos tables id).flags = Flags.cold := rfl
  have hsame : b.rd.flags.trace (((log.syms tables).drop k).take n) =
      (startSession file num pos tables id).flags.trace (((log.syms tables).drop k).take n) ∧
      (SameDescription b.rd.binlogInfo (startSession file num pos tables id).binlogInfo ∨
        NoRowsBeforeMap (((log.syms tables).drop k).take n)) := by
    rcases hsafe with rfl | hsafe
    · obtain rfl := Option.some.inj hb.run
      exact ⟨rfl, Or.inl ⟨rfl, rfl, rfl, rfl⟩⟩
    · rw [hb.flags, hcold, Flags.trace_take, Flags.trace_take, hsafe.trace]
      exact ⟨rfl, Or.inr (hsafe.maps.take n)⟩
  obtain ⟨v, hv, hnew, -⟩ := rows_alike (u := ⟨startSession file num pos tables id, false⟩) hb.idle
    (startSession_idle _ _ _ _ _) halike hnot.symm hwf (by rw [hb.place]; exact hshort)
    (by rw [hsyms]; exact hsame.1) (by rw [hsyms]; exact hsame.2) hbc
  refine ⟨v, hv, ?_⟩
  obtain ⟨ms, hms, -⟩ := rows_of_run hb.idle hwf (by rw [hb.place]; exact hshort) hbc
  have hnewRows : rowsOf v.rd.ring = rowsOf ms := by
    rw [← newRows_of_ring hms, ← hnew]
    rfl
  rw [hc.rowsUpTo, hb.rowsUpTo, hms, rowsOf_append, hnewRows]

/-- A session may be started here: the place is the start of the log or one that was published, and
the first session goes on behind it without a change of file. -/
structure Binlog.Startable (log : Binlog) (tables : Option (List UInt8)) (id : UInt32) (k : ℕ) : Prop where
  starts : StartsAt (log.syms tables) k
  le : k ≤ log.items.length
  reached : ∃ b, log.First tables id k b ∧ b.waiting = false

theorem Binlog.Startable.safe (hk : log.Startable tables id k) (hclosed : Closed (log.syms tables)) :
    k = 0 ∨ SafeAt (log.syms tables) k :=
  (Nat.eq_zero_or_pos k).imp_right fun hpos => hclosed k hk.starts hpos.ne'

theorem Binlog.startable_zero (log : Binlog) (tables : Option (List UInt8)) (id : UInt32) :
    log.Startable tables id 0 where
  starts := .first
  le := Nat.zero_le _
  reached := ⟨⟨startSession log.first log.num 0 tables id, false⟩,
    ⟨rfl, startSession_idle _ _ _ _ _, rfl, rfl, rfl, ⟨rfl, rfl, rfl, rfl, rfl⟩, rfl⟩, rfl⟩

/-- The first session waits behind the same items as any other. -/
theorem Binlog.First.waiting {b : Session} (hlog : log.WellFormed)
    (hrun : log.session tables id log.items.length = some t) (h : log.First tables id (k + 1) b)
    (hi : log.items[k]? = some i) : b.waiting = true ↔ i.Waits id := by
  obtain ⟨a, ha⟩ := Binlog.first_at hlog hrun k
  have hwhole := h.run
  rw [Binlog.session, List.take_add_one, hi] at hwhole
  obtain ⟨a', ha', hrest⟩ := exec_append_eq_some.mp hwhole
  obtain rfl := Option.some.inj (ha.run.symm.trans ha')
  obtain ⟨b', hb', heq⟩ := Option.bind_eq_some_iff.mp hrest
  obtain rfl := Option.some.inj heq
  rw [sessionStep_waiting ha.idle hb', ha.serverId]

/-- In a session that goes on behind `k` items, the last of `n + 1` more puts the message `m` in the
ring, which holds `l₁`. -/
structure Binlog.Puts (log : Binlog) (s : Session) (k n : ℕ) (l₁ : List Message) (m : Message) (i : Item)
    (a c : Session) : Prop where
  item : log.items[k + n]? = some i
  before : exec sessionStep s ((log.items.drop k).take n) = some a
  behind : exec sessionStep s ((log.items.drop k).take (n + 1)) = some c
  step : sessionStep a i = some c
  old : a.rd.ring = l₁
  put : c.rd.ring = a.rd.ring ++ [m]

theorem Binlog.exists_puts (hlog : log.WellFormed) (hs : s.rd.Idle) (hempty : s.rd.ring = [])
    (hplace : s.rd.place = log.placeAt k) (hv : exec sessionStep s (log.items.drop k) = some v)
    (hring : v.rd.ring = l₁ ++ m :: l₂) : ∃ n i a c, log.Puts s k n l₁ m i a c := by
  have hbehind : log.items = log.items.take k ++ (log.items.drop k ++ []) := by
    rw [List.append_nil, List.take_append_drop]
  obtain ⟨hwf, hshort⟩ := hlog.sub hbehind
  obtain ⟨before, i, after, a, c, hitems, ha, hstep, -, hl₁, hc⟩ := putStep_of_run hs hwf
    (by rw [hplace]; exact hshort) hv hring (by rw [hempty]; exact Nat.zero_le _)
  have htake : (log.items.drop k).take (before.length + 1) = before ++ [i] := by
    rw [hitems, List.take_add_one, List.take_left, List.getElem?_append_right le_rfl, Nat.sub_self]
    rfl
  refine ⟨before.length, i, a, c, ?_, ?_, ?_, hstep, hl₁, by rw [hc, hl₁]⟩
  · rw [← List.getElem?_drop, hitems, List.getElem?_append_right le_rfl, Nat.sub_self]
    rfl
  · rw [hitems, List.take_left]
    exact ha
  · rw [htake]
    exact exec_append_eq_some.mpr ⟨a, ha, by rw [exec_cons, hstep]; rfl⟩

namespace Binlog.Puts

variable {a c : Session}

theorem take_eq (h : log.Puts s k n l₁ m i a c) :
    (log.items.drop k).take (n + 1) = (log.items.drop k).take n ++ [i] := by
  rw [List.take_add_one, List.getElem?_drop, h.item]
  rfl

theorem lt (h : log.Puts s k n l₁ m i a c) : k + n < log.items.length := (List.getElem?_eq_some_iff.mp h.item).1

theorem state (hlog : log.WellFormed) (hs : s.rd.Idle) (hplace : s.rd.place = log.placeAt k)
    (h : log.Puts s k n l₁ m i a c) : a.rd.Idle ∧ a.rd.filterTables = s.rd.filterTables ∧ ItemStep a i c ∧
      c.rd.place = log.placeAt (k + (n + 1)) ∧
      c.rd.flags = (((log.syms s.rd.filterTables).drop k).take (n + 1)).foldl Flags.step s.rd.flags := by
  have hitems : log.items = log.items.take k ++ ((log.items.drop k).take (n + 1) ++
      (log.items.drop k).drop (n + 1)) := by
    rw [List.take_append_drop, List.take_append_drop]
  obtain ⟨hwf, hshort⟩ := hlog.sub hitems
  obtain ⟨-, hcplace, -, hflags⟩ := state_of_run hs hwf (by rw [hplace]; exact hshort) h.behind
  rw [h.take_eq] at hwf hshort
  rw [places_append] at hshort
  obtain ⟨hidle, haplace, htables, -⟩ := state_of_run hs (fun e he => hwf e (List.mem_append_left _ he))
    (by rw [hplace]; exact fun p hp => hshort p (List.mem_append_left _ hp)) h.before
  refine ⟨hidle, htables, ?_, ?_, ?_⟩
  · exact sessionStep_item hidle (fun e he => hwf e (he ▸ List.mem_append_right _ (List.mem_singleton_self _)))
      (hshort _ (List.mem_append_right _ (by rw [haplace, hplace]; exact List.mem_cons_self))) h.step
  · rw [hcplace, hplace, Binlog.placeAt, Binlog.placeAt, ← List.foldl_append, ← List.take_add]
  · rw [hflags, Binlog.syms, List.map_take, List.map_drop]

theorem ring_ne (h : log.Puts s k n l₁ m i a c) : c.rd.ring ≠ a.rd.ring := by
  rw [h.put]
  simp

theorem message (h : log.Puts s k n l₁ m i a c) (hitem : ItemStep a i c) : m.place = c.rd.place ∧
    c.rd.binlogInfo.filter = false ∧ (m.mev ≠ 0 ↔ i.sym a.rd.filterTables = .rows ∧
        a.rd.binlogInfo.filter = false) := by
  obtain ⟨m', hput, hmessage⟩ := hitem.ring.resolve_left fun hsame => h.ring_ne hsame.1
  obtain rfl : m = m' := by
    rw [h.put, List.append_cancel_left_eq, List.singleton_inj] at hput
    exact hput
  exact hmessage

/-- The place behind the step is one that a session publishes. -/
theorem publishes (hlog : log.WellFormed) (hs : s.rd.Idle) (hcold : s.rd.flags = Flags.cold)
    (htables : s.rd.filterTables = tables) (hplace : s.rd.place = log.placeAt k) (h : log.Puts s k n l₁ m i a c) :
    PublishesAt (log.syms tables) k (n + 1) := by
  obtain ⟨hidle, hsame, hitem, -, hflags⟩ := h.state hlog hs hplace
  obtain ⟨-, hopen, hmev⟩ := h.message hitem
  have hflags' : c.rd.flags = Flags.cold.after (((log.syms tables).drop k).take (n + 1)) := by
    rw [hflags, hcold, htables]
    rfl
  have hlt := h.lt
  refine ⟨Nat.succ_pos _, ?_, by rw [← hflags']; exact hopen, ?_⟩
  · rw [Binlog.syms, List.length_map]
    omega
  · by_cases hm : m.mev = 0
    · refine Or.inl ?_
      rw [← hflags']
      cases i with
      | event e => exact sessionStep_position hidle h.step h.put hm
      | file name num =>
        obtain rfl := Option.some.inj h.step
        exact absurd rfl h.ring_ne
    · refine Or.inr ?_
      have hsym := (hmev.mp hm).1
      rw [hsame, htables] at hsym
      rw [← Nat.add_assoc, Nat.add_sub_cancel, Binlog.syms, List.getElem?_map, h.item]
      exact congrArg some hsym

theorem reached (hlog : log.WellFormed) (hrun : log.session tables id log.items.length = some t) (hs : s.rd.Idle)
    (hid : s.rd.serverId = id) (hplace : s.rd.place = log.placeAt k) (h : log.Puts s k n l₁ m i a c) :
    ∃ b, log.First tables id (k + (n + 1)) b ∧ b.waiting = false := by
  obtain ⟨hidle, -, hitem, -⟩ := h.state hlog hs hplace
  obtain ⟨b, hb⟩ := Binlog.first_at hlog hrun (k + (n + 1))
  refine ⟨b, hb, Bool.eq_false_of_not_eq_true fun hw => ?_⟩
  have hwaits := (Binlog.First.waiting hlog hrun hb h.item).mp hw
  have haid : a.rd.serverId = id := (request_of_run hs h.before).2.1.trans hid
  have hcw := (sessionStep_waiting hidle h.step).mpr (by rw [haid]; exact hwaits)
  rw [hitem.waiting h.ring_ne] at hcw
  cases hcw

end Binlog.Puts

/-- Every message that a session puts in the ring names a place where a session may be started, and
the first session has the same row messages up to there. -/
theorem published_startable (hlog : log.WellFormed) (hrun : log.session tables id log.items.length = some t)
    (hclosed : Closed (log.syms tables)) (hk : log.Startable tables id k)
    (hplace : (startSession file num pos tables id).place = log.placeAt k)
    (hv : exec sessionStep ⟨startSession file num pos tables id, false⟩ (log.items.drop k) = some v)
    (hring : v.rd.ring = l₁ ++ m :: l₂) :
    ∃ n, log.Startable tables id (k + n) ∧ m.place = log.placeAt (k + n) ∧
      log.rowsUpTo tables id (k + n) = log.rowsUpTo tables id k ++ rowsOf (l₁ ++ [m]) := by
  have hstart : (startSession file num pos tables id).Idle := startSession_idle _ _ _ _ _
  obtain ⟨n, i, a, c, hputs⟩ := Binlog.exists_puts (s := ⟨startSession file num pos tables id, false⟩)
    hlog hstart rfl hplace hv hring
  obtain ⟨b, hb, hnot⟩ := hk.reached
  have hlt := hputs.lt
  obtain ⟨c', hc', hrows⟩ := fresh_run hlog hrun (hk.safe hclosed) hb hnot hplace (n := n + 1) (by omega)
  obtain rfl := Option.some.inj (hputs.behind.symm.trans hc')
  obtain ⟨-, -, hitem, hcplace, -⟩ := hputs.state hlog hstart hplace
  have hcold : (startSession file num pos tables id).flags = Flags.cold := rfl
  have hpublishes : PublishesAt (log.syms tables) k (n + 1) := hputs.publishes hlog hstart hcold rfl hplace
  have hreached := hputs.reached hlog hrun hstart rfl hplace
  exact ⟨n + 1, ⟨.published hk.starts hpublishes, by omega, hreached⟩, (hputs.message hitem).1.trans hcplace,
    by rw [hrows, hputs.put, hputs.old]⟩

theorem Binlog.rowsUpTo_prefix (hlog : log.WellFormed) (hrun : log.session tables id log.items.length = some t)
    {i j : ℕ} (hij : i ≤ j) : log.rowsUpTo tables id i <+: log.rowsUpTo tables id j := by
  obtain ⟨b, hb⟩ := Binlog.first_at hlog hrun i
  obtain ⟨c, hc⟩ := Binlog.first_at hlog hrun j
  obtain ⟨n, rfl⟩ := Nat.exists_eq_add_of_le hij
  have hbc := hc.run
  rw [Binlog.session, List.take_add] at hbc
  obtain ⟨b', hb', hrest⟩ := exec_append_eq_some.mp hbc
  obtain rfl := Option.some.inj (hb.run.symm.trans hb')
  have hitems : log.items = log.items.take i ++ ((log.items.drop i).take n ++ (log.items.drop i).drop n) := by
    rw [List.take_append_drop, List.take_append_drop]
  obtain ⟨hwf, hshort⟩ := hlog.sub hitems
  obtain ⟨ms, hms, -⟩ := rows_of_run hb.idle hwf (by rw [hb.place]; exact hshort) hrest
  rw [hb.rowsUpTo, hc.rowsUpTo, hms, rowsOf_append]
  exact List.prefix_append _ _

theorem fileNames_append (before after : List Item) :
    fileNames (before ++ after) = fileNames before ++ fileNames after := by
  induction before with
  | nil => rfl
  | cons i is ih => cases i <;> simp [fileNames, ih]

theorem Binlog.placeAt_file (log : Binlog) (k : ℕ) : (log.placeAt k).1 ∈ log.first :: fileNames log.items := by
  have hfold (items : List Item) (p : Place) : (items.foldl Item.next p).1 ∈ p.1 :: fileNames items := by
    induction items generalizing p with
    | nil => exact List.mem_cons_self
    | cons i is ih =>
      cases i with
      | event e => exact ih (p.1, p.2 + e.bytes.length)
      | file name num => exact List.mem_cons_of_mem _ (ih (name, rsBinlogMagicNumLen))
  have hnames : fileNames log.items = fileNames (log.items.take k) ++ fileNames (log.items.drop k) := by
    rw [← fileNames_append, List.take_append_drop]
  rcases List.mem_cons.mp (hfold (log.items.take k) log.start) with hfile | hfile
  · rw [Binlog.placeAt, hfile]
    exact List.mem_cons_self
  · rw [hnames]
    exact List.mem_cons_of_mem _ (List.mem_append_left _ hfile)

theorem splitAt_placeAt (hnames : (log.first :: fileNames log.items).Nodup) (k : ℕ) :
    splitAt (log.placeAt k) log.start log.items = some (log.items.take k, log.items.drop k) := by
  have hnodup := places_nodup (p := log.start) hnames
  rw [← List.take_append_drop k log.items] at hnodup
  have h := splitAt_append hnodup
  rwa [List.take_append_drop] at h

theorem Binlog.placeAt_inj (log : Binlog) (hlog : log.WellFormed) {i j : ℕ} (hi : i ≤ log.items.length)
    (hj : j ≤ log.items.length) (h : log.placeAt i = log.placeAt j) : i = j := by
  have hsplit := (splitAt_placeAt hlog.names i).symm.trans (h ▸ splitAt_placeAt hlog.names j)
  have htake := congrArg (fun x => x.1.length) (Option.some.inj hsplit)
  simpa [Nat.min_eq_left hi, Nat.min_eq_left hj] using htake

theorem pos_ne_zero (hplace : log.placeAt k = (file, pos.toNat)) : pos ≠ 0 := by
  rintro rfl
  have hzero : (log.placeAt k).2 = 0 := congrArg Prod.snd hplace
  rcases List.eq_nil_or_concat (log.items.take k) with hnil | ⟨l, i, hl⟩
  · rw [Binlog.placeAt, hnil] at hzero
    cases hzero
  · exact foldl_next_ne_zero (by rw [hl]; simp) log.start hzero

theorem messagesFrom_startable (num : UInt32) (hlog : log.WellFormed)
    (hrun : log.session tables id log.items.length = some t)
    (hclosed : Closed (log.syms tables)) (hk : log.Startable tables id k)
        (hplace : log.placeAt k = (file, pos.toNat)) :
    ∃ v, log.messagesFrom tables id num file pos = some v.rd.ring ∧
      (startSession file num pos tables id).place = log.placeAt k ∧
      exec sessionStep ⟨startSession file num pos tables id, false⟩ (log.items.drop k) = some v := by
  have hpos := pos_ne_zero hplace
  have hstart : (startSession file num pos tables id).place = log.placeAt k :=
    (startSession_place hpos).trans hplace.symm
  obtain ⟨b, hb, hnot⟩ := hk.reached
  have hsafe := hk.safe hclosed
  obtain ⟨v, hv, -⟩ := fresh_run hlog hrun hsafe hb hnot hstart (n := log.items.length - k) (by have := hk.le; omega)
  rw [List.take_of_length_le (by rw [List.length_drop])] at hv
  refine ⟨v, ?_, hstart, hv⟩
  rw [Binlog.messagesFrom, hstart, splitAt_placeAt hlog.names k, Option.bind_some]
  exact congrArg (Option.map fun t => t.rd.ring) hv

/-- With one statement in each transaction, a session that is started where another one published a
position has exactly the row messages that are missing, and each of its messages again names a place
where a session may be started, with exactly the rows up to there. -/
theorem messagesFrom_complete (hlog : log.WellFormed) (hone : OneStatement (log.syms tables))
    (hrun : log.session tables id log.items.length = some t) (hk : log.Startable tables id k)
    (hplace : log.placeAt k = (file, pos.toNat)) :
    ∃ ms, log.messagesFrom tables id num file pos = some ms ∧
      log.rowsUpTo tables id log.items.length = log.rowsUpTo tables id k ++ rowsOf ms ∧
      ∀ l₁ m l₂, ms = l₁ ++ m :: l₂ → ∃ n, log.Startable tables id (k + n) ∧ m.place = log.placeAt (k + n) ∧
        log.rowsUpTo tables id (k + n) = log.rowsUpTo tables id k ++ rowsOf (l₁ ++ [m]) := by
  have hclosed := closed_of_oneStatement hone
  obtain ⟨v, hmessages, hstart, hv⟩ := messagesFrom_startable num hlog hrun hclosed hk hplace
  obtain ⟨b, hb, hnot⟩ := hk.reached
  have hsafe := hk.safe hclosed
  have hle := Nat.add_sub_cancel' hk.le
  obtain ⟨v', hv', hrows⟩ := fresh_run hlog hrun hsafe hb hnot hstart hle.le
  rw [List.take_of_length_le (by rw [List.length_drop])] at hv'
  obtain rfl := Option.some.inj (hv.symm.trans hv')
  rw [hle] at hrows
  exact ⟨v.rd.ring, hmessages, hrows, fun l₁ m l₂ hring =>
    published_startable hlog hrun hclosed hk hstart hv hring⟩

def numberedFile : DumpFile := ⟨[98, 48, 48, 49], by decide, by decide⟩

def sampleXid : Event :=
  ⟨[0, 0, 0, 0, 16, 1, 0, 0, 0, 27, 0, 0, 0, 0, 0, 0, 0, 0, 0], [7, 0, 0, 0, 0, 0, 0, 0], by decide, by decide⟩

def commitLog : Binlog :=
  { first := numberedFile, num := 1
    items := [.event sampleBegin, .event (sampleTableMap 97), .event (sampleRows 97), .event sampleXid] }

theorem commitLog_wellFormed : commitLog.WellFormed := by
  refine wellFormed_of_row (show commitLog.items = _ ++ [.event sampleXid] from rfl) (by decide)
      (by decide) fun e he => ?_
  obtain rfl := Item.event.inj (List.mem_singleton.mp he)
  exact ⟨nofun, nofun⟩

/-- A session that is started behind the row event. -/
theorem messagesFrom_complete_commitLog : commitLog.Startable (some sampleTables) 1 3 ∧
    ∃ ms, commitLog.messagesFrom (some sampleTables) 1 1 numberedFile 107 = some ms ∧
      commitLog.rowsUpTo (some sampleTables) 1 4 = commitLog.rowsUpTo (some sampleTables) 1 3 ++ rowsOf ms ∧
      ∀ l₁ m l₂, ms = l₁ ++ m :: l₂ → ∃ n, commitLog.Startable (some sampleTables) 1 (3 + n) ∧
        m.place = commitLog.placeAt (3 + n) ∧
        commitLog.rowsUpTo (some sampleTables) 1 (3 + n) =
          commitLog.rowsUpTo (some sampleTables) 1 3 ++ rowsOf (l₁ ++ [m]) := by
  obtain ⟨t, ht⟩ : ∃ t, commitLog.session (some sampleTables) 1 commitLog.items.length = some t :=
    Option.isSome_iff_exists.mp (by decide +kernel)
  have hwait : (commitLog.session (some sampleTables) 1 3).map (fun s => s.waiting) = some false := by decide +kernel
  obtain ⟨b, hb⟩ := Binlog.first_at commitLog_wellFormed ht 3
  rw [hb.run] at hwait
  have hpub : PublishesAt (commitLog.syms (some sampleTables)) 0 3 := ⟨by decide, by decide, by decide, by decide⟩
  have hstart : commitLog.Startable (some sampleTables) 1 3 :=
    { starts := .published .first hpub
      le := by decide
      reached := ⟨b, hb, Option.some.inj hwait⟩ }
  exact ⟨hstart, messagesFrom_complete commitLog_wellFormed (by decide) ht hstart rfl⟩

end MySQLSyncer.Master
