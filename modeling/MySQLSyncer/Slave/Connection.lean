import MySQLSyncer.Master.GrowingLog
import MySQLSyncer.Master.MessageRing
import MySQLSyncer.Master.StreamEof
import MySQLSyncer.Slave.ChunkedRelay
import MySQLSyncer.Slave.EndToEnd

/-! # One connection, from the files of the server to the memory of the slave

The reading thread puts its messages in the ring of the session, each in a chunk, from which the dump
thread copies them to the connection. What the other thread of the slave finds in its ring is what the
master serves for the place that was asked for.
-/
namespace MySQLSyncer.Slave
open Lib MySQLSyncer.Core Master

/-- The settings of both programs, with the pool of a new session, its ring in it, and that of a new
process of the slave. -/
structure Settings where
  list : List UInt8
  rbEsusec : UInt32
  serverId : UInt32
  ioSize : UInt32
  sendSize : UInt32
  recvSize : UInt32
  sessionUse : PoolUse
  sessionNum : ℕ
  slaveUse : PoolUse
  slaveNum : ℕ
  session_inv : sessionUse.Inv
  slave_inv : slaveUse.Inv

/-- The server with the reading thread, the messages that this still has to put in the ring, the ring
and what comes behind it. The slave has asked for `file` and `pos`. -/
structure Connection where
  stream : Stream
  pending : List (List UInt8)
  ring : MessageRing
  relay : ChunkedRelay
  file : DumpFile
  pos : UInt32

inductive ConnectionAct where
  | master (a : Act)
  | ring (a : MessageAct)
  | relay (a : ChunkedRelayAct)

/-- The reading thread calls `rs_binlog_create_data` for these messages. -/
def Connection.create (t : Connection) (ms : List Message) : Connection :=
  match ms.mapM sentBytes with
  | some bs => { t with pending := t.pending ++ bs }
  | none => { t with relay.defined := false }

/-- The reading thread is in `rs_binlog_create_data`. -/
def Connection.Busy (t : Connection) : Act → Prop
  | .server _ => False
  | .reader _ => t.pending ≠ []

instance (t : Connection) (a : Act) : Decidable (t.Busy a) :=
  match a with
  | .server _ => isFalse id
  | .reader _ => inferInstanceAs (Decidable (_ ≠ _))

/-- The ring is for the message in front, and the dump thread goes on in `relayStep` only. -/
def Connection.Puts (t : Connection) : MessageAct → Prop
  | .take => t.pending ≠ []
  | .alloc m _ => t.pending.head? = some m
  | .store | .setAdvance | .load => True
  | .getAdvance => False

instance (t : Connection) (a : MessageAct) : Decidable (t.Puts a) :=
  match a with
  | .take => inferInstanceAs (Decidable (_ ≠ _))
  | .alloc _ _ => inferInstanceAs (Decidable (_ = _))
  | .store | .setAdvance | .load => isTrue trivial
  | .getAdvance => isFalse id

def pendingBehind (pending : List (List UInt8)) : MessageAct → List (List UInt8)
  | .setAdvance => pending.tail
  | .take | .alloc _ _ | .store | .load | .getAdvance => pending

def ChunkedRelayAct.IsPut : ChunkedRelayAct → Prop
  | .dump (.put _) => True
  | _ => False

instance : DecidablePred ChunkedRelayAct.IsPut
  | .dump (.put _) => isTrue trivial
  | .dump .get | .dump (.write _) | .dump .writeFails | .dump
        (.select _) | .slot _ | .read _ _ | .consume => isFalse id

/-- Only the reading thread puts messages in the ring. The slot of a message is free again when the
dump thread has it in its buffer. -/
def connectionStep (t : Connection) : ConnectionAct → Option Connection
  | .master a => if t.Busy a then none else (streamStep t.stream a).map fun s =>
      Connection.create { t with stream := s } (s.sys.reader.rd.ring.drop t.stream.sys.reader.rd.ring.length)
  | .ring a => if t.Puts a then
      (messageStep t.ring a).map fun ring => { t with ring := ring, pending := pendingBehind t.pending a } else none
  | .relay a => if a.IsPut then none else
      (chunkedRelayStep { t.relay with dump.ring := t.ring.front } a).bind fun r =>
        if r.dump.taken = t.relay.dump.taken then some { t with relay := r }
        else (getAdvance t.ring).map fun ring => { t with ring := ring, relay := r }

/-- A new session, with any memory, and a new connection of a slave with these messages. -/
def Connection.init (s : Settings) (d : Disk) (mem : Memory UInt8) (p : ℕ) (msgs : StoredMessages) (file : DumpFile)
    (pos : UInt32) : Connection :=
  ⟨Stream.init d s.ioSize file pos (filterOf s.list) s.serverId, [], MessageRing.init s.sessionUse mem s.sessionNum,
    ChunkedRelay.init s.sendSize s.recvSize p msgs, file, pos⟩

def Connection.SeesAll (t : Connection) : ConnectionAct → Prop
  | .master a => t.stream.SeesAll a
  | .ring _ | .relay _ => True

instance (t : Connection) (a : ConnectionAct) : Decidable (t.SeesAll a) :=
  match a with
  | .master _ => inferInstanceAs (Decidable (Stream.SeesAll _ _))
  | .ring _ | .relay _ => isTrue trivial

/-- A message of this length goes through the connection: an `int` holds its length with that of the
frame, the receive buffer holds it, and both pools have a chunk as long. -/
structure Settings.Admits (s : Settings) (n : ℕ) : Prop where
  int : 4 + n < 2 ^ 31
  buffer : n ≤ s.recvSize.toNat
  session : s.sessionUse.pool.Fits n
  slave : s.slaveUse.pool.Fits n

structure Settings.Fitting (s : Settings) (m : Message) : Prop where
  wellFormed : WellFormed m
  pos : 0 < (layout m).length
  admits : s.Admits (layout m).length

/-- Every row message and the position of every place go through the connection, and every transaction
has one statement. -/
structure Settings.Deliverable (s : Settings) (log : Binlog) : Prop extends Servable log s.list s.serverId where
  one : OneStatement (log.syms (filterOf s.list))
  rows : ∀ m ∈ log.rowsUpTo (filterOf s.list) s.serverId log.items.length, s.Admits (layout m).length
  places : ∀ k ≤ log.items.length,
    s.Admits (((log.placeAt k).1.name ++ 44 :: decimal (log.placeAt k).2).length + 2)

variable {s : Settings} {log log' : Binlog} {num pos : UInt32} {file : DumpFile} {m : Message} {ms : List Message} {k p : ℕ}
  {v : Session} {t u : ChunkedRelay} {c e : Connection} {d : Disk} {mem : Memory UInt8} {msgs : StoredMessages}
  {held q : List (List UInt8)}

theorem Settings.Deliverable.of_grows (hg : log.Grows log') (h : s.Deliverable log') : s.Deliverable log := by
  obtain ⟨t, ht⟩ := h.read
  have hrows : ∀ m ∈ log.rowsUpTo (filterOf s.list) s.serverId log.items.length,
      m ∈ log'.rowsUpTo (filterOf s.list) s.serverId log'.items.length := fun m hm => by
    rw [← hg.rowsUpTo le_rfl] at hm
    exact (Binlog.rowsUpTo_prefix h.wellFormed ht hg.length_le).subset hm
  obtain ⟨new, hsyms⟩ := hg.syms (filterOf s.list)
  have hone : OneStatement (log.syms (filterOf s.list) ++ new) := hsyms ▸ h.one
  exact
    { wellFormed := hg.wellFormed h.wellFormed
      names := fun f hf => h.names f (hg.names hf)
      read := hg.read h.read
      short := fun m hm => h.short m (hrows m hm)
      one := hone.of_append
      rows := fun m hm => h.rows m (hrows m hm)
      places := fun k hk => hg.placeAt hk ▸ h.places k (hk.trans hg.length_le) }

theorem Settings.Deliverable.closed (h : s.Deliverable log) : Closed (log.syms (filterOf s.list)) :=
  closed_of_oneStatement h.one

/-- Every message of a session fits that is started where one may be. -/
theorem Settings.Deliverable.fitting (h : s.Deliverable log) (hk : log.Startable (filterOf s.list) s.serverId k)
    (hplace : (startSession file num pos (filterOf s.list) s.serverId).place = log.placeAt k)
    (hv : exec sessionStep ⟨startSession file num pos (filterOf s.list) s.serverId,
        false⟩ (log.items.drop k) = some v)
    (hm : m ∈ v.rd.ring) : s.Fitting m := by
  have hwf := wellFormed_of_served h.toServable h.closed hk hplace hv hm
  have hpos : 0 < (layout m).length := by
    rw [layout_eq, List.length_append, List.length_cons]
    omega
  refine ⟨hwf, hpos, ?_⟩
  by_cases hmev : m.mev = 0
  · obtain ⟨t, ht⟩ := h.read
    obtain ⟨l₁, l₂, hring⟩ := List.append_of_mem hm
    obtain ⟨n, hn, hmplace, -⟩ := published_startable h.wellFormed ht h.closed hk hplace hv hring
    have hadmits := h.places (k + n) hn.le
    rw [← hmplace] at hadmits
    rw [layout, if_pos hmev, List.length_append]
    exact hadmits
  · exact h.rows m (mem_rows_of_served h.toServable h.closed hk hplace hv hm hmev)

theorem chunkedRelayStep_front {a : ChunkedRelayAct} (ha : ¬ a.IsPut)
    (hs : chunkedRelayStep { t with dump.ring := t.dump.ring.take 1 } a = some u) :
    ∃ r, chunkedRelayStep t a = some { u with dump.ring := r } ∧ t.dump.FromFront u.dump r := by
  cases a with
  | dump b =>
    have hputs : b.puts = [] := by
      cases b with
      | put m => exact absurd trivial ha
      | _ => rfl
    obtain ⟨x, hx, rfl⟩ := Option.map_eq_some_iff.mp hs
    obtain ⟨hdef, hx⟩ := Option.ite_none_right_eq_some.mp hx
    obtain ⟨⟨e, sent⟩, he, rfl⟩ := Option.map_eq_some_iff.mp hx
    obtain ⟨r, hr, hfront⟩ := dumpStep_front hputs he
    refine ⟨r, ?_, hfront⟩
    have hdef' : t.list.defined = true := hdef
    rw [chunkedRelayStep, relayStep, if_pos hdef']
    change Option.map _ (Option.map _ (dumpStep t.dump b)) = _
    rw [hr]
    rfl
  | slot answer =>
    obtain ⟨hdef, hs⟩ := Option.ite_none_right_eq_some.mp hs
    obtain ⟨v, hv, rfl⟩ := Option.map_eq_some_iff.mp hs
    exact ⟨t.dump.ring, (if_pos hdef).trans (Option.map_eq_some_iff.mpr ⟨v, hv, rfl⟩), Or.inl ⟨rfl, rfl⟩⟩
  | read chunk answer =>
    obtain ⟨hcond, hs⟩ := Option.ite_none_right_eq_some.mp hs
    obtain ⟨v, hv, rfl⟩ := Option.map_eq_some_iff.mp hs
    exact ⟨t.dump.ring, (if_pos hcond).trans (Option.map_eq_some_iff.mpr ⟨v, hv, rfl⟩), Or.inl ⟨rfl, rfl⟩⟩
  | consume =>
    obtain ⟨hdef, hs⟩ := Option.ite_none_right_eq_some.mp hs
    obtain ⟨v, hv, rfl⟩ := Option.map_eq_some_iff.mp hs
    exact ⟨t.dump.ring, (if_pos hdef).trans (Option.map_eq_some_iff.mpr ⟨v, hv, rfl⟩), Or.inl ⟨rfl, rfl⟩⟩

/-- The threads with the messages of the ring, each as the list of its bytes. -/
def Connection.list (t : Connection) : ChunkedRelay := { t.relay with dump.ring := t.ring.produced.drop t.ring.rn }

structure Connection.Carries (s : Settings) (held : List (List UInt8)) (t : Connection) : Prop where
  ring : t.ring.Inv s.sessionUse.live
  table : s.sessionUse.pool.SameTable t.ring.use.pool
  front : ∀ m k, t.ring.writer = .filling m k → t.pending.head? = some m
  relay : t.list.Inv s.recvSize s.slaveUse.live s.slaveUse.pool held
  messages : t.list.dump.taken ++ t.list.dump.ring ++ t.pending = t.stream.sys.reader.rd.ring.map layout

theorem Connection.create_eq (hms : ∀ m ∈ ms, s.Fitting m) (c : Connection) :
    c.create ms = { c with pending := c.pending ++ ms.map layout } := by
  rw [create, mapM_sentBytes fun m hm => (hms m hm).wellFormed]

@[simp] theorem Connection.create_stream (c : Connection) (ms : List Message) : (c.create ms).stream = c.stream := by
  rw [create]
  split <;> rfl

@[simp] theorem Connection.create_slave (c : Connection) (ms : List Message) :
    (c.create ms).relay.slave = c.relay.slave := by
  rw [create]
  split <;> rfl

@[simp] theorem Connection.create_file (c : Connection) (ms : List Message) : (c.create ms).file = c.file := by
  rw [create]
  split <;> rfl

@[simp] theorem Connection.create_pos (c : Connection) (ms : List Message) : (c.create ms).pos = c.pos := by
  rw [create]
  split <;> rfl

theorem Connection.Carries.pending_ok (h : c.Carries s held) (hfits : ∀ m ∈ c.stream.sys.reader.rd.ring, s.Fitting m)
    {b : List UInt8} (hb : b ∈ c.pending) : 0 < b.length ∧ s.Admits b.length := by
  have hmem : b ∈ c.stream.sys.reader.rd.ring.map layout := h.messages ▸ List.mem_append_right _ hb
  obtain ⟨m, hm, rfl⟩ := List.mem_map.mp hmem
  exact ⟨(hfits m hm).pos, (hfits m hm).admits⟩

theorem Connection.Carries.putStep {a : MessageAct} (h : c.Carries s held)
    (hfits : ∀ m ∈ c.stream.sys.reader.rd.ring, s.Fitting m) (hs : connectionStep c (.ring a) = some e) :
    e.Carries s held := by
  obtain ⟨hputs, hs⟩ := Option.ite_none_right_eq_some.mp hs
  obtain ⟨ring, hring, rfl⟩ := Option.map_eq_some_iff.mp hs
  have hchunk : c.ring.FitsChunk a := by
    cases a with
    | alloc m answer =>
      obtain ⟨hpos, hadmits⟩ := h.pending_ok hfits (List.mem_of_mem_head? hputs)
      exact ⟨List.length_pos_iff.mp hpos, h.table.fits hadmits.session⟩
    | _ => trivial
  have hstep := messageStep_stepped hring
  have hinv := h.ring.step hchunk hring
  have htable := h.table.trans hstep.table
  have hwriter (hne : a ≠ .setAdvance) : pendingBehind c.pending a = c.pending ∧
      ∀ m k, ring.writer = .filling m k → c.pending.head? = some m := by
    refine ⟨?_, fun m k hm => ?_⟩
    · cases a with
      | setAdvance => exact absurd rfl hne
      | _ => rfl
    · rcases hstep.writer m k hm with ⟨j, hj⟩ | ⟨answer, rfl⟩
      · exact h.front m j hj
      · exact hputs
  cases hstep.counts with
  | keeps hne hkeeps =>
    obtain ⟨hproduced, -, hrn, -⟩ := hkeeps
    obtain ⟨hpending, hfront⟩ := hwriter hne
    rw [hpending]
    have hlist : ({ c with ring := ring } : Connection).list = c.list := by
      rw [Connection.list, hproduced, hrn]
      rfl
    exact ⟨hinv, htable, hfront, hlist ▸ h.relay, hlist ▸ h.messages⟩
  | @puts m hm hidle hcounts =>
    obtain ⟨hproduced, -, hrn, -⟩ := hcounts
    obtain ⟨rest, hrest⟩ : ∃ rest, c.pending = m :: rest := List.head?_eq_some_iff.mp (h.front m _ hm)
    obtain ⟨hpos, hadmits⟩ := h.pending_ok hfits (b := m) (by simp [hrest])
    have hlist : ({ c with ring := ring, pending := pendingBehind c.pending .setAdvance } : Connection).list =
        { c.list with dump.ring := c.list.dump.ring ++ [m] } := by
      rw [Connection.list, hproduced, hrn, List.drop_append_of_le_length (h.ring.wn ▸ h.ring.le.1)]
      rfl
    refine ⟨hinv, htable, fun m k hm => ?_, ?_, ?_⟩
    · rw [hidle] at hm
      cases hm
    · rw [hlist]
      exact h.relay.put ⟨hpos, hadmits.int⟩ hadmits.buffer hadmits.slave
    · rw [hlist, ← h.messages, hrest]
      simp [pendingBehind]
  | @gets c hc hgets => exact hputs.elim

theorem Connection.Carries.relayStep {a : ChunkedRelayAct} (h : c.Carries s held)
    (hs : connectionStep c (.relay a) = some e) :
    e.Carries s held ∧ ∃ rest, chunkedRelayStep c.list a = some { e.relay with dump.ring := rest } := by
  obtain ⟨hput, hs⟩ := Option.ite_none_left_eq_some.mp hs
  obtain ⟨r, hr, hs⟩ := Option.bind_eq_some_iff.mp hs
  rw [h.ring.front_eq] at hr
  obtain ⟨rest, hstep, hfront⟩ := chunkedRelayStep_front (t := c.list) hput hr
  have hrelay : ({ r with dump.ring := rest } : ChunkedRelay).Inv s.recvSize s.slaveUse.live s.slaveUse.pool held := by
    refine h.relay.step (fun m hm => ?_) hstep
    subst hm
    exact absurd trivial hput
  split_ifs at hs with htaken
  · obtain rfl := Option.some.inj hs
    have hrest : rest = c.list.dump.ring := by
      rcases hfront with ⟨-, hrest⟩ | ⟨m, -, hm⟩
      · exact hrest
      · rw [htaken] at hm
        exact absurd (congrArg List.length hm) (by simp [Connection.list])
    subst hrest
    refine ⟨⟨h.ring, h.table, h.front, hrelay, ?_⟩, _, hstep⟩
    rw [← h.messages]
    exact congrArg (· ++ _ ++ _) htaken
  · obtain ⟨ring, hget, rfl⟩ := Option.map_eq_some_iff.mp hs
    obtain ⟨m, hring, hm⟩ := hfront.resolve_left fun hsame => htaken hsame.1
    obtain ⟨x, hdrop, -⟩ := h.ring.getAdvance_front hget
    obtain ⟨rfl, rfl⟩ : x = m ∧ c.ring.produced.drop (c.ring.rn + 1) = rest :=
      List.cons.inj (hdrop.symm.trans hring)
    have hinv := h.ring.getAdvance hget
    obtain ⟨y, -, rfl⟩ := h.ring.getAdvance_eq hget
    refine ⟨⟨hinv, h.table, h.front, hrelay, ?_⟩, _, hstep⟩
    rw [← h.messages, hring]
    change r.dump.taken ++ c.ring.produced.drop (c.ring.rn + 1) ++ c.pending = _
    rw [hm]
    simp

def Settings.start (s : Settings) (file : DumpFile) (pos : UInt32) : RsReqdumpData :=
  startSession file file.num pos (filterOf s.list) s.serverId

/-- The thread reads the log from this place, where a session may be started. -/
structure Settings.ReadsFrom (s : Settings) (file : DumpFile) (pos : UInt32) (sys : System) : Prop where
  inv : sys.Inv (s.start file pos)
  asked : ∃ k, sys.disk.log.Startable (filterOf s.list) s.serverId k ∧ sys.disk.log.placeAt k = (file, pos.toNat)
  reads : ∃ skipped, skipped ≠ [] ∧ (∀ p, skipped.foldl Item.next p = (file, startPos pos)) ∧
    sys.Reads (s.start file pos) skipped

/-- The thread reads the log from the place that was asked for. While its messages fit, they are on
their way. -/
structure Connection.Inv (s : Settings) (held : List (List UInt8)) (t : Connection) : Prop where
  reads : s.ReadsFrom t.file t.pos t.stream.sys
  carries : (∀ m ∈ t.stream.sys.reader.rd.ring, s.Fitting m) → t.Carries s held

structure FilesKept (d e : Disk) : Prop where
  grows : d.log.Grows e.log
  small : d.Small → e.Small
  sorted : d.Sorted → e.Sorted
  stopLast : ∀ id, e.StopLast id → d.StopLast id

theorem filesKept {d e : Disk} (h : e = d ∨ ∃ b, serverStep d b = some e) : FilesKept d e := by
  rcases h with rfl | ⟨b, hb⟩
  · exact ⟨.refl _, id, id, fun _ => id⟩
  · exact ⟨serverStep_grows hb, fun h => h.step hb, fun h => h.step hb, fun _ h => h.before hb⟩

theorem Settings.ReadsFrom.step {x y : System} {a : Act} (h : s.ReadsFrom file pos x)
    (hlast : x.disk.StopLast s.serverId)
    (hsees : x.Switches a → ¬ x.Missed) (hs : systemStep x a = some y) :
    s.ReadsFrom file pos y ∧ x.reader.rd.ring <+: y.reader.rd.ring := by
  have hstart : (s.start file pos).Idle := startSession_idle _ _ _ _ _
  obtain ⟨k, hk, hplace⟩ := h.asked
  obtain ⟨skipped, hne, hskipped, hreads⟩ := h.reads
  have hg := (filesKept (systemStep_disk hs)).grows
  have hall (hsw : x.Switches a) : x.AllTaken := (h.inv.allTaken_iff hstart hlast hs hsw).mpr (hsees hsw)
  exact ⟨⟨h.inv.step hstart hs, ⟨k, hk.grows hg, (hg.placeAt hk.le).trans hplace⟩,
    ⟨skipped, hne, hskipped, hreads.step hstart rfl h.inv hall hs⟩⟩, hreads.ring_step hstart h.inv hs⟩

theorem Connection.init_inv (hd : d.Small) (hsorted : d.Sorted) (hk : d.log.Startable (filterOf s.list) s.serverId k)
    (hplace : d.log.placeAt k = (file, pos.toNat)) (hready : msgs.Ready s.slaveUse.live q)
    (htable : s.slaveUse.pool.SameTable msgs.ring.use.pool) :
    (Connection.init s d mem p msgs file pos).Inv s (msgs.taken ++ q) := by
  obtain ⟨f, hf, hbound⟩ := hsorted.boundary hk.le hplace
  have hpos : startPos pos = pos.toNat := if_neg (pos_ne_zero hplace)
  rw [← hpos] at hbound
  exact
    { reads := ⟨System.init_inv hd hf hbound, ⟨k, hk, hplace⟩,
        System.init_reads s.ioSize s.serverId (filterOf s.list) hsorted hf hbound⟩
      carries := fun _ =>
        { ring := MessageRing.init_inv s.session_inv mem s.sessionNum
          table := .refl _
          front := nofun
          relay := ChunkedRelay.init_inv s.sendSize s.recvSize p hready htable
          messages := rfl } }

theorem Connection.Carries.create {stream : Stream} {new : List Message} (h : c.Carries s held)
    (hring : c.stream.sys.reader.rd.ring ++ new = stream.sys.reader.rd.ring) (hnew : ∀ m ∈ new, s.Fitting m) :
    (Connection.create { c with stream := stream } new).Carries s held := by
  rw [create_eq hnew]
  refine ⟨h.ring, h.table, fun m k hm => ?_, h.relay, ?_⟩
  · obtain ⟨rest, hrest⟩ := List.head?_eq_some_iff.mp (h.front m k hm)
    simp [hrest]
  · dsimp only
    rw [← hring, List.map_append, ← h.messages, List.append_assoc _ c.pending]
    rfl

theorem connectionStep_relay {a : ChunkedRelayAct} (hs : connectionStep c (.relay a) = some e) :
    chunkedRelayStep { c.relay with dump.ring := c.ring.front } a = some e.relay := by
  obtain ⟨-, hs⟩ := Option.ite_none_left_eq_some.mp hs
  obtain ⟨r, hr, hs⟩ := Option.bind_eq_some_iff.mp hs
  split_ifs at hs
  · obtain rfl := Option.some.inj hs
    exact hr
  · obtain ⟨ring, -, rfl⟩ := Option.map_eq_some_iff.mp hs
    exact hr

/-- Only the master's steps move the stream, and none changes what was asked for. -/
theorem connectionStep_stream {a : ConnectionAct} (hs : connectionStep c a = some e) :
    e.file = c.file ∧ e.pos = c.pos ∧
    ((∀ b, a ≠ .master b) ∧ e.stream = c.stream ∨ ∃ b, a = .master b ∧ streamStep c.stream b = some e.stream) := by
  cases a with
  | master b =>
    obtain ⟨-, hs⟩ := Option.ite_none_left_eq_some.mp hs
    obtain ⟨stream, hstream, rfl⟩ := Option.map_eq_some_iff.mp hs
    exact ⟨Connection.create_file _ _, Connection.create_pos _ _,
        Or.inr ⟨b, rfl, by rw [Connection.create_stream]; exact hstream⟩⟩
  | ring b =>
    obtain ⟨-, hs⟩ := Option.ite_none_right_eq_some.mp hs
    obtain ⟨ring, -, rfl⟩ := Option.map_eq_some_iff.mp hs
    exact ⟨rfl, rfl, Or.inl ⟨nofun, rfl⟩⟩
  | relay b =>
    obtain ⟨-, hs⟩ := Option.ite_none_left_eq_some.mp hs
    obtain ⟨r, -, hs⟩ := Option.bind_eq_some_iff.mp hs
    split_ifs at hs
    · obtain rfl := Option.some.inj hs
      exact ⟨rfl, rfl, Or.inl ⟨nofun, rfl⟩⟩
    · obtain ⟨ring, -, rfl⟩ := Option.map_eq_some_iff.mp hs
      exact ⟨rfl, rfl, Or.inl ⟨nofun, rfl⟩⟩

theorem connectionStep_asked {a : ConnectionAct} (ha : ∀ b, a ≠ .master b) (hs : connectionStep c a = some e) :
    e.file = c.file ∧ e.pos = c.pos ∧ e.stream = c.stream := by
  obtain ⟨hfile, hpos, ⟨-, hstream⟩ | ⟨b, hb, -⟩⟩ := connectionStep_stream hs
  · exact ⟨hfile, hpos, hstream⟩
  · exact absurd hb (ha b)

theorem Connection.Inv.step {a : ConnectionAct} (h : c.Inv s held) (hlast : c.stream.sys.disk.StopLast s.serverId)
    (hsees : c.SeesAll a) (hs : connectionStep c a = some e) : e.Inv s held := by
  obtain ⟨hfile, hpos, ⟨hother, hstream⟩ | ⟨b, rfl, hstream⟩⟩ := connectionStep_stream hs
  · refine ⟨by rw [hstream, hfile, hpos]; exact h.reads, fun hfits => ?_⟩
    rw [hstream] at hfits
    have hcarries := h.carries hfits
    cases a with
    | master b => exact absurd rfl (hother b)
    | ring b => exact hcarries.putStep hfits hs
    | relay b => exact (hcarries.relayStep hs).1
  · obtain ⟨hreads, new, hnew⟩ := h.reads.step hlast hsees.2 (streamStep_system hsees.1 hstream)
    refine ⟨by rw [hfile, hpos]; exact hreads, fun hfits => ?_⟩
    rw [← hnew] at hfits
    obtain ⟨-, hs⟩ := Option.ite_none_left_eq_some.mp hs
    obtain ⟨stream, hstream', rfl⟩ := Option.map_eq_some_iff.mp hs
    rw [Connection.create_stream] at hnew
    rw [← hnew, List.drop_left]
    exact (h.carries fun m hm => hfits m (List.mem_append_left _ hm)).create hnew fun m hm =>
      hfits m (List.mem_append_right _ hm)

/-- What the master serves for this place from any log that the files grow to: the ring holds the
first messages of it. -/
theorem Connection.Inv.served (h : c.Inv s held) (hlist : SentList s.list)
    (hg : c.stream.sys.disk.log.Grows log) (hlog : s.Deliverable log) :
    ∃ ms, served log s.list s.rbEsusec s.serverId (placeText c.file c.pos) = some (ms.map layout) ∧
      c.stream.sys.reader.rd.ring <+: ms ∧ ∀ m ∈ ms, s.Fitting m := by
  obtain ⟨k, hk, hplace⟩ := h.reads.asked
  obtain ⟨skipped, hne, hskipped, hreads⟩ := h.reads.reads
  have hsmall := hlog.of_grows hg
  obtain ⟨t, ht⟩ := hsmall.read
  -- the session behind the files as they are, and the one that takes all of `log`
  obtain ⟨v, hv, hstart, hrun⟩ := messagesFrom_startable c.file.num hsmall.wellFormed ht hsmall.closed hk hplace
  have hk' := hk.grows hg
  have hplace' := (hg.placeAt hk.le).trans hplace
  obtain ⟨v', hserved, hstart', -, hrun'⟩ := served_startable s.rbEsusec hlog.toServable hlist hlog.closed hk' hplace'
  obtain ⟨new, hnew⟩ := hg.drop hk.le
  have hsplit := hrun'
  rw [hnew] at hsplit
  obtain ⟨w, hw, hrest⟩ := exec_append_eq_some.mp hsplit
  obtain rfl := Option.some.inj (hrun.symm.trans hw)
  have hidle : v.rd.Idle := Reached.idle (startSession_idle _ _ _ _ _) ⟨_, hrun⟩
  exact ⟨v'.rd.ring, hserved, (hreads.ring_prefix hne hskipped hv).trans (ring_of_run hidle hrest),
    fun m hm => hlog.fitting hk' hstart' hrun' hm⟩

theorem Connection.Inv.carried (h : c.Inv s held) (hlist : SentList s.list)
    (hlog : s.Deliverable c.stream.sys.disk.log) :
    c.Carries s held := by
  obtain ⟨ms, -, hring, hfits⟩ := h.served hlist (.refl _) hlog
  exact h.carries fun m hm => hfits m (hring.subset hm)

/-- The slave has stored the first messages that the master serves. -/
theorem Connection.Inv.stored (h : c.Inv s held) (hlist : SentList s.list) (hg : c.stream.sys.disk.log.Grows log)
    (hlog : s.Deliverable log) :
    c.relay.slave.io.stored <+: masterOf log s.list s.rbEsusec s.serverId (placeText c.file c.pos) := by
  obtain ⟨ms, hserved, hring, -⟩ := h.served hlist hg hlog
  have hcarries := h.carried hlist (hlog.of_grows hg)
  rw [masterOf, hserved, Option.getD_some]
  calc c.relay.slave.io.stored <+: c.list.dump.taken := hcarries.relay.relay.relays.stored
    _ <+: c.list.dump.taken ++ c.list.dump.ring := List.prefix_append _ _
    _ <+: c.list.dump.taken ++ c.list.dump.ring ++ c.pending := List.prefix_append _ _
    _ = c.stream.sys.reader.rd.ring.map layout := hcarries.messages
    _ <+: ms.map layout := hring.map layout

theorem connectionStep_files {a : ConnectionAct} (hs : connectionStep c a = some e) :
    FilesKept c.stream.sys.disk e.stream.sys.disk := by
  obtain ⟨-, -, ⟨-, hstream⟩ | ⟨b, rfl, hstream⟩⟩ := connectionStep_stream hs
  · exact filesKept (Or.inl (by rw [hstream]))
  · exact filesKept (streamStep_disk hstream)

def rowText : List UInt8 :=
  placeText numberedFile 107 ++ [10, 23, 44, 100, 46, 97, 0, 1, 0, 0, 0, 3, 0, 0, 0, 0, 97, 0, 0, 0, 0, 0, 1, 0, 1]

end MySQLSyncer.Slave
