import MySQLSyncer.Slave.ChunkedIo

/-! # From the ring of the master to the memory of the slave

The relay with the chunks into which the slave receives. What the other thread of the slave reads are
the messages that were taken from the ring of the master, byte for byte, when the pool has a class
for the length of each.
-/
namespace MySQLSyncer.Slave
open Lib MySQLSyncer.Core MySQLSyncer.Master

/-- `defined` is lost as in `Relay`, and when a class is looked for that the table does not have. -/
structure ChunkedRelay where
  dump : DumpThread
  wire : List UInt8
  slave : ChunkedIo
  defined : Bool

inductive ChunkedRelayAct where
  | dump (a : DumpAct)
  | slot (answer : ℕ)
  | read (chunk : List UInt8) (answer : ℕ)
  | consume

def ChunkedRelay.init (sendSize recvSize : UInt32) (pos : ℕ) (msgs : StoredMessages) : ChunkedRelay :=
  ⟨DumpThread.init sendSize, [], ⟨(Relay.init sendSize recvSize pos).io, msgs⟩, true⟩

def ChunkedRelay.list (t : ChunkedRelay) : Relay := ⟨t.dump, t.wire, t.slave.io, t.defined⟩

def ChunkedRelay.receive (t : ChunkedRelay) (slave : ChunkedIo) : ChunkedRelay :=
  { t with slave := slave, defined := decide (slave.msgs.ring.phase ≠ .undefined ∧ ¬ slave.io.Overflows) }

def chunkedRelayStep (t : ChunkedRelay) : ChunkedRelayAct → Option ChunkedRelay
  | .dump a => (relayStep t.list (.dump a)).map fun r => { t with dump := r.dump, wire := r.wire,
                                                                  defined := r.defined }
  | .slot answer => if t.defined then (chunkedStep t.slave (.slot answer)).map t.receive else none
  | .read chunk answer => if t.defined ∧ t.slave.io.Waiting ∧ chunk <+: t.wire ∧
        t.slave.io.recvBuf.pos + t.slave.io.recvBuf.bytes.length + chunk.length ≤ t.slave.io.recvBuf.size then
      (chunkedStep t.slave (.read chunk answer)).map { t with wire := t.wire.drop chunk.length }.receive
      else none
  | .consume => if t.defined then (chunkedStep t.slave .consume).map fun slave => { t with slave := slave } else none

structure StoredMessages.Ready (others : List Chunk) (q : List (List UInt8)) (msgs : StoredMessages) : Prop where
  ring : msgs.ring.Inv others
  phase : msgs.ring.phase = .ready
  stores : msgs.Stores q

/-- The messages are relayed, and what the other thread has read and will read are those that were
there before, `held`, and those that are stored. -/
structure ChunkedRelay.Carries (held : List (List UInt8)) (t : ChunkedRelay) : Prop where
  relays : t.list.Relays
  bytes : t.slave.msgs.taken ++ t.slave.msgs.unread = held ++ t.slave.io.stored

structure ChunkedRelay.Inv (recvSize : UInt32) (others : List Chunk) (p : RsPool) (held : List (List UInt8))
    (t : ChunkedRelay) : Prop where
  relay : t.list.Inv recvSize
  fits : ∀ m ∈ t.dump.taken ++ t.dump.ring, p.Fits m.length
  slave : ∃ q, t.slave.Inv others p q ∧ t.slave.msgs.taken ++ q = held ++ t.slave.io.stored

variable {sendSize recvSize : UInt32} {others : List Chunk} {p : RsPool}
    {held q : List (List UInt8)} {t u : ChunkedRelay}
  {s v : ChunkedIo} {msgs : StoredMessages} {data w x chunk : List UInt8} {answer : ℕ} {r : Recv}

/-- A length that is received is that of a message that was taken. -/
theorem ChunkedRelay.Inv.storable {b : RsBuf} (h : t.Inv recvSize others p held)
    (hflow : t.slave.io.stored.flatMap frame ++ (w ++ x) = t.dump.taken.flatMap frame)
    (hdel : Delivers w 4 (.ret .ok data b)) : Storable p data := by
  obtain ⟨rfl, hlen⟩ := hdel
  obtain ⟨m, hm, hann⟩ := h.relay.announced h.relay.short hflow (by rw [List.length_append]; omega)
  rw [announced_append hlen] at hann
  have hrange := (h.relay.taken_range hm).1
  have hpos := hrange.1
  have hlt := hrange.2
  refine ⟨by omega, by omega, ?_⟩
  rw [hann]
  exact h.fits m (List.mem_append_left _ hm)

theorem ChunkedRelay.Inv.announces_slot (h : t.Inv recvSize others p held) (hp : t.slave.io.phase = .ready)
    (hdata : t.slave.Announces data (.slot answer)) : Storable p data := by
  obtain ⟨b, hr⟩ := hdata
  have hio := h.relay.live (by rw [ChunkedRelay.list, hp]; nofun)
  have hsplit := hio.split
  unfold IoThread.Split at hsplit
  rw [ChunkedRelay.list, hp] at hsplit
  have hflow := h.relay.flow
  rw [ChunkedRelay.list, hsplit, List.append_assoc] at hflow
  obtain ⟨hdel, -⟩ := rsRecvTmpbuf_delivers (b := t.slave.io.recvBuf) (n := 4) fun hlt => (hio.tiny hlt).1
  rw [hr] at hdel
  exact h.storable hflow hdel

theorem ChunkedRelay.Inv.announces_read (h : t.Inv recvSize others p held) (hwire : chunk <+: t.wire)
    (hdata : t.slave.Announces data (.read chunk answer)) : Storable p data := by
  obtain ⟨copied, s, b, hp, hr⟩ := hdata
  obtain ⟨rest, hrest⟩ := hwire
  have hio := h.relay.live (by rw [ChunkedRelay.list, hp]; nofun)
  have hsplit := hio.split
  unfold IoThread.Split at hsplit
  rw [ChunkedRelay.list, hp] at hsplit
  obtain ⟨hstream, hlen, -⟩ := hsplit
  have hne : chunk ≠ [] := by
    rintro rfl
    simp [rsRecvTmpbufRead] at hr
  obtain ⟨hdel, -⟩ := rsRecvTmpbufRead_delivers hlen (fun hnil => absurd hnil hne) hr
  have hflow := h.relay.flow
  rw [ChunkedRelay.list, hstream, ← hrest] at hflow
  refine h.storable (x := rest ++ t.dump.sendBuf.bytes) ?_ hdel
  rw [← hflow]
  simp only [List.append_assoc]

/-- A step of the receiving thread, as the threads that work on lists take it: what it stores is in
its chunk. -/
structure ChunkedRelay.Receives (others : List Chunk) (p : RsPool) (t u : ChunkedRelay)
    (b : RelayAct) (a : IoAct) : Prop where
  list : relayStep t.list b = some u.list
  io : ioStep t.slave.io a = some u.slave.io
  since : ∀ q, t.slave.Inv others p q → t.slave.Since others p q u.slave
  room : t.slave.msgs.Room
  slots : u.slave.msgs.ring.slots.length = t.slave.msgs.ring.slots.length
  dump : u.dump = t.dump

theorem ChunkedRelay.receive_list (h : s.Inv others p q) (wire : List UInt8) :
    ({ t with wire := wire }.receive s).list = Relay.receive { t.list with wire := wire } (some s.io) := by
  have hphase : s.msgs.ring.phase ≠ .undefined := by
    rw [h.phase]
    cases s.io.phase <;> nofun
  simp [receive, ChunkedRelay.list, Relay.receive, hphase]

theorem ChunkedRelay.Inv.slot_receives (h : t.Inv recvSize others p held)
    (hs : chunkedRelayStep t (.slot answer) = some u) :
    t.slave.io.phase = .ready ∧ ∃ alloc, t.Receives others p u (.slot alloc) (.slot alloc) := by
  obtain ⟨hdef, hs⟩ := Option.ite_none_right_eq_some.mp hs
  obtain ⟨s, hstep, rfl⟩ := Option.map_eq_some_iff.mp hs
  obtain ⟨q, hq, -⟩ := h.slave
  obtain ⟨hp, hring⟩ := Option.ite_none_right_eq_some.mp hstep
  obtain ⟨ring, hring, -⟩ := Option.bind_eq_some_iff.mp hring
  have hslot (q : List (List UInt8)) (hq : t.slave.Inv others p q) := hq.slot (fun data => h.announces_slot hp) hstep
  obtain ⟨⟨new, -, -, hinv⟩, alloc, hio⟩ := hslot q hq
  refine ⟨hp, alloc, ?_, hio, fun q hq => (hslot q hq).1, (slotStep_slot_keeps hring).1,
      chunkedStep_length hstep, rfl⟩
  have hlist : relayStep t.list (.slot alloc) = some (t.list.receive (ioStep t.slave.io (.slot alloc))) :=
    if_pos ⟨hdef, hp⟩
  rw [hlist, hio]
  exact congrArg some (ChunkedRelay.receive_list hinv t.wire).symm

theorem ChunkedRelay.Inv.read_receives (h : t.Inv recvSize others p held)
    (hs : chunkedRelayStep t (.read chunk answer) = some u) :
    t.slave.io.Waiting ∧ ∃ alloc, t.Receives others p u (.read chunk alloc) (.read chunk alloc) := by
  obtain ⟨hcond, hs⟩ := Option.ite_none_right_eq_some.mp hs
  obtain ⟨s, hstep, rfl⟩ := Option.map_eq_some_iff.mp hs
  obtain ⟨q, hq, -⟩ := h.slave
  have hread (q : List (List UInt8)) (hq : t.slave.Inv others p q) :=
    hq.read (fun data => h.announces_read hcond.2.2.1) hstep
  obtain ⟨⟨new, -, -, hinv⟩, alloc, hio⟩ := hread q hq
  refine ⟨hcond.2.1, alloc, ?_, hio, fun q hq => (hread q hq).1, hq.room hcond.2.1,
    chunkedStep_length hstep, rfl⟩
  have hlist : relayStep t.list (.read chunk alloc) = some (Relay.receive
      { t.list with wire := t.wire.drop chunk.length } (ioStep t.slave.io (.read chunk alloc))) := if_pos hcond
  rw [hlist, hio]
  exact congrArg some (ChunkedRelay.receive_list hinv _).symm

theorem ChunkedRelay.Receives.inv {b : RelayAct} {a : IoAct} (hr : t.Receives others p u b a)
    (h : t.Inv recvSize others p held) (hrelay : u.list.Inv recvSize) : u.Inv recvSize others p held := by
  obtain ⟨q, hq, hheld⟩ := h.slave
  obtain ⟨new, hstored, htaken, hinv⟩ := hr.since q hq
  refine ⟨hrelay, hr.dump.symm ▸ h.fits, q ++ new, hinv, ?_⟩
  rw [htaken, ← List.append_assoc, hheld, List.append_assoc, ← hstored]

theorem ChunkedRelay.Inv.slot (h : t.Inv recvSize others p held) (hs : chunkedRelayStep t (.slot answer) = some u) :
    u.Inv recvSize others p held := by
  obtain ⟨-, alloc, hr⟩ := h.slot_receives hs
  exact hr.inv h (h.relay.slot hr.list)

theorem ChunkedRelay.Inv.read (h : t.Inv recvSize others p held)
    (hs : chunkedRelayStep t (.read chunk answer) = some u) :
    u.Inv recvSize others p held := by
  obtain ⟨-, alloc, hr⟩ := h.read_receives hs
  exact hr.inv h (h.relay.read hr.list)

theorem ChunkedRelay.Inv.consume (h : t.Inv recvSize others p held) (hs : chunkedRelayStep t .consume = some u) :
    u.Inv recvSize others p held := by
  obtain ⟨hdef, hs⟩ := Option.ite_none_right_eq_some.mp hs
  obtain ⟨s, hstep, rfl⟩ := Option.map_eq_some_iff.mp hs
  obtain ⟨q, hq, hheld⟩ := h.slave
  obtain ⟨hio, m, r, rfl, htaken, hinv⟩ := hq.consume hstep
  have hlist : ({ t with slave := s } : ChunkedRelay).list = t.list := by rw [ChunkedRelay.list, hio]; rfl
  refine ⟨hlist ▸ h.relay, h.fits, r, hinv, ?_⟩
  change s.msgs.taken ++ r = held ++ s.io.stored
  rw [htaken, hio, List.append_assoc]
  exact hheld

theorem ChunkedRelay.Inv.dump {a : DumpAct} (h : t.Inv recvSize others p held)
    (ha : ∀ m ∈ a.puts, InRange m ∧ m.length ≤ recvSize.toNat ∧ p.Fits m.length)
    (hs : chunkedRelayStep t (.dump a) = some u) : u.Inv recvSize others p held := by
  obtain ⟨r, hr, rfl⟩ := Option.map_eq_some_iff.mp hs
  obtain ⟨hmessages, hio⟩ := relayStep_dump hr
  have hlist : ({ t with dump := r.dump, wire := r.wire, defined := r.defined } : ChunkedRelay).list = r := by
    change (⟨r.dump, r.wire, t.list.io, r.defined⟩ : Relay) = r
    rw [← hio]
  refine ⟨hlist.symm ▸ h.relay.dump (fun m hm => ⟨(ha m hm).1, (ha m hm).2.1⟩) hr, fun m hm => ?_, h.slave⟩
  rw [hmessages] at hm
  rcases List.mem_append.mp hm with hm | hm
  · exact h.fits m hm
  · exact (ha m hm).2.2

theorem ChunkedRelay.Inv.put {m : List UInt8} (h : t.Inv recvSize others p held) (hrange : InRange m)
    (hsize : m.length ≤ recvSize.toNat) (hfits : p.Fits m.length) :
    ({ t with dump.ring := t.dump.ring ++ [m] } : ChunkedRelay).Inv recvSize others p held := by
  have hstep : chunkedRelayStep t (.dump (.put m)) = some { t with dump.ring := t.dump.ring ++ [m] } := by
    have hdef : t.defined = true := h.relay.defined
    have hinside : t.dump.phase ≠ .undefined := h.relay.inside
    simp [chunkedRelayStep, relayStep, dumpStep, ChunkedRelay.list, hdef, hinside]
  refine h.dump (fun b hb => ?_) hstep
  obtain rfl := List.mem_singleton.mp hb
  exact ⟨hrange, hsize, hfits⟩

theorem ChunkedRelay.Inv.step {a : ChunkedRelayAct} (h : t.Inv recvSize others p held)
    (ha : ∀ m, a = .dump (.put m) → InRange m ∧ m.length ≤ recvSize.toNat ∧ p.Fits m.length)
    (hs : chunkedRelayStep t a = some u) : u.Inv recvSize others p held := by
  cases a with
  | dump a =>
    refine h.dump (fun m hm => ?_) hs
    cases a with
    | put m' =>
      obtain rfl := List.mem_singleton.mp hm
      exact ha m rfl
    | _ => cases hm
  | slot answer => exact h.slot hs
  | read chunk answer => exact h.read hs
  | consume => exact h.consume hs

theorem ChunkedRelay.init_inv (sendSize recvSize : UInt32) (pos : ℕ) (h : msgs.Ready others q)
    (htable : p.SameTable msgs.ring.use.pool) :
    (ChunkedRelay.init sendSize recvSize pos msgs).Inv recvSize others p (msgs.taken ++ q) where
  relay := Relay.init_inv sendSize recvSize pos
  fits := nofun
  slave := ⟨q, ⟨fun _ => h.ring, htable, h.phase, h.stores, fun hwait => hwait.elim, nofun⟩, (List.append_nil _).symm⟩

theorem ChunkedRelay.Inv.carries (h : t.Inv recvSize others p held) : t.Carries held := by
  obtain ⟨q, hq, hheld⟩ := h.slave
  exact ⟨h.relay.relays, hq.stores.unread_eq.symm ▸ hheld⟩

/-- In every run on one connection the other thread of the slave reads the messages that the master
took from its ring, when the pool of the slave has a class for the length of each. -/
theorem carries_of_fits (sendSize recvSize : UInt32) (pos : ℕ)
    (hready : msgs.Ready others q) {as : List ChunkedRelayAct}
    (hput : ∀ m, .dump (.put m) ∈ as → Fits sendSize recvSize m ∧ InRange m ∧ msgs.ring.use.pool.Fits m.length)
    (hrun : exec chunkedRelayStep (ChunkedRelay.init sendSize recvSize pos msgs) as = some t) :
    t.Carries (msgs.taken ++ msgs.unread) := by
  have hok : Along chunkedRelayStep (fun _ a => ∀ m, a = .dump (.put m) →
      InRange m ∧ m.length ≤ recvSize.toNat ∧ msgs.ring.use.pool.Fits m.length)
      (ChunkedRelay.init sendSize recvSize pos msgs) as := by
    refine along_of_mem (fun a ha _ m hm => ?_) _
    obtain ⟨hfits, hrange, hpool⟩ := hput m (hm ▸ ha)
    exact ⟨hrange, hfits.2, hpool⟩
  rw [hready.stores.unread_eq]
  exact (exec_invariant_along _ (fun _ _ _ h ha hs => h.step ha hs)
    (ChunkedRelay.init_inv sendSize recvSize pos hready (.refl _)) hok hrun).carries

def StoredMessages.opened (use : PoolUse) (mem : Memory UInt8) (num : ℕ) : StoredMessages :=
  { StoredMessages.init use mem num with ring := { MessageSlots.init use num with phase := .ready } }

theorem StoredMessages.opened_ready {use : PoolUse} (h : use.Inv) (mem : Memory UInt8) (num : ℕ) :
    (StoredMessages.opened use mem num).Ready use.live [] where
  ring := (MessageSlots.init_inv h num).connect rfl
  phase := rfl
  stores :=
    { wp := (Nat.zero_mod _).symm
      lens := by simp [opened, init, MessageSlots.init]
      used := rfl
      le := ⟨le_rfl, Nat.zero_le _⟩
      holds := nofun }

/-- The pool of the slave with its default settings, before the first message. -/
def defaultMessages (num : ℕ) : StoredMessages := .opened ⟨defaultPool, []⟩ (fun _ => 0) num

theorem defaultMessages_ready (num : ℕ) : (defaultMessages num).Ready [] [] :=
  StoredMessages.opened_ready (rsCreatePool_inv (by decide) rsCreatePool_default) _ num

/-- Two messages in buffers of 16 bytes, their frames cut by the writes and by the reads. The first is
read when the second is being received. -/
def chunkedRun : List ChunkedRelayAct :=
  [.dump (.put [1, 2, 3]), .slot 0, .dump .get, .dump (.put [4, 5, 6, 7, 8, 9]), .dump .get,
    .dump (.write 2), .read [3] 0, .dump (.write 5), .read [0, 0, 0, 1] 0, .read [2, 3] 0,
    .slot 0, .dump .get, .dump .get, .dump (.write 9), .consume, .read [6, 0, 0, 0, 4, 5, 6, 7, 8] 0,
    .dump (.write 1), .read [9] 0]

theorem carries_chunkedRun :
    (∀ m, .dump (.put m) ∈ chunkedRun → Fits 16 16 m ∧ InRange m ∧ (defaultMessages 2).ring.use.pool.Fits m.length) ∧
    ∃ t, exec chunkedRelayStep (ChunkedRelay.init 16 16 0 (defaultMessages 2)) chunkedRun = some t ∧
      t.slave.msgs.taken = [[1, 2, 3]] ∧ t.slave.msgs.unread = [[4, 5, 6, 7, 8, 9]] ∧ t.Carries [] := by
  have hput : ∀ m, .dump (.put m) ∈ chunkedRun →
      Fits 16 16 m ∧ InRange m ∧ (defaultMessages 2).ring.use.pool.Fits m.length := by
    intro m hm
    have hcases : m = [1, 2, 3] ∨ m = [4, 5, 6, 7, 8, 9] := by simpa [chunkedRun] using hm
    have hroom : ∀ n ∈ [3, 6], n ≤ defaultPool.room n := by decide +kernel
    rcases hcases with rfl | rfl
    · exact ⟨by simp [Fits], by simp [InRange], RsPool.fits_iff_le_room.mpr (hroom 3 (by simp))⟩
    · exact ⟨by simp [Fits], by simp [InRange], RsPool.fits_iff_le_room.mpr (hroom 6 (by simp))⟩
  have hsome : (exec chunkedRelayStep (ChunkedRelay.init 16 16 0 (defaultMessages 2)) chunkedRun).map
      (fun t => (t.slave.msgs.taken, t.slave.msgs.unread)) = some ([[1, 2, 3]], [[4, 5, 6, 7, 8, 9]]) := by
    decide +kernel
  obtain ⟨t, ht, hval⟩ := Option.map_eq_some_iff.mp hsome
  obtain ⟨htaken, hunread⟩ := Prod.mk.inj hval
  exact ⟨hput, t, ht, htaken, hunread, carries_of_fits 16 16 0 (defaultMessages_ready 2) hput ht⟩

def overrunRun : List ChunkedRelayAct :=
  [.dump (.put (List.replicate 160 1)), .dump (.put [2]), .dump .get, .dump .get, .dump .get, .dump (.write 169),
    .slot 0, .read ([160, 0, 0, 0] ++ List.replicate 160 1 ++ [1, 0, 0, 0, 2]) 0, .slot 0]

/-- The message of 160 bytes gets a chunk of 104, and the next one is received into its bytes. -/
theorem not_carries : ¬ ∀ (sendSize recvSize : UInt32) (pos num : ℕ) (as : List ChunkedRelayAct) (t : ChunkedRelay),
    (∀ m, .dump (.put m) ∈ as → Fits sendSize recvSize m ∧ InRange m) →
    exec chunkedRelayStep (ChunkedRelay.init sendSize recvSize pos (defaultMessages num)) as =
        some t → t.Carries [] := by
  intro h
  have hput : ∀ m, .dump (.put m) ∈ overrunRun → Fits 1024 1024 m ∧ InRange m := by
    intro m hm
    simp only [overrunRun, List.mem_cons, List.not_mem_nil, ChunkedRelayAct.dump.injEq,
        DumpAct.put.injEq, reduceCtorEq,
      or_false] at hm
    rcases hm with rfl | rfl
    · rw [Fits, InRange, List.length_replicate]
      decide
    · rw [Fits, InRange, List.length_singleton]
      decide
  have hsome : (exec chunkedRelayStep (ChunkedRelay.init 1024 1024 0 (defaultMessages 2)) overrunRun).map
      (fun t => (t.slave.msgs.taken ++ t.slave.msgs.unread).map (·[104]?)) = some [some 2, none] := by decide +kernel
  have hlist : (exec chunkedRelayStep (ChunkedRelay.init 1024 1024 0 (defaultMessages 2)) overrunRun).map
      (fun t => t.slave.io.stored.map (·[104]?)) = some [some 1, none] := by decide +kernel
  obtain ⟨t, ht, hread⟩ := Option.map_eq_some_iff.mp hsome
  rw [ht, Option.map_some] at hlist
  have hbytes := (h 1024 1024 0 2 _ t hput ht).bytes
  rw [List.nil_append] at hbytes
  rw [hbytes, Option.some.inj hlist] at hread
  simp at hread

end MySQLSyncer.Slave
