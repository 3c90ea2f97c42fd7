import MySQLSyncer.Master.DumpThread
import MySQLSyncer.Slave.Reconnect

/-! # From the ring of the master to the ring of the slave

One connection: the sending thread, the bytes on their way and the receiving thread.
-/
namespace MySQLSyncer.Slave
open Lib MySQLSyncer.Core MySQLSyncer.Master

/-- The two threads with the bytes that are written and not read. `defined` is lost when one of
them accesses memory outside its buffers. -/
structure Relay where
  dump : DumpThread
  wire : List UInt8
  io : IoThread
  defined : Bool
  deriving DecidableEq, Repr

def Relay.init (sendSize recvSize : UInt32) (pos : ℕ) : Relay :=
  ⟨DumpThread.init sendSize, [], ⟨⟨recvSize.toNat, pos, []⟩, .ready, [], []⟩, true⟩

inductive RelayAct where
  | dump (a : DumpAct)
  | slot (alloc : Bool)
  | read (chunk : List UInt8) (alloc : Bool)

/-- The `int32_t` variables `l` and `s` of `rs_recv_tmpbuf` do not hold the number of bytes
that were in the buffer and that are still owed. -/
def IoThread.Overflows (t : IoThread) : Prop :=
  match t.phase with
  | .payload copied s => toInt32 copied.length < 0 ∨ toInt32 s < 0
  | _ => False

instance : DecidablePred IoThread.Overflows := fun t =>
  match h : t.phase with
  | .payload copied s => decidable_of_iff (toInt32 copied.length < 0 ∨ toInt32 s < 0)
      (by rw [IoThread.Overflows, h])
  | .offline | .ready | .length _ _ | .exited => isFalse (by rw [IoThread.Overflows, h]; exact id)

instance : DecidablePred IoThread.Waiting := fun t =>
  match h : t.phase with
  | .length _ _ | .payload _ _ => isTrue (by rw [IoThread.Waiting, h]; trivial)
  | .offline | .ready | .exited => isFalse (by rw [IoThread.Waiting, h]; exact id)

/-- A step of the receiving thread, which is undefined for a length of zero. -/
def Relay.receive (t : Relay) : Option IoThread → Relay
  | none => { t with defined := false }
  | some io => { t with io := io, defined := decide (¬ io.Overflows) }

/-- A step of one of the threads. A read returns some of the bytes on their way, which fit
behind `last`, or none at the end of the stream or on an error. -/
def relayStep (t : Relay) : RelayAct → Option Relay
  | .dump a => if t.defined then
      (dumpStep t.dump a).map fun (d, sent) =>
        { t with dump := d, wire := t.wire ++ sent, defined := decide (d.phase ≠ .undefined) }
      else none
  | .slot alloc => if t.defined ∧ t.io.phase = .ready then
      some (t.receive (ioStep t.io (.slot alloc))) else none
  | .read chunk alloc => if t.defined ∧ t.io.Waiting ∧ chunk <+: t.wire ∧
        t.io.recvBuf.pos + t.io.recvBuf.bytes.length + chunk.length ≤ t.io.recvBuf.size then
      some (Relay.receive { t with wire := t.wire.drop chunk.length } (ioStep t.io (.read chunk alloc)))
      else none

/-- The stored messages are the first of those that were taken. When everything sent has been
received, the others end in the send buffer. -/
structure Relay.Relays (t : Relay) : Prop where
  defined : t.defined = true
  stored : t.io.stored <+: t.dump.taken
  rest : t.wire = [] → t.io.Waiting → ∃ rest part, t.dump.taken = t.io.stored ++ rest ∧
    rest.flatMap frame = part ++ t.dump.sendBuf.bytes ∧ Incomplete part
  all : t.wire = [] → t.io.Waiting → t.dump.sendBuf.bytes = [] → t.io.stored = t.dump.taken

/-- The messages that the buffers of both sides hold. -/
def Fits (sendSize recvSize : UInt32) (m : List UInt8) : Prop :=
  4 + m.length ≤ sendSize.toNat ∧ m.length ≤ recvSize.toNat

/-- The messages with some bytes, whose frame has a length that an `int` holds. -/
def InRange (m : List UInt8) : Prop := 0 < m.length ∧ 4 + m.length < 2 ^ 31

variable {sendSize recvSize : UInt32} {t u : Relay} {io v : IoThread} {r : Recv}

theorem afterPayload_stream (t : IoThread) (r : Recv) : (afterPayload t r).stream = t.stream := by
  cases r with
  | loop => rfl
  | ret code => cases code <;> rfl

theorem afterLength_stream {alloc : Bool} (h : afterLength io alloc r = some v) :
    v.stream = io.stream := by
  cases r with
  | loop =>
    obtain rfl := Option.some.inj h
    rfl
  | ret code data b =>
    by_cases hcode : code = .ok
    · subst hcode
      rw [afterLength] at h
      split_ifs at h <;> obtain rfl := Option.some.inj h
      · exact afterPayload_stream _ _
      · rfl
    · rw [afterLength_fail io alloc hcode] at h
      obtain rfl := Option.some.inj h
      rfl

theorem afterLength_isSome {w : List UInt8} {alloc : Bool} (hr : Delivers w 4 r)
    (hw : 4 ≤ w.length → announced w ≠ 0) : ∃ v, afterLength io alloc r = some v := by
  cases r with
  | loop => exact ⟨_, rfl⟩
  | ret code data b =>
    by_cases hcode : code = .ok
    · subst hcode
      obtain ⟨rfl, hlen⟩ := hr
      have hne : leNat data ≠ 0 := by
        rw [← announced_append hlen]
        exact hw (by rw [List.length_append]; omega)
      rw [afterLength, if_neg hne]
      split_ifs <;> exact ⟨_, rfl⟩
    · exact ⟨_, afterLength_fail io alloc hcode⟩

theorem ioStep_slot {alloc : Bool} (hp : io.phase = .ready) :
    ioStep io (.slot alloc) = afterLength io alloc (rsRecvTmpbuf io.recvBuf 4) := by
  rw [ioStep, if_pos hp]

/-- The bytes read on a connection, the frames of the stored messages being the first of them. -/
structure Relay.Inv (recvSize : UInt32) (t : Relay) : Prop where
  range : ∀ m ∈ t.dump.taken ++ t.dump.ring, InRange m ∧ m.length ≤ recvSize.toNat
  flow : t.io.stream ++ (t.wire ++ t.dump.sendBuf.bytes) = t.dump.taken.flatMap frame
  stored : t.io.stored.flatMap frame <+: t.io.stream
  short : ∀ m ∈ t.io.stored, m.length < 2 ^ 32
  size : t.io.recvBuf.size = recvSize.toNat
  live : t.io.phase ≠ .offline → t.io.Inv
  defined : t.defined = true
  inside : t.dump.phase ≠ .undefined

theorem Relay.Inv.taken_range (h : t.Inv recvSize) {m : List UInt8} (hm : m ∈ t.dump.taken) :
    InRange m ∧ m.length ≤ recvSize.toNat := h.range m (List.mem_append_left _ hm)

theorem Relay.Inv.taken_short (h : t.Inv recvSize) : ∀ m ∈ t.dump.taken, m.length < 2 ^ 32 := by
  intro m hm
  have := (h.taken_range hm).1.2
  omega

/-- What is on its way behind the stored messages begins with the length of a message that was
taken. -/
theorem Relay.Inv.announced {ms : List (List UInt8)} {w x : List UInt8} (h : t.Inv recvSize)
    (hms : ∀ m ∈ ms, m.length < 2 ^ 32)
    (hflow : ms.flatMap frame ++ (w ++ x) = t.dump.taken.flatMap frame) (hw : 4 ≤ w.length) :
    ∃ m ∈ t.dump.taken, Lib.announced w = m.length := by
  obtain ⟨rest, hrest, hwx⟩ := frames_cut hms h.taken_short hflow
  have hmem (m : List UInt8) (hm : m ∈ rest) : m ∈ t.dump.taken := by
    rw [hrest]
    exact List.mem_append_right _ hm
  obtain ⟨m, hm, hann⟩ := announced_frames (fun m hm => h.taken_short m (hmem m hm)) hwx hw
  exact ⟨m, hmem m hm, hann⟩

theorem relayStep_dump {a : DumpAct} (hs : relayStep t (.dump a) = some u) :
    u.dump.taken ++ u.dump.ring = t.dump.taken ++ t.dump.ring ++ a.puts ∧ u.io = t.io := by
  obtain ⟨-, hs⟩ := Option.ite_none_right_eq_some.mp hs
  obtain ⟨⟨d, sent⟩, hstep, rfl⟩ := Option.map_eq_some_iff.mp hs
  obtain ⟨⟨new, htaken, -, hring⟩, -⟩ := dumpStep_moves hstep
  refine ⟨?_, rfl⟩
  change d.taken ++ d.ring = _
  rw [htaken, List.append_assoc, ← hring, List.append_assoc]

theorem Relay.Inv.dump {a : DumpAct} (h : t.Inv recvSize)
    (ha : ∀ m ∈ a.puts, InRange m ∧ m.length ≤ recvSize.toNat)
    (hs : relayStep t (.dump a) = some u) : u.Inv recvSize := by
  have hmessages := (relayStep_dump hs).1
  rw [relayStep, if_pos h.defined] at hs
  obtain ⟨⟨d, sent⟩, hstep, rfl⟩ := Option.map_eq_some_iff.mp hs
  obtain ⟨⟨new, htaken, hbytes, -⟩, hphase⟩ := dumpStep_moves hstep
  have hinside : d.phase ≠ .undefined := by
    intro hundef
    rcases hphase hundef with hp | ⟨m, hm, hlen⟩
    · exact h.inside hp
    · have := (h.range m (List.mem_append_right _ hm)).1.2
      omega
  exact
    { range := by
        intro m hm
        rw [hmessages] at hm
        rcases List.mem_append.mp hm with hm | hm
        · exact h.range m hm
        · exact ha m hm
      flow := by
        change t.io.stream ++ ((t.wire ++ sent) ++ d.sendBuf.bytes) = d.taken.flatMap frame
        rw [htaken, List.flatMap_append, ← h.flow]
        simp only [List.append_assoc, hbytes]
      stored := h.stored
      short := h.short
      size := h.size
      live := h.live
      defined := decide_eq_true hinside
      inside := hinside }

/-- The payload that is waited for is that of a message that was taken. -/
theorem Relay.Inv.not_overflows {x : List UInt8} (h : t.Inv recvSize) (hv : v.Inv)
    (hflow : v.stream ++ x = t.dump.taken.flatMap frame) : ¬ v.Overflows := by
  have hsplit := hv.split
  unfold IoThread.Split at hsplit
  unfold IoThread.Overflows
  cases hp : v.phase with
  | payload copied s =>
    rw [hp] at hsplit
    obtain ⟨l, hl, hpay, hlen, -⟩ := hsplit
    rw [hpay, List.append_assoc, List.append_assoc] at hflow
    obtain ⟨m, hm, hann⟩ := h.announced hv.short hflow hl.ge
    have hle : Lib.announced l = leNat l := by rw [Lib.announced, List.take_of_length_le hl.le]
    have hlt := (h.taken_range hm).1.2
    dsimp only
    rw [toInt32_of_lt (by omega), toInt32_of_lt (by omega)]
    omega
  | _ => exact id

theorem Relay.Inv.received {wire : List UInt8} (h : t.Inv recvSize) (hv : v.Inv)
    (hsize : v.recvBuf.size = t.io.recvBuf.size)
    (hstream : v.stream ++ wire = t.io.stream ++ t.wire) :
    (Relay.receive { t with wire := wire } (some v)).Inv recvSize := by
  obtain ⟨w, hw, -⟩ := hv.rest
  have hflow : v.stream ++ (wire ++ t.dump.sendBuf.bytes) = t.dump.taken.flatMap frame := by
    rw [← h.flow, ← List.append_assoc, hstream, List.append_assoc]
  exact
    { range := h.range
      flow := hflow
      stored := ⟨w, hw.symm⟩
      short := hv.short
      size := hsize.trans h.size
      live := fun _ => hv
      defined := decide_eq_true (h.not_overflows hv hflow)
      inside := h.inside }

/-- A buffered or pending length is that of a message that was taken. -/
theorem Relay.Inv.length_ok {w x : List UInt8} (h : t.Inv recvSize)
    (hflow : t.io.stored.flatMap frame ++ (w ++ x) = t.dump.taken.flatMap frame) :
    LastIfOver t.io.recvBuf.size w ∧ (4 ≤ w.length → Lib.announced w ≠ 0) := by
  refine ⟨fun hw => ?_, fun hw => ?_⟩
  · obtain ⟨m, hm, hann⟩ := h.announced h.short hflow hw.le
    rw [hann, h.size]
    exact (h.taken_range hm).2
  · obtain ⟨m, hm, hann⟩ := h.announced h.short hflow hw
    rw [hann]
    exact (h.taken_range hm).1.1.ne'

theorem Relay.Inv.slot {alloc : Bool} (h : t.Inv recvSize)
    (hs : relayStep t (.slot alloc) = some u) : u.Inv recvSize := by
  rw [relayStep] at hs
  obtain ⟨⟨-, hp⟩, hs⟩ := Option.ite_none_right_eq_some.mp hs
  obtain rfl := Option.some.inj hs
  have hlive : t.io.phase ≠ .offline := by rw [hp]; nofun
  have hio := h.live hlive
  have hsplit := hio.split
  unfold IoThread.Split at hsplit
  rw [hp] at hsplit
  have hflow := h.flow
  rw [hsplit, List.append_assoc] at hflow
  obtain ⟨hlast, hzero⟩ := h.length_ok hflow
  obtain ⟨hdel, hsize⟩ := rsRecvTmpbuf_delivers (b := t.io.recvBuf) (n := 4) fun hlt => (hio.tiny hlt).1
  obtain ⟨v, hv⟩ : ∃ v, afterLength t.io alloc _ = some v := afterLength_isSome hdel hzero
  have hstep : ioStep t.io (.slot alloc) = some v := (ioStep_slot hp).trans hv
  rw [hstep]
  refine h.received (hio.slot hlast hstep) ((afterLength_size hv).trans hsize) ?_
  rw [afterLength_stream hv]

/-- A read in the loop of a call, with a chunk that fits behind `last`. -/
theorem rsRecvTmpbufRead_isSome {b : RsBuf} {chunk : List UInt8} (copied : List UInt8) (s : ℕ)
    (hfit : b.pos + b.bytes.length + chunk.length ≤ b.size) :
    ∃ r, rsRecvTmpbufRead copied s b chunk = some r := by
  rw [rsRecvTmpbufRead]
  split_ifs with hnil hover
  · exact ⟨_, rfl⟩
  · omega
  · exact ⟨_, rfl⟩
  · exact ⟨_, rfl⟩

theorem ioStep_fail {alloc : Bool} (hwait : io.Waiting) :
    ioStep io (.read [] alloc) = some { io with phase := .offline } := by
  unfold IoThread.Waiting at hwait
  cases hp : io.phase with
  | length copied s => simp [ioStep, hp, rsRecvTmpbufRead, afterLength]
  | payload copied s => simp [ioStep, hp, rsRecvTmpbufRead, afterPayload]
  | _ =>
    rw [hp] at hwait
    exact hwait.elim

theorem ioStep_read_length {copied chunk : List UInt8} {s : ℕ} {alloc : Bool}
    (hp : io.phase = .length copied s) :
    ioStep io (.read chunk alloc) = (rsRecvTmpbufRead copied s io.recvBuf chunk).bind
      (afterLength { io with stream := io.stream ++ chunk } alloc) := by
  rw [ioStep, hp]

theorem ioStep_read_payload {copied chunk : List UInt8} {s : ℕ} {alloc : Bool}
    (hp : io.phase = .payload copied s) :
    ioStep io (.read chunk alloc) = (rsRecvTmpbufRead copied s io.recvBuf chunk).map
      (afterPayload { io with stream := io.stream ++ chunk }) := by
  rw [ioStep, hp]

theorem Relay.Inv.ioStep_read {chunk x : List UInt8} (alloc : Bool) (h : t.Inv recvSize)
    (hwait : t.io.Waiting) (hne : chunk ≠ [])
    (hfit : t.io.recvBuf.pos + t.io.recvBuf.bytes.length + chunk.length ≤ t.io.recvBuf.size)
    (hflow : t.io.stream ++ chunk ++ x = t.dump.taken.flatMap frame) :
    ∃ v, ioStep t.io (.read chunk alloc) = some v ∧ v.Inv ∧
      v.recvBuf.size = t.io.recvBuf.size ∧ v.stream = t.io.stream ++ chunk := by
  have hio := h.live hwait.ne_offline
  have hsplit := hio.split
  unfold IoThread.Split at hsplit
  unfold IoThread.Waiting at hwait
  cases hp : t.io.phase with
  | length copied s =>
    rw [hp] at hsplit
    obtain ⟨hstream, hlen, -⟩ := hsplit
    obtain ⟨hlast, hzero⟩ := h.length_ok (w := copied ++ (t.io.recvBuf.bytes ++ chunk)) (x := x) (by
      rw [← hflow, hstream]
      simp only [List.append_assoc])
    obtain ⟨r, hr⟩ := rsRecvTmpbufRead_isSome copied s hfit
    obtain ⟨hdel, hsize⟩ := rsRecvTmpbufRead_delivers hlen (fun hnil => absurd hnil hne) hr
    obtain ⟨v, hv⟩ : ∃ v, afterLength { t.io with stream := t.io.stream ++ chunk } alloc r = some v :=
      afterLength_isSome hdel hzero
    have hstep : ioStep t.io (.read chunk alloc) = some v := by
      rw [ioStep_read_length hp, hr]
      exact hv
    have hok : t.io.FailsEmpty (.read chunk alloc) := by
      rw [IoThread.FailsEmpty, hp]
      exact ⟨fun hnil => absurd hnil hne, hlast⟩
    exact ⟨v, hstep, hio.read hok hstep, (afterLength_size hv).trans hsize, afterLength_stream hv⟩
  | payload copied s =>
    obtain ⟨r, hr⟩ := rsRecvTmpbufRead_isSome copied s hfit
    obtain ⟨-, hsize⟩ := rsRecvTmpbufRead_delivers rfl (fun hnil => absurd hnil hne) hr
    have hstep : ioStep t.io (.read chunk alloc) =
        some (afterPayload { t.io with stream := t.io.stream ++ chunk } r) := by
      rw [ioStep_read_payload hp, hr, Option.map_some]
    have hok : t.io.FailsEmpty (.read chunk alloc) := by
      rw [IoThread.FailsEmpty, hp]
      exact ⟨fun hnil => absurd hnil hne, trivial⟩
    refine ⟨_, hstep, hio.read hok hstep, ?_, afterPayload_stream _ _⟩
    rw [afterPayload_buf]
    exact hsize
  | _ =>
    rw [hp] at hwait
    exact hwait.elim

theorem Relay.Inv.read {chunk : List UInt8} {alloc : Bool} (h : t.Inv recvSize)
    (hs : relayStep t (.read chunk alloc) = some u) : u.Inv recvSize := by
  rw [relayStep] at hs
  obtain ⟨⟨-, hwait, ⟨wire, hwire⟩, hfit⟩, hs⟩ := Option.ite_none_right_eq_some.mp hs
  obtain rfl := Option.some.inj hs
  have hdrop : t.wire.drop chunk.length = wire := by
    rw [← hwire]
    exact List.drop_left
  by_cases hne : chunk = []
  · subst hne
    rw [ioStep_fail hwait]
    exact
      { h with
        live := fun hp => absurd rfl hp
        defined := rfl }
  · have hflow := h.flow
    rw [← hwire, ← List.append_assoc, ← List.append_assoc, List.append_assoc _ wire] at hflow
    obtain ⟨v, hstep, hv, hsize, hstream⟩ := h.ioStep_read alloc hwait hne hfit hflow
    rw [hstep]
    refine h.received hv hsize ?_
    rw [hstream, hdrop, ← hwire, List.append_assoc]

theorem Relay.init_inv (sendSize recvSize : UInt32) (pos : ℕ) :
    (Relay.init sendSize recvSize pos).Inv recvSize where
  range := nofun
  flow := rfl
  stored := List.nil_prefix
  short := nofun
  size := rfl
  live := fun _ =>
    { short := nofun
      split := rfl
      tiny := fun _ => ⟨rfl, id⟩ }
  defined := rfl
  inside := nofun

theorem Relay.Inv.relays (h : t.Inv recvSize) : t.Relays := by
  obtain ⟨w, hw⟩ := h.stored
  have hflow := h.flow
  rw [← hw, List.append_assoc] at hflow
  obtain ⟨rest, hrest, hcut⟩ := frames_cut h.short h.taken_short hflow
  have hmissing (hwire : t.wire = []) (hwait : t.io.Waiting) :
      rest.flatMap frame = w ++ t.dump.sendBuf.bytes ∧ Incomplete w := by
    obtain ⟨w', hw', hinc⟩ := (h.live hwait.ne_offline).rest
    obtain rfl : w = w' := List.append_cancel_left (hw.trans hw')
    rw [hwire, List.nil_append] at hcut
    exact ⟨hcut.symm, hinc hwait⟩
  refine ⟨h.defined, ⟨rest, hrest.symm⟩, fun hwire hwait => ?_, fun hwire hwait hbuf => ?_⟩
  · exact ⟨rest, w, hrest, hmissing hwire hwait⟩
  · obtain ⟨hw', hinc⟩ := hmissing hwire hwait
    have hshort : ∀ m ∈ rest, m.length < 2 ^ 32 := fun m hm =>
      h.taken_short m (by rw [hrest]; exact List.mem_append_right _ hm)
    have hnil : rest = [] := by
      have hall := messages_frames (w := []) hshort
      rw [hw', hbuf, List.append_nil, List.append_nil, messages_incomplete hinc] at hall
      exact (List.append_eq_nil_iff.mp hall.symm).1
    rw [hrest, hnil, List.append_nil]

/-- The `int len` of a long message is negative, whatever the room. -/
theorem relayStep_long {m : List UInt8} (rest : List (List UInt8)) (hdef : t.defined = true)
    (hp : t.dump.phase = .poll) (hring : t.dump.ring = m :: rest) (hlow : 2 ^ 31 ≤ 4 + m.length)
    (hhigh : 4 + m.length < 2 ^ 32)
    (hroom : t.dump.sendBuf.pos + t.dump.sendBuf.bytes.length ≤ t.dump.sendBuf.size) :
    ∃ u, relayStep t (.dump .get) = some u ∧ u.defined = false := by
  have hneg := toInt32_neg hlow hhigh
  have hget : dumpStep t.dump .get = some (bufferMessage t.dump m rest, []) := by
    rw [dumpStep, hp, hring]
  have hbuffer : bufferMessage t.dump m rest = { t.dump with phase := .undefined } := by
    simp only [bufferMessage]
    rw [if_pos (by omega), if_pos (Or.inl hneg)]
  refine ⟨{ t with dump := { t.dump with phase := .undefined }, wire := t.wire ++ [], defined := false },
    ?_, rfl⟩
  rw [relayStep, if_pos hdef, hget, hbuffer]
  rfl

theorem exec_long {m : List UInt8} (sendSize recvSize : UInt32) (hlow : 2 ^ 31 ≤ 4 + m.length)
    (hhigh : 4 + m.length < 2 ^ 32) :
    ∃ u, exec relayStep (Relay.init sendSize recvSize 0) [.dump (.put m), .dump .get] = some u ∧
      u.defined = false := by
  obtain ⟨u, hu, hundef⟩ := relayStep_long (m := m) []
    (t := { Relay.init sendSize recvSize 0 with dump := { DumpThread.init sendSize with ring := [m] } })
    rfl rfl rfl hlow hhigh (Nat.zero_le _)
  have hput : relayStep (Relay.init sendSize recvSize 0) (.dump (.put m)) = some
      { Relay.init sendSize recvSize 0 with dump := { DumpThread.init sendSize with ring := [m] } } := rfl
  refine ⟨u, ?_, hundef⟩
  rw [exec_cons, hput, Option.bind_some, exec_cons, hu, Option.bind_some, exec_nil]

/-- The slave looks for a class for a message without bytes; and the length of a long message,
in buffers that hold it, is negative for the master. -/
theorem not_relays_of_fits :
    (¬ ∀ (sendSize recvSize : UInt32) (pos : ℕ) (as : List RelayAct) (t : Relay),
      (∀ m, .dump (.put m) ∈ as → Fits sendSize recvSize m) →
      exec relayStep (Relay.init sendSize recvSize pos) as = some t → t.Relays) ∧
    ¬ ∀ (sendSize recvSize : UInt32) (pos : ℕ) (as : List RelayAct) (t : Relay),
      (∀ m, .dump (.put m) ∈ as → Fits sendSize recvSize m ∧ 0 < m.length) →
      exec relayStep (Relay.init sendSize recvSize pos) as = some t → t.Relays := by
  refine ⟨fun h => ?_, fun h => ?_⟩
  · have hput : ∀ m, .dump (.put m) ∈ ([.dump (.put []), .slot true, .dump .get, .dump .get,
        .dump (.write 4), .read [0, 0, 0, 0] true] : List RelayAct) → Fits 16 16 m := by
      intro m hm
      obtain rfl : m = [] := by simpa using hm
      simp [Fits]
    exact Bool.false_ne_true (h 16 16 0 _ _ hput rfl).defined
  · obtain ⟨m, hm⟩ : ∃ m : List UInt8, m.length = 2 ^ 31 :=
      ⟨List.replicate (2 ^ 31) 0, List.length_replicate⟩
    have hsize : (4294967295 : UInt32).toNat = 4294967295 := rfl
    have hput : ∀ l, .dump (.put l) ∈ ([.dump (.put m), .dump .get] : List RelayAct) →
        Fits 4294967295 4294967295 l ∧ 0 < l.length := by
      intro l hl
      obtain rfl : l = m := by simpa using hl
      rw [Fits, hsize]
      omega
    obtain ⟨u, hrun, hundef⟩ := exec_long (m := m) 4294967295 4294967295 (by omega) (by omega)
    exact Bool.false_ne_true (hundef.symm.trans (h _ _ _ _ _ hput hrun).defined)

end MySQLSyncer.Slave
