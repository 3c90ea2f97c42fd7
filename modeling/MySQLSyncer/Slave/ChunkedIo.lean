import MySQLSyncer.Slave.Relay
import MySQLSyncer.Slave.StoredMessages

/-! # The receiving thread and the chunks of its messages

What `rs_recv_tmpbuf` copies goes to the chunk of the slot, a part of a message before the first
read of a call and the rest behind the last.
-/
namespace MySQLSyncer.Slave
open Lib MySQLSyncer.Core StoredMessages

structure ChunkedIo where
  io : IoThread
  msgs : StoredMessages

inductive ChunkedAct where
  | connect
  /-- The ring has a slot; `answer` is the address that `malloc` returns if it is called. -/
  | slot (answer : ℕ)
  | read (chunk : List UInt8) (answer : ℕ)
  /-- The other thread has read a slot. -/
  | consume

def copiedBy : Recv → List UInt8
  | .ret _ data _ => data
  | .loop copied _ _ => copied

/-- The outcome of the second `rs_recv_tmpbuf`, which had copied `k` bytes. -/
def chunkedPayload (t : ChunkedIo) (k : ℕ) (r : Recv) : Option ChunkedIo :=
  let msgs := t.msgs.copy k ((copiedBy r).drop k)
  match r with
  | .loop _ _ _ => some ⟨afterPayload t.io r, msgs⟩
  | .ret code _ _ => (msgs.filled (decide (code = .ok))).map fun msgs => ⟨afterPayload t.io r, msgs⟩

def chunkedLength (t : ChunkedIo) (answer : ℕ) : Recv → Option ChunkedIo
  | .ret .ok data b => (t.msgs.alloc (UInt32.ofNat (leNat data)) answer).bind fun msgs =>
      match msgs.ring.phase with
      | .payload => chunkedPayload ⟨t.io, msgs⟩ 0 (rsRecvTmpbuf b (leNat data))
      | .exited => some ⟨{ t.io with recvBuf := b, phase := .exited }, msgs⟩
      | _ => some ⟨t.io, msgs⟩
  | .ret _ _ b => (slotStep t.msgs.ring (.length none)).map fun ring =>
      ⟨{ t.io with recvBuf := b, phase := .offline }, { t.msgs with ring := ring }⟩
  | .loop copied s b => some ⟨{ t.io with recvBuf := b, phase := .length copied s }, t.msgs⟩

def chunkedStep (t : ChunkedIo) : ChunkedAct → Option ChunkedIo
  | .connect => do
      let io ← ioStep t.io .connect
      let ring ← slotStep t.msgs.ring .connect
      some ⟨io, { t.msgs with ring := ring }⟩
  | .slot answer => if t.io.phase = .ready then
      (slotStep t.msgs.ring .slot).bind fun ring =>
        chunkedLength ⟨t.io, { t.msgs with ring := ring }⟩ answer (rsRecvTmpbuf t.io.recvBuf 4)
      else none
  | .read chunk answer => match t.io.phase with
    | .length copied s => (rsRecvTmpbufRead copied s t.io.recvBuf chunk).bind
        (chunkedLength { t with io.stream := t.io.stream ++ chunk } answer)
    | .payload copied s => (rsRecvTmpbufRead copied s t.io.recvBuf chunk).bind
        (chunkedPayload { t with io.stream := t.io.stream ++ chunk } copied.length)
    | _ => none
  | .consume => t.msgs.consume.map fun msgs => { t with msgs := msgs }

def IoPhase.slots : IoPhase → SlotPhase
  | .offline => .offline
  | .ready => .ready
  | .length _ _ => .length
  | .payload _ _ => .payload
  | .exited => .exited

inductive Continues (copied : List UInt8) (n : ℕ) : Recv → Prop where
  | done {data : List UInt8} {b : RsBuf} (h : copied.length + data.length = n) :
      Continues copied n (.ret .ok (copied ++ data) b)
  | fails {code : RsCode} {b : RsBuf} (h : code ≠ .ok) (hn : copied.length ≤ n) :
        Continues copied n (.ret code copied b)
  | loop {data : List UInt8} {s : ℕ} {b : RsBuf} (h : copied.length + data.length + s = n) :
      Continues copied n (.loop (copied ++ data) s b)

theorem chunkedPayload_length {t u : ChunkedIo} {k : ℕ} {r : Recv} (hs : chunkedPayload t k r = some u) :
    u.msgs.ring.slots.length = t.msgs.ring.slots.length := by
  cases r with
  | loop copied s b =>
    obtain rfl := Option.some.inj hs
    exact congrArg (fun x => x.slots.length) (copy_ring ..)
  | ret code data b =>
    obtain ⟨msgs, hmsgs, rfl⟩ := Option.map_eq_some_iff.mp hs
    obtain ⟨ring, hring, rfl⟩ := Option.map_eq_some_iff.mp hmsgs
    exact (slotStep_length hring).trans (congrArg (fun x => x.slots.length) (copy_ring ..))

theorem chunkedLength_length {t u : ChunkedIo} {answer : ℕ} {r : Recv} (hs : chunkedLength t answer r = some u) :
    u.msgs.ring.slots.length = t.msgs.ring.slots.length := by
  have hfail (b : RsBuf) (hs : (slotStep t.msgs.ring (.length none)).map (fun ring =>
      (⟨{ t.io with recvBuf := b, phase := .offline }, { t.msgs with ring := ring }⟩ : ChunkedIo)) = some u) :
      u.msgs.ring.slots.length = t.msgs.ring.slots.length := by
    obtain ⟨ring, hring, rfl⟩ := Option.map_eq_some_iff.mp hs
    exact slotStep_length hring
  cases r with
  | loop copied s b =>
    obtain rfl := Option.some.inj hs
    rfl
  | ret code data b =>
    cases code with
    | ok =>
      obtain ⟨msgs, hmsgs, hs⟩ := Option.bind_eq_some_iff.mp hs
      obtain ⟨ring, hring, rfl⟩ := Option.map_eq_some_iff.mp hmsgs
      rw [← slotStep_length hring]
      split at hs
      · exact chunkedPayload_length hs
      · obtain rfl := Option.some.inj hs
        rfl
      · obtain rfl := Option.some.inj hs
        rfl
    | _ => exact hfail b hs

theorem chunkedStep_length {t u : ChunkedIo} {a : ChunkedAct} (hs : chunkedStep t a = some u) :
    u.msgs.ring.slots.length = t.msgs.ring.slots.length := by
  cases a with
  | connect =>
    obtain ⟨io, -, hs⟩ := Option.bind_eq_some_iff.mp hs
    obtain ⟨ring, hring, hs⟩ := Option.bind_eq_some_iff.mp hs
    obtain rfl := Option.some.inj hs
    exact slotStep_length hring
  | slot answer =>
    obtain ⟨-, hs⟩ := Option.ite_none_right_eq_some.mp hs
    obtain ⟨ring, hring, hs⟩ := Option.bind_eq_some_iff.mp hs
    exact (chunkedLength_length hs).trans (slotStep_length hring)
  | read chunk answer =>
    rw [chunkedStep] at hs
    split at hs
    · obtain ⟨r, -, hs⟩ := Option.bind_eq_some_iff.mp hs
      exact chunkedLength_length (t := { t with io.stream := t.io.stream ++ chunk }) hs
    · obtain ⟨r, -, hs⟩ := Option.bind_eq_some_iff.mp hs
      exact chunkedPayload_length (t := { t with io.stream := t.io.stream ++ chunk }) hs
    · cases hs
  | consume =>
    obtain ⟨msgs, hmsgs, rfl⟩ := Option.map_eq_some_iff.mp hs
    obtain ⟨ring, hring, hmsgs⟩ := Option.bind_eq_some_iff.mp hmsgs
    obtain ⟨m, -, hmsgs⟩ := Option.bind_eq_some_iff.mp hmsgs
    obtain rfl := Option.some.inj hmsgs
    exact slotStep_length hring

/-- The messages that the other thread has not read are `q`, in a pool with the classes of `p`. -/
structure ChunkedIo.Inv (others : List Chunk) (p : RsPool) (q : List (List UInt8)) (t : ChunkedIo) : Prop where
  ring : (t.io.phase = .offline → ¬ t.msgs.ring.Stale) → t.msgs.ring.Inv others
  table : p.SameTable t.msgs.ring.use.pool
  phase : t.msgs.ring.phase = t.io.phase.slots
  stores : t.msgs.Stores q
  room : t.io.Waiting → t.msgs.Room
  filling : ∀ copied s, t.io.phase = .payload copied s → t.msgs.Filling copied (copied.length + s)

/-- The bytes are a length that is not zero, and for which the pool finds a chunk that is long enough. -/
structure Storable (p : RsPool) (data : List UInt8) : Prop where
  pos : 0 < leNat data
  lt : leNat data < 2 ^ 32
  fits : p.Fits (leNat data)

def ChunkedIo.Announces (t : ChunkedIo) (data : List UInt8) : ChunkedAct → Prop
  | .slot _ => ∃ b, rsRecvTmpbuf t.io.recvBuf 4 = .ret .ok data b
  | .read chunk _ => ∃ copied s b, t.io.phase = .length copied s ∧
      rsRecvTmpbufRead copied s t.io.recvBuf chunk = some (.ret .ok data b)
  | .connect | .consume => False

def ChunkedIo.Since (others : List Chunk) (p : RsPool) (q : List (List UInt8)) (t u : ChunkedIo) : Prop :=
  ∃ new, u.io.stored = t.io.stored ++ new ∧ u.msgs.taken = t.msgs.taken ∧ u.Inv others p (q ++ new)

variable {others : List Chunk} {p : RsPool} {q : List (List UInt8)} {t u : ChunkedIo} {r : Recv} {b : RsBuf}
  {copied chunk : List UInt8} {n s answer : ℕ}

theorem rsRecvTmpbuf_continues (b : RsBuf) (n : ℕ) : Continues [] n (rsRecvTmpbuf b n) := by
  rcases rsRecvTmpbuf_cases b n with ⟨-, hr⟩ | ⟨data, c, -, hlen, -, hr⟩ | ⟨c, -, -, hlt, hr⟩
  · rw [hr]
    exact .fails nofun (Nat.zero_le n)
  · rw [hr]
    have hlen' : 0 + data.length = n := by omega
    have hdone : Continues [] n (.ret .ok ([] ++ data) c) := .done hlen'
    exact hdone
  · rw [hr]
    have hlen : 0 + b.bytes.length + (n - b.bytes.length) = n := by omega
    have hloop : Continues [] n (.loop ([] ++ b.bytes) (n - b.bytes.length) c) := .loop hlen
    exact hloop

theorem rsRecvTmpbufRead_continues (h : rsRecvTmpbufRead copied s b chunk = some r) :
    Continues copied (copied.length + s) r := by
  rcases rsRecvTmpbufRead_cases h with ⟨-, rfl⟩ | ⟨c, -, -, -, rfl⟩ | ⟨data, c, -, hlen, -, rfl⟩
  · exact .fails nofun (Nat.le_add_right _ s)
  · have hloop : Continues copied (copied.length + s) (.loop (copied ++ []) s c) := .loop rfl
    rwa [List.append_nil] at hloop
  · exact .done (by rw [hlen])

theorem ChunkedIo.Inv.ring_online (h : t.Inv others p q) (hp : t.io.phase ≠ .offline) : t.msgs.ring.Inv others :=
  h.ring fun hoff => absurd hoff hp

theorem ChunkedIo.Inv.since (h : u.Inv others p q) (hstored : u.io.stored = t.io.stored)
    (htaken : u.msgs.taken = t.msgs.taken) : t.Since others p q u := by
  refine ⟨[], ?_, htaken, ?_⟩
  · rw [hstored, List.append_nil]
  · rwa [List.append_nil]

/-- The payload is copied into the chunk, and the message is in the ring when it is whole. -/
theorem chunkedPayload_since (h : t.msgs.Receiving others p q copied n) (hr : Continues copied n r)
    (hs : chunkedPayload t copied.length r = some u) : t.Since others p q u ∧ u.io = afterPayload t.io r := by
  cases hr with
  | @done data b hlen =>
    have hdrop : (copiedBy (.ret .ok (copied ++ data) b)).drop copied.length = data := List.drop_left
    obtain ⟨msgs, hfilled, rfl⟩ := Option.map_eq_some_iff.mp hs
    rw [hdrop] at hfilled
    have hwhole := h.copy hlen.le
    rw [← hlen, ← List.length_append] at hwhole
    obtain ⟨hring, htable, hp, hstores⟩ := hwhole.filled hfilled
    have htaken := (filled_taken hfilled).trans (copy_taken ..)
    exact ⟨⟨[copied ++ data], rfl, htaken, fun _ => hring, htable, hp, hstores, fun hwait => hwait.elim, nofun⟩, rfl⟩
  | @fails code b hcode hn =>
    have hdrop : (copiedBy (.ret code copied b)).drop copied.length = [] := by simp [copiedBy]
    have hoff : afterPayload t.io (.ret code copied b) = { t.io with recvBuf := b, phase := .offline } :=
      afterPayload_fail t.io hcode
    obtain ⟨msgs, hfilled, rfl⟩ := Option.map_eq_some_iff.mp hs
    rw [hdrop, decide_eq_false hcode] at hfilled
    have hsame : (t.msgs.copy copied.length []).Receiving others p q (copied ++ []) n := h.copy hn
    obtain ⟨hring, htable, hp, hstores⟩ := hsame.failed hfilled
    refine ⟨?_, rfl⟩
    rw [hoff]
    have hinv : ChunkedIo.Inv others p q ⟨{ t.io with recvBuf := b, phase := .offline }, msgs⟩ :=
      ⟨fun _ => hring, htable, hp, hstores, fun hwait => hwait.elim, nofun⟩
    exact hinv.since rfl ((filled_taken hfilled).trans (copy_taken ..))
  | @loop data s b hlen =>
    have hdrop : (copiedBy (.loop (copied ++ data) s b)).drop copied.length = data := List.drop_left
    obtain rfl := Option.some.inj hs
    have hcopy : (t.msgs.copy copied.length data).Receiving others p q (copied ++ data) n := h.copy (by omega)
    rw [hdrop]
    have hinv : ChunkedIo.Inv others p q ⟨afterPayload t.io (.loop (copied ++ data) s b),
        t.msgs.copy copied.length data⟩ := by
      refine ⟨fun _ => hcopy.ring, hcopy.table, hcopy.phase, hcopy.stores, fun _ => hcopy.room, fun c k hp => ?_⟩
      obtain ⟨rfl, rfl⟩ := IoPhase.payload.inj hp
      rw [List.length_append, hlen]
      exact hcopy.filling
    exact ⟨hinv.since rfl (copy_taken ..), rfl⟩

structure ChunkedIo.Refills (others : List Chunk) (p : RsPool) (q : List (List UInt8)) (t : ChunkedIo) : Prop where
  ring : t.msgs.ring.Inv others
  table : p.SameTable t.msgs.ring.use.pool
  phase : t.msgs.ring.phase = .length
  stores : t.msgs.Stores q
  room : t.msgs.Room

theorem chunkedLength_since (h : t.Refills others p q) (hok : ∀ data b, r = .ret .ok data b → Storable p data)
    (hs : chunkedLength t answer r = some u) : t.Since others p q u ∧
        ∃ alloc, afterLength t.io alloc r = some u.io := by
  cases r with
  | loop copied s b =>
    obtain rfl := Option.some.inj hs
    have hinv : ChunkedIo.Inv others p q ⟨{ t.io with recvBuf := b, phase := .length copied s }, t.msgs⟩ :=
      ⟨fun _ => h.ring, h.table, h.phase, h.stores, fun _ => h.room, fun _ _ h => by cases h⟩
    exact ⟨hinv.since rfl rfl, true, rfl⟩
  | ret code data b =>
    by_cases hcode : code = .ok
    · subst hcode
      obtain ⟨hpos, hlt, hfits⟩ := hok data b rfl
      have hlen : (UInt32.ofNat (leNat data)).toNat = leNat data := UInt32.toNat_ofNat_of_lt' hlt
      have hne : UInt32.ofNat (leNat data) ≠ 0 := fun h0 => by
        rw [h0] at hlen
        exact hpos.ne hlen
      obtain ⟨msgs, halloc, hs⟩ := Option.bind_eq_some_iff.mp hs
      rcases h.stores.alloc h.ring h.table h.room hne (by rwa [hlen]) halloc with hrecv | ⟨hexit,
          hring, htable, hstores⟩
      · rw [hrecv.phase] at hs
        rw [hlen] at hrecv
        obtain ⟨⟨new, hstored, htaken, hinv⟩, hio⟩ :=
          chunkedPayload_since hrecv (rsRecvTmpbuf_continues b (leNat data)) hs
        refine ⟨⟨new, hstored, htaken.trans (alloc_taken halloc), hinv⟩, true, ?_⟩
        rw [hio, afterLength, if_neg hpos.ne', if_pos rfl]
      · rw [hexit] at hs
        obtain rfl := Option.some.inj hs
        have hinv : ChunkedIo.Inv others p q ⟨{ t.io with recvBuf := b, phase := .exited }, msgs⟩ :=
          ⟨fun _ => hring, htable, hexit, hstores, fun hwait => hwait.elim, fun _ _ h => by cases h⟩
        refine ⟨hinv.since rfl (alloc_taken halloc), false, ?_⟩
        rw [afterLength, if_neg hpos.ne', if_neg Bool.false_ne_true]
    · have hs' : (slotStep t.msgs.ring (.length none)).map (fun ring =>
          (⟨{ t.io with recvBuf := b, phase := .offline },
          { t.msgs with ring := ring }⟩ : ChunkedIo)) = some u := by
        cases code with
        | ok => exact absurd rfl hcode
        | _ => exact hs
      obtain ⟨ring, hstep, rfl⟩ := Option.map_eq_some_iff.mp hs'
      have hkeeps (hnot : ¬ t.msgs.ring.Stale) : ring.Inv others :=
        h.ring.step (a := .length none) (h.ring.slot_empty h.phase hnot) hstep
      obtain ⟨-, hstep⟩ := Option.ite_none_right_eq_some.mp hstep
      obtain rfl := Option.some.inj hstep
      have hinv : ChunkedIo.Inv others p q ⟨{ t.io with recvBuf := b, phase := .offline },
          { t.msgs with ring := { t.msgs.ring with phase := .offline } }⟩ :=
        ⟨fun hnot => hkeeps (hnot rfl), h.table, rfl, h.stores.congr rfl rfl rfl rfl rfl rfl,
            fun hwait => hwait.elim, fun _ _ h => by cases h⟩
      exact ⟨hinv.since rfl rfl, true, afterLength_fail t.io true hcode⟩

theorem ChunkedIo.Inv.slot (h : t.Inv others p q) (hok : ∀ data, t.Announces data (.slot answer) → Storable p data)
    (hs : chunkedStep t (.slot answer) = some u) : t.Since others p q u ∧
        ∃ alloc, ioStep t.io (.slot alloc) = some u.io := by
  obtain ⟨hp, hs⟩ := Option.ite_none_right_eq_some.mp hs
  obtain ⟨ring, hslot, hs⟩ := Option.bind_eq_some_iff.mp hs
  obtain ⟨hring, hphase, hslots, hwp⟩ := (h.ring_online (by simp [hp])).slot hslot
  obtain ⟨hroom, hused, htable⟩ := slotStep_slot_keeps hslot
  have hrefills : ChunkedIo.Refills others p q ⟨t.io, { t.msgs with ring := ring }⟩ :=
    { ring := hring
      table := h.table.trans htable
      phase := hphase
      stores := h.stores.congr hslots rfl rfl rfl hwp hused
      room := by
        change ring.used < ring.slots.length
        rwa [hused, hslots] }
  obtain ⟨hsince, alloc, hio⟩ := chunkedLength_since hrefills (fun data b hr => hok data ⟨b, hr⟩) hs
  exact ⟨hsince, alloc, (ioStep_slot hp).trans hio⟩

theorem ChunkedIo.Inv.read (h : t.Inv others p q) (hok : ∀ data,
    t.Announces data (.read chunk answer) → Storable p data)
    (hs : chunkedStep t (.read chunk answer) = some u) :
    t.Since others p q u ∧ ∃ alloc, ioStep t.io (.read chunk alloc) = some u.io := by
  cases hp : t.io.phase with
  | length copied s =>
    rw [chunkedStep, hp] at hs
    obtain ⟨r, hr, hs⟩ := Option.bind_eq_some_iff.mp hs
    have hrefills : ChunkedIo.Refills others p q { t with io.stream := t.io.stream ++ chunk } :=
      ⟨h.ring_online (by simp [hp]), h.table, h.phase.trans (by rw [hp]; rfl), h.stores,
          h.room (by simp [IoThread.Waiting, hp])⟩
    obtain ⟨hsince, alloc, hio⟩ := chunkedLength_since hrefills (fun data b he =>
        hok data ⟨copied, s, b, hp, he ▸ hr⟩) hs
    refine ⟨hsince, alloc, ?_⟩
    rw [ioStep_read_length hp, hr]
    exact hio
  | payload copied s =>
    rw [chunkedStep, hp] at hs
    obtain ⟨r, hr, hs⟩ := Option.bind_eq_some_iff.mp hs
    have hrecv : ({ t with io.stream := t.io.stream ++ chunk } : ChunkedIo).msgs.Receiving others p q copied
        (copied.length + s) :=
      ⟨h.ring_online (by simp [hp]), h.table, h.phase.trans (by rw [hp]; rfl), h.stores,
          h.room (by simp [IoThread.Waiting, hp]),
        h.filling copied s hp⟩
    obtain ⟨hsince, hio⟩ := chunkedPayload_since hrecv
      (rsRecvTmpbufRead_continues hr) hs
    refine ⟨hsince, true, ?_⟩
    rw [ioStep_read_payload hp, hr, hio]
    rfl
  | offline | ready | exited => simp [chunkedStep, hp] at hs

/-- A new connection goes on with the ring as it is, unless a slot is left with a released chunk. -/
theorem ChunkedIo.Inv.connect (h : t.Inv others p q) (hnot : ¬ t.msgs.ring.Stale)
    (hs : chunkedStep t .connect = some u) :
    u.Inv others p q ∧ ioStep t.io .connect = some u.io ∧ u.msgs.taken = t.msgs.taken := by
  obtain ⟨io, hio, hs⟩ := Option.bind_eq_some_iff.mp hs
  obtain ⟨ring, hring, hs⟩ := Option.bind_eq_some_iff.mp hs
  obtain rfl := Option.some.inj hs
  have hinv := (h.ring fun _ => hnot).connect hring
  obtain ⟨-, hio'⟩ := Option.ite_none_right_eq_some.mp hio
  obtain rfl := Option.some.inj hio'
  obtain ⟨-, hring⟩ := Option.ite_none_right_eq_some.mp hring
  obtain rfl := Option.some.inj hring
  exact ⟨⟨fun _ => hinv, h.table, rfl, h.stores.congr rfl rfl rfl rfl rfl rfl,
      fun hwait => hwait.elim, nofun⟩, hio, rfl⟩

/-- The other thread reads the message in front, whatever the receiving thread does. -/
theorem ChunkedIo.Inv.consume (h : t.Inv others p q) (hs : chunkedStep t .consume = some u) :
    u.io = t.io ∧ ∃ m r, q = m :: r ∧ u.msgs.taken = t.msgs.taken ++ [m] ∧ u.Inv others p r := by
  obtain ⟨msgs, hmsgs, rfl⟩ := Option.map_eq_some_iff.mp hs
  obtain ⟨m, r, hq, hstores, htaken, hlens, hmem, hstep⟩ := h.stores.consume hmsgs
  obtain ⟨hpos, hring⟩ := Option.ite_none_right_eq_some.mp hstep
  have hring' := Option.some.inj hring
  refine ⟨rfl, m, r, hq, htaken, fun hp => ?_, ?_, ?_, hstores, fun hwait => ?_, fun copied s hp => ?_⟩
  · rw [← hring'] at hp
    exact ((h.ring hp).consume hstep).1
  · rw [← hring']
    exact h.table
  · rw [← hring']
    exact h.phase
  · have hroom := h.room hwait
    rw [StoredMessages.Room, ← hring']
    exact (Nat.sub_le _ 1).trans_lt hroom
  · rw [StoredMessages.Filling, ← hring', hlens, hmem]
    exact h.filling copied s hp

end MySQLSyncer.Slave
