import MySQLSyncer.Core.PallocFits
import MySQLSyncer.Lib.Memory
import MySQLSyncer.Lib.Queue
import MySQLSyncer.Lib.Window

/-! # The ring of a session and the memory of its messages

The io thread puts a message into a chunk of `rd->pool` (`rs_binlog_create_data`), the dump thread
copies it out of the chunk. The threads are cut at every byte that they store or load. The
answer of `malloc` for a call is chosen by the environment.
-/
namespace MySQLSyncer.Master
open Lib MySQLSyncer.Core

structure RsRingbufData where
  len : ℕ
  data : Option Chunk
  deriving DecidableEq, Repr

def rsRingbufDataTInit : RsRingbufData := ⟨0, none⟩

/-- Between two messages, with a slot whose chunk is released, with a chunk into which the first
`k` bytes of the message are stored, or gone because there was no chunk. -/
inductive WriterPhase where
  | idle
  | taken
  | filling (m : List UInt8) (k : ℕ)
  | failed
  deriving DecidableEq, Repr

/-- The ring with the pool and the memory of its chunks. `copied` is what the dump thread has of
the message in front. The last two fields are the messages that were put in the ring and those
that the dump thread has taken. -/
structure MessageRing where
  use : PoolUse
  mem : Memory UInt8
  slots : List RsRingbufData
  wp : ℕ
  rp : ℕ
  wn : ℕ
  rn : ℕ
  writer : WriterPhase
  copied : Option (List UInt8)
  produced : List (List UInt8)
  sent : List (List UInt8)

def MessageRing.init (use : PoolUse) (mem : Memory UInt8) (num : ℕ) : MessageRing :=
  { use := use, mem := mem, slots := List.replicate num rsRingbufDataTInit, wp := 0, rp := 0, wn := 0
    rn := 0, writer := .idle, copied := none, produced := [], sent := [] }

inductive MessageAct where
  /-- `rs_ringbuf_set` returns a slot, whose chunk is released. -/
  | take
  /-- A chunk is asked for, for the message `m`. -/
  | alloc (m : List UInt8) (answer : ℕ)
  | store
  /-- `rs_ringbuf_set_advance` -/
  | setAdvance
  | load
  /-- `rs_ringbuf_get_advance` -/
  | getAdvance

def MessageRing.next (s : MessageRing) (p : ℕ) : ℕ := if p + 1 = s.slots.length then 0 else p + 1

def takeSlot (s : MessageRing) : Option MessageRing :=
  if s.writer = .idle ∧ s.wn - s.rn ≠ s.slots.length then
    s.slots[s.wp]?.bind fun slot => match slot.data with
      | none => some { s with writer := .taken }
      | some x => (poolCall s.use (.pfree x)).map fun use =>
        { s with use := use, slots := s.slots.set s.wp rsRingbufDataTInit, writer := .taken }
  else none

def allocSlot (s : MessageRing) (m : List UInt8) (answer : ℕ) : Option MessageRing :=
  if s.writer = .taken then do
    let id ← rsPallocId s.use.pool m.length
    if s.use.Enabled (.palloc m.length id answer) then
      let (data, pool) ← rsPalloc ⟨fun _ => some answer, true⟩ s.use.pool m.length id
      let x := data.map fun t => (⟨id, t, chunkLen s.use.pool m.length id⟩ : Chunk)
      some { s with
        use := ⟨pool, x.toList ++ s.use.live⟩
        slots := s.slots.set s.wp ⟨m.length, x⟩
        writer := if x = none then .failed else .filling m 0 }
    else none
  else none

/-- The next byte of the message goes to its place behind `rbd->data`. -/
def storeByte (s : MessageRing) : Option MessageRing :=
  match s.writer with
  | .filling m k => do
    let b ← m[k]?
    let x ← (← s.slots[s.wp]?).data
    some { s with mem := s.mem.store (x.extent.addr + k) b, writer := .filling m (k + 1) }
  | _ => none

def setAdvance (s : MessageRing) : Option MessageRing :=
  match s.writer with
  | .filling m k => if k = m.length then
      some { s with wp := s.next s.wp, wn := s.wn + 1, writer := .idle, produced := s.produced ++ [m] }
    else none
  | _ => none

/-- The dump thread copies the next of the `rbd->len` bytes behind `rbd->data`. -/
def loadByte (s : MessageRing) : Option MessageRing :=
  if s.wn - s.rn ≠ 0 then do
    let slot ← s.slots[s.rp]?
    let x ← slot.data
    let copied := s.copied.getD []
    if copied.length < slot.len then
      some { s with copied := some (copied ++ [s.mem (x.extent.addr + copied.length)]) }
    else none
  else none

def getAdvance (s : MessageRing) : Option MessageRing := do
  let copied ← s.copied
  let slot ← s.slots[s.rp]?
  if copied.length = slot.len then
    some { s with rp := s.next s.rp, rn := s.rn + 1, copied := none, sent := s.sent ++ [copied] }
  else none

def messageStep (s : MessageRing) : MessageAct → Option MessageRing
  | .take => takeSlot s
  | .alloc m answer => allocSlot s m answer
  | .store => storeByte s
  | .setAdvance => setAdvance s
  | .load => loadByte s
  | .getAdvance => getAdvance s

/-- What the dump thread finds in front: what it has copied, when that is all of it, or else what lies
in the chunk. -/
def MessageRing.front (s : MessageRing) : List (List UInt8) :=
  if s.wn - s.rn = 0 then []
  else match getAdvance s with
    | some t => t.sent.drop s.sent.length
    | none => (s.slots[s.rp]?.bind fun slot => slot.data.map fun x => s.mem.read x.extent.addr slot.len).toList

/-- The message has bytes and its chunk is long enough. -/
def MessageRing.FitsChunk (s : MessageRing) : MessageAct → Prop
  | .alloc m _ => m ≠ [] ∧ s.use.pool.Fits m.length
  | _ => True

def MessageRing.Holds (s : MessageRing) (n : ℕ) (m : List UInt8) : Prop :=
  ∃ x, s.slots[n % s.slots.length]? = some ⟨m.length, some x⟩ ∧ m.length ≤ x.extent.len ∧
    s.mem.read x.extent.addr m.length = m

/-- How far the io thread is with the slot that it has, which the dump thread cannot see. -/
def MessageRing.Writing (s : MessageRing) : Prop :=
  match s.writer with
  | .taken => s.wn < s.rn + s.slots.length ∧ ∃ len, s.slots[s.wp]? = some ⟨len, none⟩
  | .filling m k => s.wn < s.rn + s.slots.length ∧ m ≠ [] ∧ k ≤ m.length ∧
      ∃ x, s.slots[s.wp]? = some ⟨m.length, some x⟩ ∧ m.length ≤ x.extent.len ∧
        s.mem.read x.extent.addr k = m.take k
  | _ => True

/-- The chunks in use are those of the slots and those of the `others` who use the pool. -/
structure MessageRing.Inv (others : List Chunk) (s : MessageRing) : Prop where
  pool : s.use.Inv
  live : s.use.live.Perm (s.slots.filterMap RsRingbufData.data ++ others)
  wp : s.wp = s.wn % s.slots.length
  rp : s.rp = s.rn % s.slots.length
  wn : s.produced.length = s.wn
  rn : s.sent.length = s.rn
  le : s.rn ≤ s.wn ∧ s.wn ≤ s.rn + s.slots.length
  sent : s.sent <+: s.produced
  unread : ∀ n m, s.rn ≤ n → s.produced[n]? = some m → m ≠ [] ∧ s.Holds n m
  copied : ∀ c, s.copied = some c → ∃ m, s.produced[s.rn]? = some m ∧ c <+: m
  writing : s.Writing

variable {others : List Chunk} {s t : MessageRing} {m : List UInt8} {i j n : ℕ}

theorem MessageRing.Inv.apart (h : s.Inv others) {a b : RsRingbufData} {x y : Chunk} (hij : i ≠ j)
    (hi : s.slots[i]? = some a) (hj : s.slots[j]? = some b) (hx : a.data = some x)
    (hy : b.data = some y) : x.extent.Apart y.extent := by
  have hlive : (s.use.live.map Chunk.extent).Pairwise Extent.Apart :=
    (List.pairwise_append.mp (List.pairwise_append.mp h.pool.apart).2.1).2.1
  rw [Extent.pairwise_perm (h.live.map _), List.map_append] at hlive
  have hslots := List.pairwise_filterMap.mp (List.pairwise_map.mp (List.pairwise_append.mp hlive).1)
  obtain ⟨hilt, rfl⟩ := List.getElem?_eq_some_iff.mp hi
  obtain ⟨hjlt, rfl⟩ := List.getElem?_eq_some_iff.mp hj
  rcases Nat.lt_or_gt_of_ne hij with hlt | hgt
  · exact List.pairwise_iff_getElem.mp hslots i j hilt hjlt hlt x hx y hy
  · exact (List.pairwise_iff_getElem.mp hslots j i hjlt hilt hgt y hy x hx).symm

/-- The slot of a message that is not taken yet is not the one that the io thread has. -/
theorem MessageRing.Inv.slot_ne (h : s.Inv others) (hfree : s.wn < s.rn + s.slots.length)
    (hn : s.rn ≤ n) (hm : s.produced[n]? = some m) : n % s.slots.length ≠ s.wp := by
  have hlt := (List.getElem?_eq_some_iff.mp hm).1
  rw [h.wn] at hlt
  rw [h.wp]
  exact mod_ne_of_window hlt (by omega)

theorem MessageRing.Inv.index_lt (h : s.Inv others) (hfree : s.wn < s.rn + s.slots.length) :
    s.wp < s.slots.length := by
  have := h.le
  rw [h.wp]
  exact Nat.mod_lt _ (by omega)

theorem filterMap_set {l : List RsRingbufData} {a : RsRingbufData} (hi : l[i]? = some a) (b : RsRingbufData) :
    ∃ r, (l.filterMap RsRingbufData.data).Perm (a.data.toList ++ r) ∧
      ((l.set i b).filterMap RsRingbufData.data).Perm (b.data.toList ++ r) := by
  have hcons (c : RsRingbufData) (r : List RsRingbufData) :
      (c :: r).filterMap RsRingbufData.data = c.data.toList ++ r.filterMap RsRingbufData.data := by
    rw [List.filterMap_cons]
    cases c.data <;> rfl
  obtain ⟨r, hl, hset⟩ := perm_set hi
  refine ⟨r.filterMap RsRingbufData.data, ?_, ?_⟩
  · rw [← hcons]
    exact hl.filterMap _
  · rw [← hcons]
    exact (hset b).filterMap _

/-- What the io thread does to its own slot is not seen in the messages that are not taken yet. -/
theorem MessageRing.Inv.unread_frame (h : s.Inv others) (hfree : s.wn < s.rn + s.slots.length)
    (hlen : t.slots.length = s.slots.length) (hslots : ∀ i, i ≠ s.wp → t.slots[i]? = s.slots[i]?)
    (hread : ∀ i a x, i ≠ s.wp → s.slots[i]? = some a → a.data = some x → a.len ≤ x.extent.len →
      t.mem.read x.extent.addr a.len = s.mem.read x.extent.addr a.len)
    (hn : s.rn ≤ n) (hm : s.produced[n]? = some m) : m ≠ [] ∧ t.Holds n m := by
  obtain ⟨hne, x, hslot, hfits, hmem⟩ := h.unread n m hn hm
  have hi := h.slot_ne hfree hn hm
  refine ⟨hne, x, ?_, hfits, ?_⟩
  · rw [hlen, hslots _ hi, hslot]
  · rw [hread _ _ x hi hslot rfl hfits, hmem]

theorem MessageRing.Inv.take (h : s.Inv others) (hs : takeSlot s = some t) : t.Inv others := by
  rw [takeSlot] at hs
  obtain ⟨⟨-, hroom⟩, hs⟩ := Option.ite_none_right_eq_some.mp hs
  obtain ⟨⟨len, data⟩, hslot, hs⟩ := Option.bind_eq_some_iff.mp hs
  have hfree : s.wn < s.rn + s.slots.length := by
    have := h.le
    omega
  cases data with
  | none =>
    obtain rfl := Option.some.inj hs
    exact { h with writing := ⟨hfree, len, hslot⟩ }
  | some x =>
    obtain ⟨use, hcall, rfl⟩ := Option.map_eq_some_iff.mp hs
    obtain ⟨r, hl, hset⟩ := filterMap_set hslot rsRingbufDataTInit
    have hlive : s.use.live.Perm (x :: (r ++ others)) := h.live.trans (hl.append_right others)
    obtain ⟨use', hcall', hinv⟩ := h.pool.pfree (hlive.symm.subset List.mem_cons_self)
    obtain rfl := Option.some.inj (hcall.symm.trans hcall')
    have huse : use.live = s.use.live.erase x := by
      obtain ⟨p, -, rfl⟩ := Option.map_eq_some_iff.mp hcall
      rfl
    have hlen : (s.slots.set s.wp rsRingbufDataTInit).length = s.slots.length := List.length_set
    exact
      { h with
        pool := hinv
        live := by
          rw [huse]
          refine ((List.perm_cons_erase ?_).symm.trans hlive).cons_inv.trans (hset.symm.append_right others)
          exact hlive.symm.subset List.mem_cons_self
        wp := by rw [hlen]; exact h.wp
        rp := by rw [hlen]; exact h.rp
        le := by rw [hlen]; exact h.le
        unread := fun n m hn hm => h.unread_frame hfree hlen
          (fun i hi => List.getElem?_set_ne (Ne.symm hi)) (fun _ _ _ _ _ _ _ => rfl) hn hm
        writing := by
          refine ⟨by rw [hlen]; exact hfree, 0, ?_⟩
          exact List.getElem?_set_self (h.index_lt hfree) }

theorem MessageRing.Inv.alloc {answer : ℕ} (h : s.Inv others) (hok : s.FitsChunk (.alloc m answer))
    (hs : allocSlot s m answer = some t) : t.Inv others := by
  rw [allocSlot] at hs
  obtain ⟨hp, hs⟩ := Option.ite_none_right_eq_some.mp hs
  obtain ⟨id, hid, hs⟩ := Option.bind_eq_some_iff.mp hs
  obtain ⟨hen, hs⟩ := Option.ite_none_right_eq_some.mp hs
  obtain ⟨⟨data, pool⟩, hrun, hs⟩ := Option.bind_eq_some_iff.mp hs
  obtain rfl := Option.some.inj hs
  have hwriting := h.writing
  rw [Writing, hp] at hwriting
  obtain ⟨hfree, len, hslot⟩ := hwriting
  obtain ⟨hne, hfits⟩ := hok
  have hcall : poolCall s.use (.palloc m.length id answer) =
      some ⟨pool, (data.map fun a => (⟨id, a, chunkLen s.use.pool m.length id⟩ : Chunk)).toList ++ s.use.live⟩ := by
    rw [poolCall, hrun]
    rfl
  obtain ⟨use', hcall', hinv⟩ := h.pool.palloc hen
  obtain rfl := Option.some.inj (hcall.symm.trans hcall')
  obtain ⟨r, hl, hset⟩ := filterMap_set hslot
    ⟨m.length, data.map fun a => (⟨id, a, chunkLen s.use.pool m.length id⟩ : Chunk)⟩
  have hlen (b : RsRingbufData) : (s.slots.set s.wp b).length = s.slots.length := List.length_set
  exact
    { h with
      pool := hinv
      live := by
        refine List.Perm.trans ?_ (hset.symm.append_right others)
        rw [List.append_assoc]
        exact (h.live.trans (hl.append_right others)).append_left _
      wp := by rw [hlen]; exact h.wp
      rp := by rw [hlen]; exact h.rp
      le := by rw [hlen]; exact h.le
      unread := fun n m hn hm => h.unread_frame hfree (hlen _)
        (fun i hi => List.getElem?_set_ne (Ne.symm hi)) (fun _ _ _ _ _ _ _ => rfl) hn hm
      writing := by
        cases data with
        | none => exact trivial
        | some a =>
          refine ⟨by rw [hlen]; exact hfree, hne, Nat.zero_le _, _,
            List.getElem?_set_self (h.index_lt hfree), hfits id hid, rfl⟩ }

theorem MessageRing.Inv.store (h : s.Inv others) (hs : storeByte s = some t) : t.Inv others := by
  rw [storeByte] at hs
  split at hs
  · rename_i m k hp
    obtain ⟨b, hb, hs⟩ := Option.bind_eq_some_iff.mp hs
    have hwriting := h.writing
    rw [Writing, hp] at hwriting
    obtain ⟨hfree, hne, hk, x, hslot, hfits, hmem⟩ := hwriting
    rw [hslot] at hs
    obtain rfl := Option.some.inj hs
    have hlt := (List.getElem?_eq_some_iff.mp hb).1
    exact
      { h with
        unread := fun n m' hn hm => h.unread_frame hfree rfl (fun _ _ => rfl)
          (fun i a y hi ha hy hlen => Memory.read_store_apart (h.apart hi ha hslot hy rfl)
            ⟨by omega, by omega⟩ hlen) hn hm
        writing := by
          refine ⟨hfree, hne, hlt, x, hslot, hfits, ?_⟩
          change (s.mem.store (x.extent.addr + k) b).read x.extent.addr (k + 1) = _
          rw [Memory.read_store_next, hmem, List.take_add_one, hb]
          rfl }
  · cases hs

theorem MessageRing.Inv.setAdvance (h : s.Inv others) (hs : Master.setAdvance s = some t) :
    t.Inv others := by
  rw [Master.setAdvance] at hs
  split at hs
  · rename_i m k hp
    split_ifs at hs with hk
    obtain rfl := Option.some.inj hs
    have hwriting := h.writing
    rw [Writing, hp] at hwriting
    obtain ⟨hfree, hne, -, x, hslot, hfits, hmem⟩ := hwriting
    have hpos := h.index_lt hfree
    have hold {n : ℕ} {m' : List UInt8} (hm : s.produced[n]? = some m') :
        (s.produced ++ [m])[n]? = some m' := by
      rw [List.getElem?_append_left (List.getElem?_eq_some_iff.mp hm).1, hm]
    have hle := h.le
    exact
      { h with
        wp := by
          change s.next s.wp = (s.wn + 1) % s.slots.length
          rw [next, h.wp, mod_succ_eq (by omega)]
        wn := by
          change (s.produced ++ [m]).length = s.wn + 1
          rw [List.length_append, h.wn]
          rfl
        le := ⟨Nat.le_succ_of_le hle.1, hfree⟩
        sent := h.sent.trans (List.prefix_append _ _)
        unread := fun n m' hn hm => by
          rcases Nat.lt_or_ge n s.produced.length with hlt | hge
          · refine h.unread n m' hn ?_
            rwa [List.getElem?_append_left hlt] at hm
          · change (s.produced ++ [m])[n]? = some m' at hm
            rw [List.getElem?_append_right hge] at hm
            obtain ⟨hlt, hm⟩ := List.getElem?_eq_some_iff.mp hm
            obtain rfl : m = m' := by simpa using hm
            obtain rfl : n = s.wn := by
              have hwn := h.wn
              rw [List.length_singleton] at hlt
              omega
            refine ⟨hne, x, ?_, hfits, ?_⟩
            · change s.slots[s.wn % s.slots.length]? = _
              rw [← h.wp, hslot]
            · rw [hk, List.take_length] at hmem
              exact hmem
        copied := fun c hc => by
          obtain ⟨m', hm, hprefix⟩ := h.copied c hc
          exact ⟨m', hold hm, hprefix⟩
        writing := trivial }
  · cases hs

theorem MessageRing.Inv.load (h : s.Inv others) (hs : loadByte s = some t) : t.Inv others := by
  rw [loadByte] at hs
  obtain ⟨hne, hs⟩ := Option.ite_none_right_eq_some.mp hs
  obtain ⟨slot, hslot, hs⟩ := Option.bind_eq_some_iff.mp hs
  obtain ⟨x, hx, hs⟩ := Option.bind_eq_some_iff.mp hs
  obtain ⟨hlt, hs⟩ := Option.ite_none_right_eq_some.mp hs
  obtain rfl := Option.some.inj hs
  have hlen : s.rn < s.produced.length := by
    rw [h.wn]
    omega
  obtain ⟨m, hm⟩ : ∃ m, s.produced[s.rn]? = some m := ⟨_, List.getElem?_eq_getElem hlen⟩
  obtain ⟨-, y, hslot', -, hmem⟩ := h.unread s.rn m le_rfl hm
  rw [← h.rp, hslot] at hslot'
  obtain rfl := Option.some.inj hslot'
  obtain rfl := Option.some.inj hx
  have hprefix : s.copied.getD [] <+: m := by
    cases hc : s.copied with
    | none => exact List.nil_prefix
    | some c =>
      obtain ⟨m', hm', hprefix⟩ := h.copied c hc
      obtain rfl := Option.some.inj (hm.symm.trans hm')
      exact hprefix
  have hbyte : m[(s.copied.getD []).length]? = some (s.mem (y.extent.addr + (s.copied.getD []).length)) := by
    rw [← Memory.getElem?_read hlt, hmem]
  refine { h with copied := fun c hc => ⟨m, hm, ?_⟩ }
  obtain rfl := Option.some.inj hc
  have htake := List.take_add_one (l := m) (i := (s.copied.getD []).length)
  rw [hbyte, ← List.prefix_iff_eq_take.mp hprefix] at htake
  exact htake ▸ List.take_prefix _ m

/-- What the dump thread has copied is the message in front. -/
theorem MessageRing.Inv.getAdvance_eq (h : s.Inv others) (hs : Master.getAdvance s = some t) :
    ∃ m, s.produced[s.rn]? = some m ∧
      t = { s with rp := s.next s.rp, rn := s.rn + 1, copied := none, sent := s.sent ++ [m] } := by
  obtain ⟨c, hc, hs⟩ := Option.bind_eq_some_iff.mp hs
  obtain ⟨slot, hslot, hs⟩ := Option.bind_eq_some_iff.mp hs
  obtain ⟨hlen, ht⟩ := Option.ite_none_right_eq_some.mp hs
  obtain ⟨m, hm, hprefix⟩ := h.copied c hc
  obtain ⟨-, y, hslot', -, -⟩ := h.unread s.rn m le_rfl hm
  rw [← h.rp, hslot] at hslot'
  obtain rfl := Option.some.inj hslot'
  obtain rfl : c = m := hprefix.eq_of_length hlen
  exact ⟨c, hm, (Option.some.inj ht).symm⟩

theorem MessageRing.Inv.getAdvance (h : s.Inv others) (hs : Master.getAdvance s = some t) :
    t.Inv others := by
  obtain ⟨m, hm, rfl⟩ := h.getAdvance_eq hs
  have hlt : s.rn < s.wn := by
    rw [← h.wn]
    exact (List.getElem?_eq_some_iff.mp hm).1
  have hle := h.le
  exact
    { h with
      rp := by
        change s.next s.rp = (s.rn + 1) % s.slots.length
        rw [next, h.rp, mod_succ_eq (by omega)]
      rn := by
        change (s.sent ++ [m]).length = s.rn + 1
        rw [List.length_append, h.rn]
        rfl
      le := ⟨hlt, hle.2.trans (Nat.add_le_add_right (Nat.le_succ s.rn) _)⟩
      sent := by
        change s.sent ++ [m] <+: s.produced
        have htake := List.take_add_one (l := s.produced) (i := s.rn)
        have hsent := List.prefix_iff_eq_take.mp h.sent
        rw [h.rn] at hsent
        rw [hm, ← hsent] at htake
        exact htake ▸ List.take_prefix _ s.produced
      unread := fun n m hn hm => h.unread n m (Nat.le_of_succ_le hn) hm
      copied := nofun
      writing := by
        have hwriting := h.writing
        unfold Writing at hwriting ⊢
        cases hp : s.writer with
        | taken =>
          rw [hp] at hwriting
          exact ⟨hwriting.1.trans (by dsimp only; omega), hwriting.2⟩
        | filling m k =>
          rw [hp] at hwriting
          exact ⟨hwriting.1.trans (by dsimp only; omega), hwriting.2⟩
        | _ => trivial }

theorem MessageRing.Inv.step {a : MessageAct} (h : s.Inv others) (hok : s.FitsChunk a)
    (hs : messageStep s a = some t) : t.Inv others := by
  cases a with
  | take => exact h.take hs
  | alloc m answer => exact h.alloc hok hs
  | store => exact h.store hs
  | setAdvance => exact h.setAdvance hs
  | load => exact h.load hs
  | getAdvance => exact h.getAdvance hs

theorem MessageRing.init_inv {use : PoolUse} (h : use.Inv) (mem : Memory UInt8) (num : ℕ) :
    (MessageRing.init use mem num).Inv use.live where
  pool := h
  live := by
    have hnone : (List.replicate num rsRingbufDataTInit).filterMap RsRingbufData.data = [] := by
      rw [List.filterMap_replicate_of_none rfl]
    change use.live.Perm ((List.replicate num rsRingbufDataTInit).filterMap RsRingbufData.data ++ use.live)
    rw [hnone]
    exact List.Perm.refl _
  wp := (Nat.zero_mod _).symm
  rp := (Nat.zero_mod _).symm
  wn := rfl
  rn := rfl
  le := ⟨le_rfl, Nat.zero_le _⟩
  sent := List.nil_prefix
  unread := nofun
  copied := nofun
  writing := trivial

structure MessageRing.Same (p : RsPool) (num : ℕ) (s : MessageRing) : Prop where
  table : p.SameTable s.use.pool
  slots : s.slots.length = num

variable {p : RsPool} {num : ℕ}

inductive MessageRing.Counts (s t : MessageRing) : MessageAct → Prop where
  | keeps {a : MessageAct} (ha : a ≠ .setAdvance)
      (h : t.produced = s.produced ∧ t.wn = s.wn ∧ t.rn = s.rn ∧ t.sent = s.sent) : s.Counts t a
  | puts {m : List UInt8} (hm : s.writer = .filling m m.length) (hidle : t.writer = .idle)
      (h : t.produced = s.produced ++ [m] ∧ t.wn = s.wn + 1 ∧ t.rn = s.rn ∧ t.sent = s.sent) : s.Counts t .setAdvance
  | gets {c : List UInt8} (hc : getAdvance s = some t)
      (h : t.produced = s.produced ∧ t.wn = s.wn ∧ t.rn = s.rn + 1 ∧ t.sent = s.sent ++ [c]) : s.Counts t .getAdvance

structure MessageRing.Stepped (s t : MessageRing) (a : MessageAct) : Prop where
  counts : s.Counts t a
  table : s.use.pool.SameTable t.use.pool
  slots : t.slots.length = s.slots.length
  writer : ∀ m k, t.writer = .filling m k → (∃ j, s.writer = .filling m j) ∨ ∃ answer, a = .alloc m answer

/-- Only the two advances are seen in the counts, and a message that is being stored is one for which
a chunk was asked for. -/
theorem messageStep_stepped {a : MessageAct} (hs : messageStep s a = some t) : s.Stepped t a := by
  cases a with
  | take =>
    obtain ⟨-, hs⟩ := Option.ite_none_right_eq_some.mp hs
    obtain ⟨⟨len, data⟩, -, hs⟩ := Option.bind_eq_some_iff.mp hs
    cases data with
    | none =>
      obtain rfl := Option.some.inj hs
      exact ⟨.keeps nofun ⟨rfl, rfl, rfl, rfl⟩, .refl _, rfl, nofun⟩
    | some x =>
      obtain ⟨use, hcall, rfl⟩ := Option.map_eq_some_iff.mp hs
      exact ⟨.keeps nofun ⟨rfl, rfl, rfl, rfl⟩, poolCall_sameTable hcall, List.length_set, nofun⟩
  | alloc m answer =>
    obtain ⟨-, hs⟩ := Option.ite_none_right_eq_some.mp hs
    obtain ⟨id, -, hs⟩ := Option.bind_eq_some_iff.mp hs
    obtain ⟨-, hs⟩ := Option.ite_none_right_eq_some.mp hs
    obtain ⟨⟨data, pool⟩, hrun, hs⟩ := Option.bind_eq_some_iff.mp hs
    obtain rfl := Option.some.inj hs
    refine ⟨.keeps nofun ⟨rfl, rfl, rfl, rfl⟩, rsPalloc_sameTable hrun, List.length_set,
        fun m' k hm => Or.inr ⟨answer, ?_⟩⟩
    cases data with
    | none => cases hm
    | some x =>
      obtain ⟨rfl, -⟩ := WriterPhase.filling.inj hm
      rfl
  | store =>
    rw [messageStep, storeByte] at hs
    split at hs
    · rename_i m k hp
      obtain ⟨b, -, hs⟩ := Option.bind_eq_some_iff.mp hs
      obtain ⟨slot, -, hs⟩ := Option.bind_eq_some_iff.mp hs
      obtain ⟨x, -, hs⟩ := Option.bind_eq_some_iff.mp hs
      obtain rfl := Option.some.inj hs
      refine ⟨.keeps nofun ⟨rfl, rfl, rfl, rfl⟩, .refl _, rfl, fun m' k' hm => Or.inl ⟨k, ?_⟩⟩
      obtain ⟨rfl, -⟩ := WriterPhase.filling.inj hm
      exact hp
    · cases hs
  | setAdvance =>
    rw [messageStep, setAdvance] at hs
    split at hs
    · rename_i m k hp
      obtain ⟨hk, hs⟩ := Option.ite_none_right_eq_some.mp hs
      obtain rfl := Option.some.inj hs
      exact ⟨.puts (hk ▸ hp) rfl ⟨rfl, rfl, rfl, rfl⟩, .refl _, rfl, nofun⟩
    · cases hs
  | load =>
    obtain ⟨-, hs⟩ := Option.ite_none_right_eq_some.mp hs
    obtain ⟨slot, -, hs⟩ := Option.bind_eq_some_iff.mp hs
    obtain ⟨x, -, hs⟩ := Option.bind_eq_some_iff.mp hs
    obtain ⟨-, hs⟩ := Option.ite_none_right_eq_some.mp hs
    obtain rfl := Option.some.inj hs
    exact ⟨.keeps nofun ⟨rfl, rfl, rfl, rfl⟩, .refl _, rfl, fun _ k hm => Or.inl ⟨k, hm⟩⟩
  | getAdvance =>
    have hget := hs
    obtain ⟨c, -, hs⟩ := Option.bind_eq_some_iff.mp hs
    obtain ⟨slot, -, hs⟩ := Option.bind_eq_some_iff.mp hs
    obtain ⟨-, hs⟩ := Option.ite_none_right_eq_some.mp hs
    obtain rfl := Option.some.inj hs
    exact ⟨.gets hget ⟨rfl, rfl, rfl, rfl⟩, .refl _, rfl, fun _ k hm => Or.inl ⟨k, hm⟩⟩

theorem MessageRing.Same.step {a : MessageAct} (h : s.Same p num) (hs : messageStep s a = some t) :
    t.Same p num := by
  have hstep := messageStep_stepped hs
  exact ⟨h.table.trans hstep.table, hstep.slots.trans h.slots⟩

theorem MessageRing.Inv.getAdvance_front (h : s.Inv others) (hs : Master.getAdvance s = some t) :
    ∃ m, s.produced.drop s.rn = m :: s.produced.drop (s.rn + 1) ∧ t.sent = s.sent ++ [m] := by
  obtain ⟨m, hm, rfl⟩ := h.getAdvance_eq hs
  obtain ⟨hlt, hget⟩ := List.getElem?_eq_some_iff.mp hm
  exact ⟨m, by rw [List.drop_eq_getElem_cons hlt, hget], rfl⟩

theorem MessageRing.Inv.front_eq (h : s.Inv others) : s.front = (s.produced.drop s.rn).take 1 := by
  rw [front]
  split_ifs with hempty
  · rw [List.drop_eq_nil_of_le (by rw [h.wn]; omega)]
    rfl
  · cases hget : Master.getAdvance s with
    | some t =>
      obtain ⟨m, hfront, hsent⟩ := h.getAdvance_front hget
      dsimp only
      rw [hfront, hsent, List.drop_left]
      rfl
    | none =>
      have hlt : s.rn < s.produced.length := by
        rw [h.wn]
        omega
      obtain ⟨-, x, hslot, -, hmem⟩ := h.unread s.rn _ le_rfl (List.getElem?_eq_getElem hlt)
      rw [h.rp, hslot, List.drop_eq_getElem_cons hlt]
      exact congrArg (fun m => [m]) hmem

structure MessageRing.Denotes (s : MessageRing) (q : Queue (List UInt8)) : Prop where
  items : q.items = s.produced.drop s.rn
  produced : q.produced = s.produced
  taken : q.taken = s.sent

theorem MessageRing.Denotes.step {a : MessageAct} {q : Queue (List UInt8)} (h : s.Inv others)
    (hq : s.Denotes q) (hs : messageStep s a = some t) :
    ∃ bs r, exec (queueStep s.slots.length) q bs = some r ∧ t.Denotes r := by
  have hle := h.le
  cases (messageStep_stepped hs).counts with
  | keeps _ hkeeps =>
    obtain ⟨hproduced, -, hrn, hsent⟩ := hkeeps
    exact ⟨[], q, rfl, by rw [hproduced, hrn, hq.items], by rw [hproduced, hq.produced], by rw [hsent, hq.taken]⟩
  | @puts m hm _ hputs =>
    obtain ⟨hproduced, -, hrn, hsent⟩ := hputs
    have hwriting := h.writing
    rw [Writing, hm] at hwriting
    have hlen : q.items.length < s.slots.length := by
      rw [hq.items, List.length_drop, h.wn]
      have := hwriting.1
      omega
    refine ⟨[.push m], ⟨q.items ++ [m], q.produced ++ [m], q.taken⟩, ?_, ?_, ?_, by rw [hsent, ← hq.taken]⟩
    · rw [exec_cons, queueStep, if_pos hlen]
      rfl
    · rw [hproduced, hrn, List.drop_append_of_le_length (h.wn ▸ hle.1), hq.items]
    · rw [hproduced, hq.produced]
  | @gets c hc hgets =>
    obtain ⟨hproduced, -, hrn, -⟩ := hgets
    obtain ⟨m, hfront, hsent⟩ := h.getAdvance_front hc
    refine ⟨[.pop], ⟨s.produced.drop (s.rn + 1), q.produced, q.taken ++ [m]⟩, ?_, by rw [hproduced, hrn],
      by rw [hproduced, hq.produced], by rw [hsent, hq.taken]⟩
    rw [exec_cons, queueStep, hq.items, hfront]
    rfl

end MySQLSyncer.Master
