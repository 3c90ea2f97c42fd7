import MySQLSyncer.Lib.Memory
import MySQLSyncer.Lib.Window
import MySQLSyncer.Slave.MessageChunks

/-! # The bytes of the messages in the slave's ring

A message lies in the chunk of its slot, into which `rs_recv_tmpbuf` copies it, until the other
thread has read it. A copy that is longer than its chunk runs over the bytes behind it.
-/
namespace MySQLSyncer.Slave
open Lib MySQLSyncer.Core

/-- The slots with `rbd->len` of each, the counter `rb->wn`, and the memory of the chunks. The last
field is what the other thread has read. -/
structure StoredMessages where
  ring : MessageSlots
  lens : List ℕ
  wn : ℕ
  mem : Memory UInt8
  taken : List (List UInt8)

def StoredMessages.init (use : PoolUse) (mem : Memory UInt8) (num : ℕ) : StoredMessages :=
  ⟨.init use num, List.replicate num 0, 0, mem, []⟩

namespace StoredMessages

/-- The `rbd->len` bytes behind `rbd->data`. -/
def slotBytes (t : StoredMessages) (i : ℕ) : Option (List UInt8) := do
  let x ← t.ring.slots[i]?.join
  let len ← t.lens[i]?
  some (t.mem.read x.extent.addr len)

/-- The slot that `rb->rp` and the `i` slots behind it come to. -/
def readSlot (t : StoredMessages) (i : ℕ) : ℕ := (t.wn - t.ring.used + i) % t.ring.slots.length

def unread (t : StoredMessages) : List (List UInt8) :=
  (List.range t.ring.used).filterMap fun i => t.slotBytes (t.readSlot i)

def copy (t : StoredMessages) (k : ℕ) (data : List UInt8) : StoredMessages :=
  match t.ring.slots[t.ring.wp]?.join with
  | some x => { t with mem := t.mem.write (x.extent.addr + k) data }
  | none => t

def alloc (t : StoredMessages) (len : UInt32) (answer : ℕ) : Option StoredMessages :=
  (slotStep t.ring (.length (some (len, answer)))).map fun ring =>
    { t with ring := ring, lens := t.lens.set t.ring.wp len.toNat }

def filled (t : StoredMessages) (ok : Bool) : Option StoredMessages :=
  (slotStep t.ring (.payload ok)).map fun ring => { t with ring := ring, wn := if ok then t.wn + 1 else t.wn }

def consume (t : StoredMessages) : Option StoredMessages := do
  let ring ← slotStep t.ring .consume
  let m ← t.slotBytes (t.readSlot 0)
  some { t with ring := ring, taken := t.taken ++ [m] }

def Holds (t : StoredMessages) (n : ℕ) (m : List UInt8) : Prop :=
  ∃ x, t.ring.slots[n % t.ring.slots.length]? = some (some x) ∧
    t.lens[n % t.ring.slots.length]? = some m.length ∧ m.length ≤ x.extent.len ∧
    t.mem.read x.extent.addr m.length = m

/-- The first bytes of a message of `n` bytes are in the chunk of the slot that is being filled. -/
def Filling (t : StoredMessages) (copied : List UInt8) (n : ℕ) : Prop :=
  ∃ x, t.ring.slots[t.ring.wp]? = some (some x) ∧ t.lens[t.ring.wp]? = some n ∧ n ≤ x.extent.len ∧
    t.mem.read x.extent.addr copied.length = copied

structure Stores (t : StoredMessages) (q : List (List UInt8)) : Prop where
  wp : t.ring.wp = t.wn % t.ring.slots.length
  lens : t.lens.length = t.ring.slots.length
  used : t.ring.used = q.length
  le : q.length ≤ t.wn ∧ q.length ≤ t.ring.slots.length
  holds : ∀ i m, q[i]? = some m → t.Holds (t.wn - q.length + i) m

def Room (t : StoredMessages) : Prop := t.ring.used < t.ring.slots.length

structure Receiving (others : List Chunk) (p : RsPool) (q : List (List UInt8)) (copied : List UInt8) (n : ℕ)
    (t : StoredMessages) : Prop where
  ring : t.ring.Inv others
  table : p.SameTable t.ring.use.pool
  phase : t.ring.phase = .payload
  stores : t.Stores q
  room : t.Room
  filling : t.Filling copied n

variable {others : List Chunk} {p : RsPool} {t u : StoredMessages}
    {q : List (List UInt8)} {m copied data : List UInt8}
  {i j n k answer : ℕ} {len : UInt32}

@[simp] theorem copy_ring (t : StoredMessages) (k : ℕ) (data : List UInt8) : (t.copy k data).ring = t.ring := by
  rw [copy]
  split <;> rfl

@[simp] theorem copy_lens (t : StoredMessages) (k : ℕ) (data : List UInt8) : (t.copy k data).lens = t.lens := by
  rw [copy]
  split <;> rfl

@[simp] theorem copy_wn (t : StoredMessages) (k : ℕ) (data : List UInt8) : (t.copy k data).wn = t.wn := by
  rw [copy]
  split <;> rfl

@[simp] theorem copy_taken (t : StoredMessages) (k : ℕ) (data : List UInt8) : (t.copy k data).taken = t.taken := by
  rw [copy]
  split <;> rfl

theorem copy_mem {x : Chunk} (h : t.ring.slots[t.ring.wp]? = some (some x)) (k : ℕ) (data : List UInt8) :
    (t.copy k data).mem = t.mem.write (x.extent.addr + k) data := by
  rw [copy, h]
  rfl

theorem filled_taken {ok : Bool} (hs : t.filled ok = some u) : u.taken = t.taken := by
  obtain ⟨ring, -, rfl⟩ := Option.map_eq_some_iff.mp hs
  rfl

theorem alloc_taken (hs : t.alloc len answer = some u) : u.taken = t.taken := by
  obtain ⟨ring, -, rfl⟩ := Option.map_eq_some_iff.mp hs
  rfl

theorem Holds.slotBytes (h : t.Holds n m) : t.slotBytes (n % t.ring.slots.length) = some m := by
  obtain ⟨x, hslot, hlen, -, hmem⟩ := h
  simp [StoredMessages.slotBytes, hslot, hlen, hmem]

theorem Stores.slotBytes (h : t.Stores q) (hm : q[i]? = some m) : t.slotBytes (t.readSlot i) = some m := by
  rw [readSlot, h.used]
  exact (h.holds i m hm).slotBytes

theorem Stores.unread_eq (h : t.Stores q) : t.unread = q := by
  have hmap : (List.range q.length).map (fun i => t.slotBytes (t.readSlot i)) = q.map some := by
    refine List.ext_getElem (by simp) fun i hi hi' => ?_
    rw [List.getElem_map, List.getElem_map, List.getElem_range]
    exact h.slotBytes (List.getElem?_eq_getElem _)
  calc t.unread = ((List.range q.length).map fun i => t.slotBytes (t.readSlot i)).filterMap id := by
        rw [unread, h.used, List.filterMap_map]
        rfl
    _ = q := by
        rw [hmap, List.filterMap_map]
        exact List.filterMap_some

theorem apart_of_inv (h : t.ring.Inv others) (hp : t.ring.phase ≠ .length) (hij : i ≠ j) {x y : Chunk}
    (hi : t.ring.slots[i]? = some (some x)) (hj : t.ring.slots[j]? = some (some y)) : x.extent.Apart y.extent := by
  have hlive : (t.ring.use.live.map Chunk.extent).Pairwise Extent.Apart :=
    (List.pairwise_append.mp (List.pairwise_append.mp h.pool.apart).2.1).2.1
  rw [Extent.pairwise_perm (h.live.map _), List.map_append, MessageSlots.current, if_neg hp] at hlive
  have hslots := List.pairwise_filterMap.mp (List.pairwise_map.mp (List.pairwise_append.mp hlive).1)
  obtain ⟨hilt, hi⟩ := List.getElem?_eq_some_iff.mp hi
  obtain ⟨hjlt, hj⟩ := List.getElem?_eq_some_iff.mp hj
  rcases Nat.lt_or_gt_of_ne hij with hlt | hgt
  · exact List.pairwise_iff_getElem.mp hslots i j hilt hjlt hlt x hi y hj
  · exact (List.pairwise_iff_getElem.mp hslots j i hjlt hilt hgt y hj x hi).symm

/-- The slot that is being filled is not one that is still to be read. -/
theorem Stores.slot_ne (h : t.Stores q) (hroom : t.Room) (hi : i < q.length) :
    (t.wn - q.length + i) % t.ring.slots.length ≠ t.ring.wp := by
  have hle := h.le
  have hused := h.used
  rw [Room] at hroom
  rw [h.wp]
  exact mod_ne_of_window (by omega) (by omega)

theorem Stores.wp_lt (h : t.Stores q) (hroom : t.Room) : t.ring.wp < t.ring.slots.length := by
  rw [Room] at hroom
  rw [h.wp]
  exact Nat.mod_lt _ (by omega)

/-- What happens to the slot that is being filled is not seen in the others. -/
theorem Stores.frame (h : t.Stores q) (hroom : t.Room) (hsize : u.ring.slots.length = t.ring.slots.length)
    (hlens : u.lens.length = t.lens.length) (hwn : u.wn = t.wn) (hwp : u.ring.wp = t.ring.wp)
    (hused : u.ring.used = t.ring.used)
    (hslots : ∀ i, i ≠ t.ring.wp → u.ring.slots[i]? = t.ring.slots[i]? ∧ u.lens[i]? = t.lens[i]?)
    (hread : ∀ i x n, i ≠ t.ring.wp → t.ring.slots[i]? = some (some x) → n ≤ x.extent.len →
      u.mem.read x.extent.addr n = t.mem.read x.extent.addr n) : u.Stores q where
  wp := by rw [hwp, hwn, hsize, h.wp]
  lens := by rw [hlens, hsize, h.lens]
  used := hused.trans h.used
  le := by rw [hwn, hsize]; exact h.le
  holds := fun i m hm => by
    obtain ⟨x, hslot, hlen, hfits, hmem⟩ := h.holds i m hm
    have hne := h.slot_ne hroom (List.getElem?_eq_some_iff.mp hm).1
    rw [Holds, hwn, hsize, (hslots _ hne).1, (hslots _ hne).2]
    exact ⟨x, hslot, hlen, hfits, (hread _ x _ hne hslot hfits).trans hmem⟩

theorem Stores.congr (h : t.Stores q) (hslots : u.ring.slots = t.ring.slots)
    (hlens : u.lens = t.lens) (hmem : u.mem = t.mem)
    (hwn : u.wn = t.wn) (hwp : u.ring.wp = t.ring.wp) (hused : u.ring.used = t.ring.used) : u.Stores q where
  wp := by rw [hwp, hwn, hslots, h.wp]
  lens := by rw [hlens, hslots, h.lens]
  used := hused.trans h.used
  le := by rw [hwn, hslots]; exact h.le
  holds := fun i m hm => by
    rw [Holds, hwn, hslots, hlens, hmem]
    exact h.holds i m hm

theorem Filling.stored (h : t.Filling m m.length) (hq : t.Stores q) : t.Holds t.wn m := by
  obtain ⟨x, hslot, hlen, hfits, hmem⟩ := h
  rw [hq.wp] at hslot hlen
  exact ⟨x, hslot, hlen, hfits, hmem⟩

/-- The slot that is being filled gets a chunk that is long enough, or none. -/
theorem Stores.alloc (h : t.Stores q) (hring : t.ring.Inv others)
    (htable : p.SameTable t.ring.use.pool) (hroom : t.Room)
    (hlen : len ≠ 0) (hfits : p.Fits len.toNat) (hs : t.alloc len answer = some u) :
    u.Receiving others p q [] len.toNat ∨
      u.ring.phase = .exited ∧ u.ring.Inv others ∧ p.SameTable u.ring.use.pool ∧ u.Stores q := by
  obtain ⟨ring, hstep, rfl⟩ := Option.map_eq_some_iff.mp hs
  have hinv := (hring.length hlen hstep).1
  obtain ⟨hp, hstep⟩ := Option.ite_none_right_eq_some.mp hstep
  obtain ⟨id, r, pool, hid, hen, hrun, rfl⟩ := allocMessage_eq (fun h0 => hlen (UInt32.toNat_inj.mp h0)) hstep
  have hwp := h.wp_lt hroom
  have htable' := htable.trans (rsPalloc_sameTable hrun)
  have hsize (x : Option Chunk) : (t.ring.slots.set t.ring.wp x).length = t.ring.slots.length := List.length_set
  have hstores (x : Option Chunk) (use : PoolUse) (phase : SlotPhase) (given : List Chunk) : Stores
      { t with ring := { t.ring with use := use, slots := t.ring.slots.set t.ring.wp x,
                                     phase := phase, given := given },
               lens := t.lens.set t.ring.wp len.toNat } q := by
    refine h.frame hroom (hsize x) (List.length_set ..) rfl rfl rfl (fun i hi => ?_) fun _ _ _ _ _ _ => rfl
    exact ⟨List.getElem?_set_ne (Ne.symm hi), List.getElem?_set_ne (Ne.symm hi)⟩
  cases r with
  | none => exact Or.inr ⟨rfl, hinv, htable', hstores _ _ _ _⟩
  | some a =>
    have hfit : len.toNat ≤ chunkLen t.ring.use.pool len.toNat id := htable.fits hfits id hid
    exact Or.inl
      { ring := hinv
        table := htable'
        phase := rfl
        stores := hstores _ _ _ _
        room := (hroom.trans_eq (hsize _).symm : t.ring.used < _)
        filling := ⟨_, List.getElem?_set_self hwp, List.getElem?_set_self (h.lens ▸ hwp), hfit, rfl⟩ }

theorem Receiving.copy (h : t.Receiving others p q copied n) (hn : copied.length + data.length ≤ n) :
    (t.copy copied.length data).Receiving others p q (copied ++ data) n := by
  obtain ⟨x, hslot, hlen, hfits, hmem⟩ := h.filling
  have hp : t.ring.phase ≠ .length := by simp [h.phase]
  have hstores : (t.copy copied.length data).Stores q := by
    refine h.stores.frame h.room (by simp) (by simp) (by simp) (by simp) (by simp) (fun i _ =>
        by simp) fun i y k hi hy hk => ?_
    rw [copy_mem hslot]
    exact Memory.read_write_apart (apart_of_inv h.ring hp hi hy hslot) (by omega) (by omega) hk
  have hfilling : (t.copy copied.length data).Filling (copied ++ data) n := by
    rw [Filling, copy_ring, copy_lens, copy_mem hslot]
    refine ⟨x, hslot, hlen, hfits, ?_⟩
    rw [List.length_append, Memory.read_write_next, hmem]
  have hring := copy_ring t copied.length data
  exact
    { ring := hring ▸ h.ring
      table := hring ▸ h.table
      phase := hring ▸ h.phase
      stores := hstores
      room := by
        rw [Room, hring]
        exact h.room
      filling := hfilling }

/-- The message that has been received is the last of those to be read. -/
theorem Receiving.filled (h : t.Receiving others p q m m.length) (hs : t.filled true = some u) :
    u.ring.Inv others ∧ p.SameTable u.ring.use.pool ∧ u.ring.phase = .ready ∧ u.Stores (q ++ [m]) := by
  obtain ⟨ring, hstep, rfl⟩ := Option.map_eq_some_iff.mp hs
  have hinv := (h.ring.payload hstep).1
  obtain ⟨-, hstep⟩ := Option.ite_none_right_eq_some.mp hstep
  rw [if_pos rfl] at hstep
  obtain rfl := Option.some.inj hstep
  have hle := h.stores.le
  have hroom := h.room
  rw [Room] at hroom
  refine ⟨hinv, h.table, rfl, ?_, h.stores.lens, ?_, ⟨?_, ?_⟩, fun i m' hm => ?_⟩
  · change (if t.ring.wp + 1 = t.ring.slots.length then 0 else t.ring.wp + 1) = (t.wn + 1) % t.ring.slots.length
    rw [mod_succ_eq (by omega), h.stores.wp]
  · rw [List.length_append]
    exact congrArg (· + 1) h.stores.used
  · rw [List.length_append]
    exact Nat.succ_le_succ hle.1
  · rw [List.length_append, ← h.stores.used]
    exact hroom
  · have hn : t.wn + 1 - (q ++ [m]).length + i = t.wn - q.length + i := by
      rw [List.length_append, List.length_singleton]
      omega
    rw [if_pos rfl, hn]
    rcases Nat.lt_or_ge i q.length with hi | hi
    · rw [List.getElem?_append_left hi] at hm
      exact h.stores.holds i m' hm
    · rw [List.getElem?_append_right hi] at hm
      obtain ⟨hi', hm⟩ := List.getElem?_eq_some_iff.mp hm
      obtain rfl : m = m' := by simpa using hm
      have hwn : t.wn - q.length + i = t.wn := by
        rw [List.length_singleton] at hi'
        omega
      rw [hwn]
      exact h.filling.stored h.stores

theorem Receiving.failed (h : t.Receiving others p q copied n) (hs : t.filled false = some u) :
    u.ring.Inv others ∧ p.SameTable u.ring.use.pool ∧ u.ring.phase = .offline ∧ u.Stores q := by
  obtain ⟨ring, hstep, rfl⟩ := Option.map_eq_some_iff.mp hs
  have hinv := (h.ring.payload hstep).1
  obtain ⟨-, hstep⟩ := Option.ite_none_right_eq_some.mp hstep
  rw [if_neg Bool.false_ne_true] at hstep
  obtain rfl := Option.some.inj hstep
  exact ⟨hinv, h.table, rfl, h.stores.congr rfl rfl rfl rfl rfl rfl⟩

theorem Stores.consume (h : t.Stores q) (hs : t.consume = some u) : ∃ m r, q = m :: r ∧ u.Stores r ∧
    u.taken = t.taken ++ [m] ∧ u.lens = t.lens ∧ u.mem = t.mem ∧ slotStep t.ring .consume = some u.ring := by
  obtain ⟨ring, hstep, hs⟩ := Option.bind_eq_some_iff.mp hs
  obtain ⟨m, hm, hs⟩ := Option.bind_eq_some_iff.mp hs
  obtain rfl := Option.some.inj hs
  have hstep' := hstep
  obtain ⟨hpos, hstep⟩ := Option.ite_none_right_eq_some.mp hstep
  obtain rfl := Option.some.inj hstep
  cases q with
  | nil => exact absurd h.used hpos.ne'
  | cons m' r =>
    have hfirst : t.slotBytes (t.readSlot 0) = some m' := h.slotBytes rfl
    obtain rfl := Option.some.inj (hm.symm.trans hfirst)
    have hle := h.le
    have hused := h.used
    rw [List.length_cons] at hle hused
    refine ⟨m, r, rfl, ⟨h.wp, h.lens, ?_, ⟨?_, ?_⟩, fun i x hx => ?_⟩, rfl, rfl, rfl, hstep'⟩
    · change t.ring.used - 1 = r.length
      omega
    · change r.length ≤ t.wn
      omega
    · change r.length ≤ t.ring.slots.length
      omega
    · have hn : t.wn - r.length + i = t.wn - (m :: r).length + (i + 1) := by
        rw [List.length_cons]
        omega
      change t.Holds (t.wn - r.length + i) x
      rw [hn]
      exact h.holds (i + 1) x (by simpa using hx)

end StoredMessages
end MySQLSyncer.Slave
