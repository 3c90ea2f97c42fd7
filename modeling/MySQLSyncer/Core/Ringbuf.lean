import Mathlib.Data.List.TakeDrop
import Mathlib.Tactic
import MySQLSyncer.Core.Code
import MySQLSyncer.Lib.Transition
import MySQLSyncer.Lib.Window

/-! # The ring buffer between one producer and one consumer

Slots are addressed by their byte offset from `rb->start`, as the C pointers are.
Each side moves its pointer and then its counter, and every one of these steps is
a step of its own; the two threads may take them in any order.
-/
namespace MySQLSyncer.Core
open Lib

variable {α : Type*}

/-- `sizeof(rs_ringbuf_data_t)` with eight-byte pointers. -/
def ringbufDataSize : UInt32 := 24

/-- `sizeof(rs_ringbuf_t)` with eight-byte pointers. -/
def ringbufSize : UInt32 := 72

/-- `rs_ringbuf_t`. The field `chunk` is the size that was asked of the pool. -/
structure RsRingbuf (α : Type*) where
  rn : UInt64
  wn : UInt64
  num : UInt32
  rp : ℕ
  wp : ℕ
  stop : ℕ
  chunk : ℕ
  slots : ℕ → α

/-- The length of the slot table is a 32-bit product, and so is the size asked of the pool. -/
def rsCreateRingbuf (num : UInt32) (d : α) : RsRingbuf α :=
  let len := ringbufDataSize * num
  { rn := 0, wn := 0, num := num, rp := 0, wp := 0, stop := len.toNat,
    chunk := (ringbufSize + len).toNat, slots := fun _ => d }

def rsRingbufGet (rb : RsRingbuf α) : Except RsCode ℕ :=
  if rb.wn - rb.rn = 0 then .error .empty else .ok rb.rp

def rsRingbufSet (rb : RsRingbuf α) : Except RsCode ℕ :=
  if rb.wn - rb.rn = rb.num.toUInt64 then .error .full else .ok rb.wp

def nextSlot (rb : RsRingbuf α) (p : ℕ) : ℕ :=
  if p + ringbufDataSize.toNat = rb.stop then 0 else p + ringbufDataSize.toNat

/-- First half of `rs_ringbuf_get_advance`. -/
def getAdvancePointer (rb : RsRingbuf α) : RsRingbuf α := { rb with rp := nextSlot rb rb.rp }

/-- Second half of `rs_ringbuf_get_advance`, behind the barrier. -/
def getAdvanceCounter (rb : RsRingbuf α) : RsRingbuf α := { rb with rn := rb.rn + 1 }

/-- First half of `rs_ringbuf_set_advance`. -/
def setAdvancePointer (rb : RsRingbuf α) : RsRingbuf α := { rb with wp := nextSlot rb rb.wp }

/-- Second half of `rs_ringbuf_set_advance`, behind the barrier. -/
def setAdvanceCounter (rb : RsRingbuf α) : RsRingbuf α := { rb with wn := rb.wn + 1 }

def rsRingbufGetAdvance (rb : RsRingbuf α) : RsRingbuf α :=
  getAdvanceCounter (getAdvancePointer rb)

def rsRingbufSetAdvance (rb : RsRingbuf α) : RsRingbuf α :=
  setAdvanceCounter (setAdvancePointer rb)

def fillSlot (rb : RsRingbuf α) (p : ℕ) (a : α) : RsRingbuf α :=
  { rb with slots := Function.update rb.slots p a }

/-- Where the producer stands: without a slot, with slot `p`, or between the two
halves of the advance for slot `p`. -/
inductive Producer where
  | outside
  | slot (p : ℕ)
  | moved (p : ℕ)
  deriving DecidableEq

/-- Where the consumer stands. It has copied the slot's contents in `seen` and `moved`. -/
inductive Consumer where
  | outside
  | slot (p : ℕ)
  | seen (p : ℕ)
  | moved (p : ℕ)
  deriving DecidableEq

def Producer.held : Producer → Option ℕ
  | .outside => none
  | .slot p => some p
  | .moved p => some p

def Consumer.held : Consumer → Option ℕ
  | .outside => none
  | .slot p => some p
  | .seen p => some p
  | .moved p => some p

def Consumer.ahead : Consumer → ℕ
  | .outside => 0
  | .slot _ => 0
  | .seen _ => 1
  | .moved _ => 1

/-- The ring with its two users. The last three fields only record what happened: the
published slots with their contents, the contents read, and the slots released. -/
structure Spsc (α : Type*) where
  ring : RsRingbuf α
  producer : Producer
  consumer : Consumer
  published : List (ℕ × α)
  consumed : List α
  released : ℕ

def Spsc.init (num : UInt32) (d : α) : Spsc α :=
  { ring := rsCreateRingbuf num d, producer := .outside, consumer := .outside,
    published := [], consumed := [], released := 0 }

/-- Published items whose `rs_ringbuf_get_advance` is not complete. -/
def Spsc.unread (s : Spsc α) : List (ℕ × α) := s.published.drop s.released

inductive RingStep (α : Type*) where
  | set
  | fill (a : α)
  | setPointer
  | setCounter
  | get
  | read
  | getPointer
  | getCounter

/-- Either side may ask for its slot again before it advances: the dump thread does so
when its send buffer is full, the slave's receiver after a lost connection. -/
def spscStep (s : Spsc α) : RingStep α → Option (Spsc α)
  | .set => match s.producer, rsRingbufSet s.ring with
    | .moved _, _ => none
    | _, .ok p => some { s with producer := .slot p }
    | _, .error _ => some { s with producer := .outside }
  | .fill a => match s.producer with
    | .slot p => some { s with ring := fillSlot s.ring p a }
    | _ => none
  | .setPointer => match s.producer with
    | .slot p => some { s with ring := setAdvancePointer s.ring, producer := .moved p }
    | _ => none
  | .setCounter => match s.producer with
    | .moved p => some { s with ring := setAdvanceCounter s.ring, producer := .outside,
                                published := s.published ++ [(p, s.ring.slots p)] }
    | _ => none
  | .get => match s.consumer, rsRingbufGet s.ring with
    | .outside, .ok p => some { s with consumer := .slot p }
    | .slot _, .ok p => some { s with consumer := .slot p }
    | .outside, .error _ => some { s with consumer := .outside }
    | .slot _, .error _ => some { s with consumer := .outside }
    | _, _ => none
  | .read => match s.consumer with
    | .slot p => some { s with consumer := .seen p, consumed := s.consumed ++ [s.ring.slots p] }
    | _ => none
  | .getPointer => match s.consumer with
    | .seen p => some { s with ring := getAdvancePointer s.ring, consumer := .moved p }
    | _ => none
  | .getCounter => match s.consumer with
    | .moved _ => some { s with ring := getAdvanceCounter s.ring, consumer := .outside,
                                released := s.released + 1 }
    | _ => none

/-- The two steps of the consumer, one behind the other, are the call. -/
theorem spscStep_getAdvance {s t : Spsc α} (h : exec spscStep s [.getPointer, .getCounter] = some t) :
    t.ring = rsRingbufGetAdvance s.ring := by
  obtain ⟨u, hu, h⟩ := Option.bind_eq_some_iff.mp h
  obtain ⟨v, hv, h⟩ := Option.bind_eq_some_iff.mp h
  obtain rfl := Option.some.inj h
  cases hp : s.consumer with
  | seen p =>
    simp only [spscStep, hp] at hu
    obtain rfl := Option.some.inj hu
    obtain rfl := Option.some.inj hv
    rfl
  | _ => simp [spscStep, hp] at hu

theorem spscStep_setAdvance {s t : Spsc α} (h : exec spscStep s [.setPointer, .setCounter] = some t) :
    t.ring = rsRingbufSetAdvance s.ring := by
  obtain ⟨u, hu, h⟩ := Option.bind_eq_some_iff.mp h
  obtain ⟨v, hv, h⟩ := Option.bind_eq_some_iff.mp h
  obtain rfl := Option.some.inj h
  cases hp : s.producer with
  | slot p =>
    simp only [spscStep, hp] at hu
    obtain rfl := Option.some.inj hu
    obtain rfl := Option.some.inj hv
    rfl
  | _ => simp [spscStep, hp] at hu

structure Spsc.Lossless (s : Spsc α) : Prop where
  /-- What was read is a prefix of what was published. -/
  fifo : s.consumed <+: s.published.map Prod.snd
  /-- The 64-bit difference of the counters is the number of unread items. -/
  count : (s.ring.wn - s.ring.rn).toNat = s.unread.length
  bounded : s.unread.length ≤ s.ring.num.toNat
  full : rsRingbufSet s.ring = .error .full → s.unread.length = s.ring.num.toNat
  empty : rsRingbufGet s.ring = .error .empty →
    s.unread.length = 0 ∧ s.consumed = s.published.map Prod.snd
  /-- The producer's slot is none of those the consumer still has to finish with. -/
  exclusive : ∀ p, s.producer.held = some p →
    (∀ x ∈ s.unread, x.1 ≠ p) ∧ s.consumer.held ≠ some p
  /-- Both sides stay inside the chunk that the pool was asked for. -/
  inside : ∀ p, s.producer.held = some p ∨ s.consumer.held = some p →
    ringbufSize.toNat + p + ringbufDataSize.toNat ≤ s.ring.chunk

end MySQLSyncer.Core
