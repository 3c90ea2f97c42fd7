import MySQLSyncer.Core.Tmpbuf
import MySQLSyncer.Lib.Frame
import MySQLSyncer.Lib.Transition

/-! # The receiving thread of the slave

The thread is cut at its reads. A ring that is full only delays it, and what the pool
answers is chosen by the environment.
-/
namespace MySQLSyncer.Slave
open Lib MySQLSyncer.Core

/-- Between connections, at the top of the inner loop, inside the read of a length or of a
payload, or gone. -/
inductive IoPhase where
  | offline
  | ready
  | length (copied : List UInt8) (s : ℕ)
  | payload (copied : List UInt8) (s : ℕ)
  | exited
  deriving DecidableEq, Repr

/-- The thread, with the bytes read on the current connection and the messages put in the
ring for it. The receive buffer is the one of the slave, whatever the connection. -/
structure IoThread where
  recvBuf : RsBuf
  phase : IoPhase
  stream : List UInt8
  stored : List (List UInt8)
  deriving DecidableEq, Repr

def IoThread.init (size : UInt32) : IoThread := ⟨rsCreateTmpbuf size, .offline, [], []⟩

inductive IoAct where
  /-- A connection is made and the dump command sent. -/
  | connect
  /-- The ring has a slot. -/
  | slot (alloc : Bool)
  /-- A read returns; `alloc` is the answer of `rs_palloc` should it be called now. -/
  | read (chunk : List UInt8) (alloc : Bool)

/-- The outcome of the second `rs_recv_tmpbuf`. -/
def afterPayload (t : IoThread) : Recv → IoThread
  | .ret .ok data b => { t with recvBuf := b, phase := .ready, stored := t.stored ++ [data] }
  | .ret _ _ b => { t with recvBuf := b, phase := .offline }
  | .loop copied s b => { t with recvBuf := b, phase := .payload copied s }

/-- The outcome of the first `rs_recv_tmpbuf`. A zero length makes `rs_palloc_id` return
`RS_ERR`, with which `rs_palloc` leaves the class table. -/
def afterLength (t : IoThread) (alloc : Bool) : Recv → Option IoThread
  | .ret .ok data b =>
    if leNat data = 0 then none
    else if alloc then some (afterPayload t (rsRecvTmpbuf b (leNat data)))
    else some { t with recvBuf := b, phase := .exited }
  | .ret _ _ b => some { t with recvBuf := b, phase := .offline }
  | .loop copied s b => some { t with recvBuf := b, phase := .length copied s }

/-- One step of `rs_start_io_thread`. Every failure closes the connection and goes back to
`connect`; nothing touches `recv_buf` on the way. -/
def ioStep (t : IoThread) : IoAct → Option IoThread
  | .connect => if t.phase = .offline then
      some { t with phase := .ready, stream := [], stored := [] } else none
  | .slot alloc => if t.phase = .ready then
      afterLength t alloc (rsRecvTmpbuf t.recvBuf 4) else none
  | .read chunk alloc => match t.phase with
    | .length copied s => (rsRecvTmpbufRead copied s t.recvBuf chunk).bind
        (afterLength { t with stream := t.stream ++ chunk } alloc)
    | .payload copied s => (rsRecvTmpbufRead copied s t.recvBuf chunk).map
        (afterPayload { t with stream := t.stream ++ chunk })
    | _ => none

def IoThread.Waiting (t : IoThread) : Prop :=
  match t.phase with
  | .length _ _ | .payload _ _ => True
  | _ => False

/-- The messages of this connection are those of its own byte stream, from its first byte;
while the thread waits for more bytes it has stored all of them. -/
structure IoThread.Clean (t : IoThread) : Prop where
  prefix_stored : t.stored <+: messages t.stream
  all_stored : t.Waiting → t.stored = messages t.stream

/-- A length beyond the size of the buffer is the last thing received. -/
def LastIfOver (size : ℕ) (w : List UInt8) : Prop := 4 < w.length → announced w ≤ size

/-- If the step makes a `rs_recv_tmpbuf` fail, it leaves nothing in the buffer: a failing read
is the first of its loop, and a length that is too long is not followed by buffered bytes. -/
def IoThread.FailsEmpty (t : IoThread) : IoAct → Prop
  | .connect => True
  | .slot _ => LastIfOver t.recvBuf.size t.recvBuf.bytes
  | .read chunk _ => (chunk = [] → t.recvBuf.bytes = []) ∧
    match t.phase with
    | .length copied _ => LastIfOver t.recvBuf.size (copied ++ (t.recvBuf.bytes ++ chunk))
    | _ => True

instance (size : ℕ) (w : List UInt8) : Decidable (LastIfOver size w) :=
  inferInstanceAs (Decidable (_ → _))

instance (t : IoThread) (a : IoAct) : Decidable (t.FailsEmpty a) :=
  match a with
  | .connect => isTrue trivial
  | .slot _ => inferInstanceAs (Decidable (LastIfOver _ _))
  | .read chunk _ =>
    have (p : IoPhase) : Decidable (match p with
        | .length copied _ => LastIfOver t.recvBuf.size (copied ++ (t.recvBuf.bytes ++ chunk))
        | _ => True) :=
      match p with
      | .length _ _ => inferInstanceAs (Decidable (LastIfOver _ _))
      | .offline | .ready | .payload _ _ | .exited => isTrue trivial
    inferInstanceAs (Decidable (_ ∧ _))

end MySQLSyncer.Slave
