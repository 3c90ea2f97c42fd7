import Mathlib.Data.List.Perm.Basic
import MySQLSyncer.Lib.Transition
import MySQLSyncer.Master.ReqDump

/-! # The end of a session

The accept thread, and for each connection a dump thread and an io thread, over one table of
slots. `rs_free_reqdump_data` is cut at `sleep`, where its thread still holds the mutex. A
cancelled thread goes on until its next cancellation point, at the latest the next `close`.
-/
namespace MySQLSyncer.Master
open Lib

inductive ThreadKind where
  | dump
  | io
  deriving DecidableEq

/-- A thread that leaves its loop, or is cancelled, runs its cleanup handler: it marks its exit
(`marked`), passes the first test of `open` (`calling`), takes the mutex and may have to release
the slot (`holding`). -/
inductive ThreadPhase where
  | idle
  | running
  | marked
  | calling
  | holding
  | done
  deriving DecidableEq

/-- Where the io thread is with its files: before the index is opened, before a binlog is
opened, reading, with a watch set, and between a close and the field's next value. -/
inductive IoPlace where
  | start
  | opening
  | reading
  | watching
  | unwatching
  | reopening
  deriving DecidableEq

/-- The threads of one connection. The history says what was opened for it, what its threads
have released and whose threads they have cancelled. -/
structure SessionThreads (num : ℕ) where
  slot : Option (Fin num)
  phase : ThreadKind → ThreadPhase
  place : IoPlace
  cancelled : ThreadKind → Bool
  opened : List ℕ
  released : List ℕ
  cancels : List ℕ

def SessionThreads.init {num : ℕ} : SessionThreads num :=
  { slot := none, phase := fun _ => .idle, place := .start, cancelled := fun _ => false
    opened := [], released := [], cancels := [] }

/-- The master. Connections and resources are numbered in their order, and `given` is the
connection that has a slot. -/
structure Sessions (num : ℕ) where
  table : Reqdump num
  accepting : Option ℕ
  holder : Option (ThreadKind × ℕ)
  threads : ℕ → SessionThreads num
  next : ℕ
  fresh : ℕ
  given : Fin num → Option ℕ

def Sessions.init {num : ℕ} (table : Reqdump num) : Sessions num :=
  { table := table, accepting := none, holder := none, threads := fun _ => .init
    next := 0, fresh := 0, given := fun _ => none }

inductive FileOp where
  | fopenIdx
  | fopen (ok : Bool)
  | watch
  | closeWatch
  | unwatch
  | fclose

inductive TeardownAct where
  /-- A connection is accepted and a slot taken for it. -/
  | connect
  /-- The slot is filled and the dump thread created. -/
  | start
  | createIo (n : ℕ)
  | file (n : ℕ) (op : FileOp)
  /-- The cleanup handler begins. -/
  | stop (k : ThreadKind) (n : ℕ)
  | call (k : ThreadKind) (n : ℕ)
  | lock (k : ThreadKind) (n : ℕ)
  | release (k : ThreadKind) (n : ℕ)

variable {num : ℕ}

/-- The io thread's own releases are on behalf of its session. `close` is a cancellation point,
`fclose` is none. -/
def fileStep (fresh : ℕ) (d : ReqdumpData num) (x : SessionThreads num) :
    FileOp → Option (ReqdumpData num × SessionThreads num)
  | .fopenIdx => if x.place = .start then
      some ({ d with binlogIdxFp := some fresh },
        { x with place := .opening, opened := fresh :: x.opened }) else none
  | .fopen ok => if x.place = .opening ∨ x.place = .reopening then
      if ok then some ({ d with binlogFp := some fresh },
        { x with place := .reading, opened := fresh :: x.opened })
      else some ({ d with binlogFp := none }, { x with place := .opening }) else none
  | .watch => if x.place = .reading ∧ d.notifyFd = none then
      some ({ d with notifyFd := some fresh },
        { x with place := .watching, opened := fresh :: x.opened }) else none
  | .closeWatch => if x.place = .watching ∧ x.cancelled .io = false then
      some (d, { x with place := .unwatching, released := d.notifyFd.toList ++ x.released }) else none
  | .unwatch => if x.place = .unwatching then
      some ({ d with notifyFd := none }, { x with place := .reading }) else none
  | .fclose => if x.place = .reading then
      some (d, { x with place := .reopening, released := d.binlogFp.toList ++ x.released }) else none

def markExit (k : ThreadKind) (d : ReqdumpData num) : ReqdumpData num :=
  match k with
  | .dump => { d with dumpThreadExit := true }
  | .io => { d with ioThreadExit := true }

/-- The threads that `rs_free_reqdump_data` cancels. -/
def toCancel (d : ReqdumpData num) : List (ThreadKind × ℕ) :=
  (if d.ioThreadExit then [] else d.ioThread.toList.map fun n => (ThreadKind.io, n)) ++
    (if d.dumpThreadExit then [] else d.dumpThread.toList.map fun n => (ThreadKind.dump, n))

def toClose (d : ReqdumpData num) : List ℕ := d.cliFd.toList ++ d.notifyFd.toList
def toDestroy (d : ReqdumpData num) : List ℕ :=
  d.ringbuf.toList ++ d.sendBuf.toList ++ d.ioBuf.toList ++ d.binlogFp.toList ++
    d.binlogIdxFp.toList ++ d.pool.toList

def SessionThreads.setPhase (x : SessionThreads num) (k : ThreadKind) (p : ThreadPhase) :
    SessionThreads num :=
  { x with phase := Function.update x.phase k p }

/-- Before `sleep`: the descriptors are closed and the session's running threads cancelled. -/
def SessionThreads.close (x : SessionThreads num) (k : ThreadKind) (d : ReqdumpData num) :
    SessionThreads num :=
  { x.setPhase k .holding with
    released := toClose d ++ x.released
    cancels := (toCancel d).map Prod.snd ++ x.cancels }

def SessionThreads.release (x : SessionThreads num) (k : ThreadKind) (d : ReqdumpData num) :
    SessionThreads num :=
  { x.setPhase k .done with released := toDestroy d ++ x.released }

def cancelThread (threads : ℕ → SessionThreads num) (th : ThreadKind × ℕ) :
    ℕ → SessionThreads num :=
  let x := threads th.2
  Function.update threads th.2 { x with cancelled := Function.update x.cancelled th.1 true }

def Sessions.setThreads (s : Sessions num) (n : ℕ) (x : SessionThreads num) : Sessions num :=
  { s with threads := Function.update s.threads n x }

def teardownStep (s : Sessions num) : TeardownAct → Option (Sessions num)
  | .connect => if s.accepting = none ∧ s.holder = none then
      (rsGetReqdumpData s.table).map fun (i, table) =>
        { s with
          table := table
          accepting := some s.next
          next := s.next + 1
          threads := Function.update s.threads s.next { (.init : SessionThreads num) with slot := some i }
          given := Function.update s.given i (some s.next) } else none
  | .start => do
    let n ← s.accepting
    let x := s.threads n
    let i ← x.slot
    let d := s.table.data i
    let d' := { d with
      pool := some s.fresh, ringbuf := some (s.fresh + 1), sendBuf := some (s.fresh + 2)
      ioBuf := some (s.fresh + 3), cliFd := some (s.fresh + 4)
      reqDump := true, dumpThread := some n }
    let x' := { x.setPhase .dump .running with opened := List.range' s.fresh 5 ++ x.opened }
    some { s.setThreads n x' with
      table := writeSlot s.table i d', accepting := none, fresh := s.fresh + 5 }
  | .createIo n => do
    let x := s.threads n
    let i ← x.slot
    if x.phase .dump = .running ∧ x.phase .io = .idle then
      some { s.setThreads n (x.setPhase .io .running) with
        table := writeSlot s.table i { s.table.data i with ioThread := some n } }
    else none
  | .file n op => do
    let x := s.threads n
    let i ← x.slot
    if x.phase .io = .running then
      let (d', x') ← fileStep s.fresh (s.table.data i) x op
      some { s.setThreads n x' with
        table := writeSlot s.table i d', fresh := s.fresh + 1 }
    else none
  | .stop k n => do
    let x := s.threads n
    let i ← x.slot
    if x.phase k = .running then
      some { s.setThreads n (x.setPhase k .marked) with
        table := writeSlot s.table i (markExit k (s.table.data i)) }
    else none
  | .call k n => do
    let x := s.threads n
    let i ← x.slot
    if x.phase k = .marked then
      if (s.table.data i).isOpen then
        -- the mutex is the one of `rd->req_dump`
        if (s.table.data i).reqDump then some (s.setThreads n (x.setPhase k .calling)) else none
      else some (s.setThreads n (x.setPhase k .done))
    else none
  | .lock k n => do
    let x := s.threads n
    let i ← x.slot
    let d := s.table.data i
    if x.phase k = .calling ∧ s.holder = none then
      if d.isOpen then
        some { s with
          table := closeSlot s.table i
          holder := some (k, n)
          threads := (toCancel d).foldl cancelThread (Function.update s.threads n (x.close k d)) }
      else some (s.setThreads n (x.setPhase k .done))
    else none
  | .release k n => do
    let x := s.threads n
    let i ← x.slot
    if x.phase k = .holding ∧ s.holder = some (k, n) then
      let table ← releaseSlot s.table i
      some { s.setThreads n (x.release k (s.table.data i)) with
        table := table, holder := none, given := Function.update s.given i none }
    else none

def SessionThreads.Ended (x : SessionThreads num) : Prop :=
  x.phase .dump = .done ∧ (x.phase .io = .idle ∨ x.phase .io = .done)

def ThreadPhase.Exiting : ThreadPhase → Prop
  | .idle | .running => False
  | .marked | .calling | .holding | .done => True

/-- What was opened for a connection is released by its own threads, once, and entirely when
they have ended. They cancel no thread of another connection, and the exit flags of a slot are
those of the connection that has it. A release that has begun can be ended. -/
structure Sessions.TornDown (s : Sessions num) : Prop where
  apart : ∀ m n, m ≠ n → (s.threads m).opened.Disjoint (s.threads n).opened
  once : ∀ n, (s.threads n).released.Nodup
  own : ∀ n, (s.threads n).released ⊆ (s.threads n).opened
  all : ∀ n, (s.threads n).Ended → (s.threads n).opened ⊆ (s.threads n).released
  cancels : ∀ n, ∀ m ∈ (s.threads n).cancels, m = n
  marks : ∀ i n, s.given i = some n →
    ((s.table.data i).dumpThreadExit = true → ((s.threads n).phase .dump).Exiting) ∧
    ((s.table.data i).ioThreadExit = true → ((s.threads n).phase .io).Exiting)
  ends : ∀ k n, s.holder = some (k, n) → (teardownStep s (.release k n)).isSome

def Sessions.tenant (s : Sessions num) (n : ℕ) : Option ℕ := (s.threads n).slot.bind s.given

def Sessions.slotOpen (s : Sessions num) (n : ℕ) : Bool :=
  (s.threads n).slot.any fun i => (s.table.data i).isOpen

/-- A session's threads begin their cleanup handlers, and use their files, before its slot is
released, and their handlers test and lock the slot before another connection gets it. When the
descriptors are closed the io thread has not just closed the watch, and it sets no new one
afterwards; when the slot is released the stream in `binlog_fp` is not a closed one. -/
def Sessions.TeardownOk (s : Sessions num) : TeardownAct → Prop
  | .connect | .start | .createIo _ => True
  | .file n op => s.tenant n = some n ∧ (match op with | .watch => s.slotOpen n = true | _ => True)
  | .stop _ n => s.tenant n = some n
  | .call _ n => s.tenant n = some n ∨ s.tenant n = none
  | .lock _ n => (s.tenant n = some n ∨ s.tenant n = none) ∧
      (s.slotOpen n = true → (s.threads n).place ≠ .unwatching)
  | .release _ n => (s.threads n).place ≠ .reopening

instance (s : Sessions num) (a : TeardownAct) : Decidable (s.TeardownOk a) :=
  match a with
  | .connect | .start | .createIo _ => isTrue trivial
  | .file n op =>
    have : Decidable (match op with | .watch => s.slotOpen n = true | _ => True) :=
      match op with
      | .watch => inferInstanceAs (Decidable (_ = _))
      | .fopenIdx | .fopen _ | .closeWatch | .unwatch | .fclose => isTrue trivial
    inferInstanceAs (Decidable (_ ∧ _))
  | .stop _ _ => inferInstanceAs (Decidable (_ = _))
  | .call _ _ => inferInstanceAs (Decidable (_ ∨ _))
  | .lock _ _ => inferInstanceAs (Decidable (_ ∧ (_ → _)))
  | .release _ _ => inferInstanceAs (Decidable (_ ≠ _))

end MySQLSyncer.Master
