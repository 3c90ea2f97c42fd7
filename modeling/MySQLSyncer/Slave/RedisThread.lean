import Mathlib.Tactic
import MySQLSyncer.Core.Code
import MySQLSyncer.Lib.Transition

/-! # The thread that feeds redis

The thread is cut at every reply it reads and around every flush of `slave.info`, so a
crash may come between any two of these. What a table handler does is to append some
number of commands and to return a code.
-/
namespace MySQLSyncer.Slave
open Lib MySQLSyncer.Core

def rsRedisCmdCommitNum : UInt32 := 36

/-- Where the thread stands. The argument is `cmdn` as the commit test saw it. -/
inductive RedisPhase where
  | top
  | draining
  | spinning
  | idle
  | committing (pending : UInt32)
  | flushing (pending : UInt32)
  | advancing
  | exited
  deriving DecidableEq, Repr

/-- The fields of `rs_slave_info_t` that the thread uses, and the bytes of `slave.info`.
The last three fields record what happened: every position taken with the number of
commands its message appended, the replies read, and the entry last written. -/
structure RedisThread where
  binlogSave : UInt32
  binlogSavesec : UInt32
  curBinlogSave : UInt32
  curBinlogSavesec : UInt64
  cmdn : UInt32
  dumpInfo : List UInt8
  infoFile : List UInt8
  phase : RedisPhase
  history : List (List UInt8 × ℕ)
  answered : ℕ
  saved : ℕ
  deriving DecidableEq, Repr

/-- The thread as `rs_init_slave_info` leaves it, with the position read from the file. -/
def RedisThread.init (binlogSave binlogSavesec : UInt32) (info : List UInt8) : RedisThread :=
  { binlogSave := binlogSave, binlogSavesec := binlogSavesec, curBinlogSave := 0,
    curBinlogSavesec := 0, cmdn := 0, dumpInfo := info, infoFile := info, phase := .top,
    history := [(info, 0)], answered := 0, saved := 0 }

/-- Neither enough messages nor enough seconds have passed. The difference of the clock
readings is taken in 64 bits. -/
def RedisThread.NotDue (t : RedisThread) (clock : UInt64) : Prop :=
  t.curBinlogSave < t.binlogSave ∧ clock - t.curBinlogSavesec < t.binlogSavesec.toUInt64

instance (t : RedisThread) (clock : UInt64) : Decidable (t.NotDue clock) :=
  inferInstanceAs (Decidable (_ ∧ _))

/-- How a call of `rs_flush_slave_info` goes: a system call fails, `write` stores `n` bytes
only, or all is well. -/
inductive FlushOutcome where
  | noClock
  | noSeek
  | shortWrite (n : ℕ)
  | noTruncate
  | done
  deriving DecidableEq, Repr

def overwrite (old new : List UInt8) : List UInt8 := new ++ old.drop new.length

def rsFlushSlaveInfo (t : RedisThread) (clock : UInt64) (o : FlushOutcome) : RsCode × RedisThread :=
  if o = .noClock then (.err, t)
  else if t.NotDue clock then (.ok, t)
  else
    let u := { t with curBinlogSave := 1, curBinlogSavesec := clock }
    let last := t.history.length - 1
    match o with
    | .noClock => (.err, t)
    | .noSeek => (.err, t)
    | .shortWrite n => (.err, { u with infoFile := overwrite t.infoFile (t.dumpInfo.take n) })
    | .noTruncate => (.err, { u with infoFile := overwrite t.infoFile t.dumpInfo, saved := last })
    | .done => (.ok, { u with infoFile := t.dumpInfo, saved := last })

inductive RedisAct where
  /-- `rs_ringbuf_get` finds the ring empty. -/
  | empty
  /-- `redisGetReply` returns. -/
  | reply (ok : Bool)
  /-- `rs_redis_get_replies` finds `cmdn` zero. -/
  | replied
  /-- `rs_ringbuf_spin_wait` gives up. -/
  | spun
  /-- A message is taken: its position, the commands its handler appends, and whether the
  message could be handled. -/
  | message (pos : List UInt8) (k : ℕ) (code : RsCode)
  /-- A message without a newline is taken. -/
  | badMessage
  /-- `rs_flush_slave_info` -/
  | flush (clock : UInt64) (o : FlushOutcome)
  /-- `rs_ringbuf_get_advance` -/
  | advance
  deriving DecidableEq, Repr

/-- From the copy of the position to the commit test. -/
def takeMessage (t : RedisThread) (pos : List UInt8) (k : ℕ) (code : RsCode) : RedisThread :=
  let cmdn := t.cmdn + UInt32.ofNat k
  { t with
    curBinlogSave := t.curBinlogSave + 1
    dumpInfo := pos
    cmdn := cmdn
    history := t.history ++ [(pos, k)]
    phase := if code ≠ .ok then .exited
      else if rsRedisCmdCommitNum ≤ cmdn then .committing cmdn else .flushing cmdn }

/-- One turn of the loop of `rs_redis_get_replies`. -/
def takeReply (t : RedisThread) (ok : Bool) : Option RedisThread :=
  if t.cmdn = 0 then none
  else if ok then some { t with cmdn := t.cmdn - 1, answered := t.answered + 1 }
  else some { t with phase := .exited }

/-- One step of `rs_start_redis_thread`. -/
def redisStep (t : RedisThread) : RedisAct → Option RedisThread
  | .empty => if t.phase = .top then some { t with phase := .draining } else none
  | .reply ok => match t.phase with
    | .draining | .committing _ => takeReply t ok
    | _ => none
  | .replied => if t.cmdn = 0 then
      match t.phase with
      | .draining => some { t with cmdn := 0, phase := .spinning }
      | .committing pending => some { t with phase := .flushing pending }
      | _ => none
    else none
  | .spun => if t.phase = .spinning then some { t with phase := .idle } else none
  | .message pos k code => match t.phase with
    | .top | .spinning => some (takeMessage t pos k code)
    | _ => none
  | .badMessage => match t.phase with
    | .top | .spinning => some { t with curBinlogSave := t.curBinlogSave + 1, phase := .exited }
    | _ => none
  | .flush clock o =>
    let (code, u) := rsFlushSlaveInfo t clock o
    let next (p : RedisPhase) : RedisThread := { u with phase := if code = .ok then p else .exited }
    match t.phase with
    | .idle => some (next .top)
    | .flushing _ => some (next .advancing)
    | _ => none
  | .advance => if t.phase = .advancing then some { t with phase := .top } else none

def RedisThread.appended (t : RedisThread) (i : ℕ) : ℕ := ((t.history.take (i + 1)).map (·.2)).sum

/-- The position on disk belongs to a message all of whose commands, and those of the
messages before it, are answered; the file holds it unless the last write broke off. -/
structure RedisThread.NotAhead (t : RedisThread) : Prop where
  answered : t.appended t.saved ≤ t.answered
  file : t.phase ≠ .exited → (t.history[t.saved]?).map (·.1) = some t.infoFile

/-- A due flush behind a message comes with no command pending or right after a commit, and
the 32-bit counter of commands does not wrap. -/
def RedisThread.FlushesAnswered (t : RedisThread) : RedisAct → Prop
  | .message _ k _ => t.cmdn.toNat + k < 2 ^ 32
  | .flush clock _ => t.NotDue clock ∨
    match t.phase with
    | .flushing pending => pending = 0 ∨ rsRedisCmdCommitNum ≤ pending
    | _ => True
  | _ => True

instance (t : RedisThread) (a : RedisAct) : Decidable (t.FlushesAnswered a) :=
  match a with
  | .message _ _ _ => inferInstanceAs (Decidable (_ < _))
  | .flush _ _ =>
    have (p : RedisPhase) : Decidable (match p with
        | .flushing pending => pending = 0 ∨ rsRedisCmdCommitNum ≤ pending
        | _ => True) :=
      match p with
      | .flushing _ => inferInstanceAs (Decidable (_ ∨ _))
      | .top | .draining | .spinning | .idle | .committing _ | .advancing | .exited => isTrue trivial
    inferInstanceAs (Decidable (_ ∨ _))
  | .empty | .reply _ | .replied | .spun | .badMessage | .advance => isTrue trivial

variable {t u : RedisThread}

theorem redisStep_empty (hs : redisStep t .empty = some u) :
    t.phase = .top ∧ u = { t with phase := .draining } := by
  obtain ⟨hp, hu⟩ := Option.ite_none_right_eq_some.mp hs
  exact ⟨hp, (Option.some.inj hu).symm⟩

theorem redisStep_reply {ok : Bool} (hs : redisStep t (.reply ok) = some u) :
    (t.phase = .draining ∨ ∃ p, t.phase = .committing p) ∧ takeReply t ok = some u := by
  cases hp : t.phase <;> simp only [redisStep, hp, reduceCtorEq] at hs
  · exact ⟨Or.inl rfl, hs⟩
  · exact ⟨Or.inr ⟨_, rfl⟩, hs⟩

theorem redisStep_replied (hs : redisStep t .replied = some u) :
    t.cmdn = 0 ∧ (t.phase = .draining ∧ u = { t with phase := .spinning } ∨
      ∃ p, t.phase = .committing p ∧ u = { t with phase := .flushing p }) := by
  obtain ⟨hzero, hs⟩ := Option.ite_none_right_eq_some.mp hs
  cases hp : t.phase <;> simp only [hp, reduceCtorEq] at hs
  · exact ⟨hzero, Or.inl ⟨rfl, by rw [← Option.some.inj hs, ← hzero]⟩⟩
  · exact ⟨hzero, Or.inr ⟨_, rfl, (Option.some.inj hs).symm⟩⟩

theorem redisStep_spun (hs : redisStep t .spun = some u) :
    t.phase = .spinning ∧ u = { t with phase := .idle } := by
  obtain ⟨hp, hu⟩ := Option.ite_none_right_eq_some.mp hs
  exact ⟨hp, (Option.some.inj hu).symm⟩

theorem redisStep_message {pos : List UInt8} {k : ℕ} {code : RsCode}
    (hs : redisStep t (.message pos k code) = some u) :
    (t.phase = .top ∨ t.phase = .spinning) ∧ u = takeMessage t pos k code := by
  cases hp : t.phase <;> simp only [redisStep, hp, reduceCtorEq] at hs
  · exact ⟨Or.inl rfl, (Option.some.inj hs).symm⟩
  · exact ⟨Or.inr rfl, (Option.some.inj hs).symm⟩

theorem redisStep_badMessage (hs : redisStep t .badMessage = some u) :
    u = { t with curBinlogSave := t.curBinlogSave + 1, phase := .exited } := by
  cases hp : t.phase <;> simp only [redisStep, hp, reduceCtorEq] at hs
  · exact (Option.some.inj hs).symm
  · exact (Option.some.inj hs).symm

theorem redisStep_flush {clock : UInt64} {o : FlushOutcome} (hs : redisStep t (.flush clock o) = some u) :
    ∃ p, (t.phase = .idle ∧ p = .top ∨ ∃ q, t.phase = .flushing q ∧ p = .advancing) ∧
      u = { (rsFlushSlaveInfo t clock o).2 with
            phase := if (rsFlushSlaveInfo t clock o).1 = .ok then p else .exited } := by
  cases hp : t.phase <;> simp only [redisStep, hp, reduceCtorEq] at hs
  · exact ⟨_, Or.inl ⟨rfl, rfl⟩, (Option.some.inj hs).symm⟩
  · exact ⟨_, Or.inr ⟨_, rfl, rfl⟩, (Option.some.inj hs).symm⟩

theorem redisStep_advance (hs : redisStep t .advance = some u) :
    t.phase = .advancing ∧ u = { t with phase := .top } := by
  obtain ⟨hp, hu⟩ := Option.ite_none_right_eq_some.mp hs
  exact ⟨hp, (Option.some.inj hu).symm⟩

end MySQLSyncer.Slave
