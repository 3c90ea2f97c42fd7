import MySQLSyncer.Core.Tmpbuf
import MySQLSyncer.Lib.Frame
import MySQLSyncer.Lib.Transition

/-! # The sending thread of the master

The loop of `rs_start_dump_thread`, cut at its polls of the ring and at its writes. The
bytes between `pos` and `last` of `send_buf` are those that are not written yet.
-/
namespace MySQLSyncer.Master
open Lib MySQLSyncer.Core

def toInt32 (n : ℕ) : ℤ := (n : ℤ).bmod (2 ^ 32)

/-- At `rs_ringbuf_get`, in the loop of `rs_send_tmpbuf` for an empty ring or for lack of room,
in `rs_ringbuf_spin_wait`, in `rs_timed_select`, gone, or behind an access outside the buffer. -/
inductive DumpPhase where
  | poll
  | send (empty : Bool)
  | spin
  | select
  | exited
  | undefined
  deriving DecidableEq, Repr

structure DumpThread where
  sendBuf : RsBuf
  ring : List (List UInt8)
  phase : DumpPhase
  taken : List (List UInt8)
  deriving DecidableEq, Repr

def DumpThread.init (size : UInt32) : DumpThread := ⟨rsCreateTmpbuf size, [], .poll, []⟩

inductive DumpAct where
  /-- A message is put in the ring. -/
  | put (m : List UInt8)
  /-- The ring is looked at. -/
  | get
  | write (n : ℕ)
  | writeFails
  | select (timedout : Bool)
  deriving DecidableEq

def afterSend (empty : Bool) : DumpPhase := if empty then .spin else .poll

/-- The call of `rs_send_tmpbuf`, which has nothing to do for an empty buffer. -/
def rsSendTmpbuf (d : DumpThread) (empty : Bool) : DumpThread :=
  { d with phase := if d.sendBuf.bytes = [] then afterSend empty else .send empty }

/-- The message at the head of the ring is copied when `end - last` is at least its `int len`. -/
def bufferMessage (d : DumpThread) (m : List UInt8) (rest : List (List UInt8)) : DumpThread :=
  let len := toInt32 (4 + m.length)
  let b := d.sendBuf
  if len ≤ (b.size : ℤ) - (b.pos + b.bytes.length) then
    -- a negative length moves `last` in front of the buffer, and a sum that wrapped lets a copy
    -- pass that is longer than the buffer
    if len < 0 ∨ b.size < b.pos + b.bytes.length + (4 + m.length) then { d with phase := .undefined }
    else { sendBuf := { b with bytes := b.bytes ++ frame m }, ring := rest, phase := .poll
           taken := d.taken ++ [m] }
  else rsSendTmpbuf d false

def dumpStep (d : DumpThread) : DumpAct → Option (DumpThread × List UInt8)
  | .put m => some ({ d with ring := d.ring ++ [m] }, [])
  | .get => match d.phase, d.ring with
    | .poll, [] => some (rsSendTmpbuf d true, [])
    | .spin, [] => some ({ d with phase := .select }, [])
    | .poll, m :: rest | .spin, m :: rest => some (bufferMessage d m rest, [])
    | _, _ => none
  | .write n => match d.phase with
    | .send empty =>
      if 0 < n ∧ n < d.sendBuf.bytes.length then
        some ({ d with sendBuf := { d.sendBuf with
          pos := d.sendBuf.pos + n, bytes := d.sendBuf.bytes.drop n } }, d.sendBuf.bytes.take n)
      else if n = d.sendBuf.bytes.length then
        some ({ d with sendBuf := { d.sendBuf with pos := 0, bytes := [] }, phase := afterSend empty },
          d.sendBuf.bytes)
      else none
    | _ => none
  | .writeFails => match d.phase with
    | .send _ => some ({ d with phase := .exited }, [])
    | _ => none
  | .select timedout => if d.phase = .select then
      some ({ d with phase := if timedout then .poll else .exited }, []) else none

variable {d e : DumpThread} {m sent : List UInt8} {rest : List (List UInt8)}

theorem toInt32_of_lt {n : ℕ} (h : n < 2 ^ 31) : toInt32 n = n := by
  have hmod : (n : ℤ) % (2 ^ 32 : ℕ) = n := by push_cast; omega
  unfold toInt32
  rw [Int.bmod_eq_emod_of_lt, hmod]
  rw [hmod]
  push_cast
  omega

theorem toInt32_neg {n : ℕ} (hlow : 2 ^ 31 ≤ n) (hhigh : n < 2 ^ 32) : toInt32 n < 0 := by
  have hmod : (n : ℤ) % (2 ^ 32 : ℕ) = n := by push_cast; omega
  unfold toInt32
  rw [Int.bmod_neg, hmod]
  · push_cast
    omega
  · rw [hmod]
    push_cast
    omega

/-- What is taken is sent or in the buffer, and the ring gives its messages in their order. -/
structure DumpThread.Moves (d e : DumpThread) (sent : List UInt8) (put : List (List UInt8)) : Prop where
  bytes : ∃ new, e.taken = d.taken ++ new ∧
    d.sendBuf.bytes ++ new.flatMap frame = sent ++ e.sendBuf.bytes ∧ d.ring ++ put = new ++ e.ring
  phase : e.phase = .undefined → d.phase = .undefined ∨ ∃ m ∈ d.ring, 2 ^ 31 ≤ 4 + m.length

def DumpAct.puts : DumpAct → List (List UInt8)
  | .put m => [m]
  | _ => []

theorem rsSendTmpbuf_phase (d : DumpThread) (empty : Bool) :
    (rsSendTmpbuf d empty).phase ≠ .undefined := by
  rw [rsSendTmpbuf, afterSend]
  dsimp only
  split_ifs <;> nofun

theorem DumpThread.Moves.of_same (hbuf : e.sendBuf = d.sendBuf) (hring : e.ring = d.ring)
    (htaken : e.taken = d.taken) (hphase : e.phase ≠ .undefined) : d.Moves e [] [] where
  bytes := ⟨[], by simp [hbuf, hring, htaken]⟩
  phase := fun h => absurd h hphase

theorem bufferMessage_moves (hring : d.ring = m :: rest) : d.Moves (bufferMessage d m rest) [] [] := by
  simp only [bufferMessage]
  split_ifs with hroom hneg
  · refine ⟨⟨[], by simp⟩, fun _ => Or.inr ⟨m, by rw [hring]; exact List.mem_cons_self, ?_⟩⟩
    by_contra hlt
    have heq := toInt32_of_lt (n := 4 + m.length) (by omega)
    omega
  · exact ⟨⟨[m], by simp [hring]⟩, nofun⟩
  · exact .of_same rfl rfl rfl (rsSendTmpbuf_phase d false)

theorem dumpStep_write {n : ℕ} (h : dumpStep d (.write n) = some (e, sent)) :
    (∃ empty, d.phase = .send empty) ∧ d.sendBuf.bytes = sent ++ e.sendBuf.bytes ∧
      e.ring = d.ring ∧ e.taken = d.taken ∧ e.phase ≠ .undefined := by
  rw [dumpStep] at h
  split at h
  · rename_i empty hp
    split_ifs at h with hsome hall
    · obtain ⟨rfl, rfl⟩ := Prod.mk.inj (Option.some.inj h)
      exact ⟨⟨empty, hp⟩, (List.take_append_drop n _).symm, rfl, rfl, by simp [hp]⟩
    · obtain ⟨rfl, rfl⟩ := Prod.mk.inj (Option.some.inj h)
      exact ⟨⟨empty, hp⟩, (List.append_nil _).symm, rfl, rfl, by cases empty <;> nofun⟩
  · cases h

theorem dumpStep_moves {a : DumpAct} (h : dumpStep d a = some (e, sent)) : d.Moves e sent a.puts := by
  cases a with
  | put m =>
    obtain ⟨rfl, rfl⟩ := Prod.mk.inj (Option.some.inj h)
    exact ⟨⟨[], by simp [DumpAct.puts]⟩, Or.inl⟩
  | get =>
    rw [dumpStep] at h
    split at h
    · obtain ⟨rfl, rfl⟩ := Prod.mk.inj (Option.some.inj h)
      exact .of_same rfl rfl rfl (rsSendTmpbuf_phase d true)
    · obtain ⟨rfl, rfl⟩ := Prod.mk.inj (Option.some.inj h)
      exact .of_same rfl rfl rfl nofun
    · obtain ⟨rfl, rfl⟩ := Prod.mk.inj (Option.some.inj h)
      exact bufferMessage_moves ‹_›
    · obtain ⟨rfl, rfl⟩ := Prod.mk.inj (Option.some.inj h)
      exact bufferMessage_moves ‹_›
    · cases h
  | write n =>
    obtain ⟨-, hbytes, hring, htaken, hphase⟩ := dumpStep_write h
    exact ⟨⟨[], by simp [DumpAct.puts, hbytes, hring, htaken]⟩, fun hu => absurd hu hphase⟩
  | writeFails =>
    rw [dumpStep] at h
    split at h
    · obtain ⟨rfl, rfl⟩ := Prod.mk.inj (Option.some.inj h)
      exact .of_same rfl rfl rfl nofun
    · cases h
  | select timedout =>
    rw [dumpStep] at h
    obtain ⟨-, h⟩ := Option.ite_none_right_eq_some.mp h
    obtain ⟨rfl, rfl⟩ := Prod.mk.inj (Option.some.inj h)
    exact .of_same rfl rfl rfl (by cases timedout <;> nofun)

/-- `e` is a step of a thread that sees no more of the ring than the message in front. -/
def DumpThread.FromFront (d e : DumpThread) (rest : List (List UInt8)) : Prop :=
  e.taken = d.taken ∧ rest = d.ring ∨ ∃ m, d.ring = m :: rest ∧ e.taken = d.taken ++ [m]

theorem bufferMessage_front (hring : d.ring = m :: rest) :
    ∃ r, bufferMessage d m rest = { bufferMessage { d with ring := [m] } m [] with ring := r } ∧
      d.FromFront (bufferMessage { d with ring := [m] } m []) r := by
  simp only [bufferMessage, rsSendTmpbuf]
  split_ifs
  · exact ⟨d.ring, rfl, Or.inl ⟨rfl, rfl⟩⟩
  · exact ⟨rest, rfl, Or.inr ⟨m, hring, rfl⟩⟩
  · exact ⟨d.ring, rfl, Or.inl ⟨rfl, rfl⟩⟩
  · exact ⟨d.ring, rfl, Or.inl ⟨rfl, rfl⟩⟩

/-- The thread looks at the message in front only. -/
theorem dumpStep_front {a : DumpAct} (ha : a.puts = []) (hs : dumpStep { d with ring := d.ring.take 1 } a = some (e, sent)) :
    ∃ r, dumpStep d a = some ({ e with ring := r }, sent) ∧ d.FromFront e r := by
  cases a with
  | put m => cases ha
  | get =>
    cases hp : d.phase with
    | poll | spin =>
      cases hring : d.ring with
      | nil =>
        simp only [dumpStep, hp, hring, List.take_nil, Option.some.injEq, Prod.mk.injEq] at hs ⊢
        obtain ⟨rfl, rfl⟩ := hs
        exact ⟨[], ⟨by simp [rsSendTmpbuf, ← hring], rfl⟩, Or.inl ⟨rfl, hring.symm⟩⟩
      | cons m rest =>
        simp only [dumpStep, hp, hring, List.take_succ_cons, List.take_zero, Option.some.injEq, Prod.mk.injEq] at hs ⊢
        obtain ⟨rfl, rfl⟩ := hs
        obtain ⟨r, hr, hfront⟩ := bufferMessage_front hring
        exact ⟨r, ⟨hr, rfl⟩, hfront⟩
    | send _ | select | exited | undefined => simp [dumpStep, hp] at hs
  | write n =>
    cases hp : d.phase with
    | send empty =>
      simp only [dumpStep, hp] at hs ⊢
      split_ifs at hs ⊢ <;> obtain ⟨rfl, rfl⟩ := Prod.mk.inj (Option.some.inj hs)
      · exact ⟨d.ring, rfl, Or.inl ⟨rfl, rfl⟩⟩
      · exact ⟨d.ring, rfl, Or.inl ⟨rfl, rfl⟩⟩
    | _ => simp [dumpStep, hp] at hs
  | writeFails =>
    cases hp : d.phase with
    | send empty =>
      simp only [dumpStep, hp] at hs ⊢
      obtain ⟨rfl, rfl⟩ := Prod.mk.inj (Option.some.inj hs)
      exact ⟨d.ring, rfl, Or.inl ⟨rfl, rfl⟩⟩
    | _ => simp [dumpStep, hp] at hs
  | select timedout =>
    obtain ⟨hp, hs⟩ := Option.ite_none_right_eq_some.mp hs
    obtain ⟨rfl, rfl⟩ := Prod.mk.inj (Option.some.inj hs)
    exact ⟨d.ring, if_pos hp, Or.inl ⟨rfl, rfl⟩⟩

end MySQLSyncer.Master
