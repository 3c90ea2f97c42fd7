import MySQLSyncer.Slave.DmlData
import MySQLSyncer.Slave.RedisThread

/-! # The two threads of the slave and their ring

The receiving thread is reduced to its messages: it asks for those after the current
`dump_info` and puts them in the ring until it loses its connection. The other thread is
that of `redisStep`, with what it finds in the ring. The table handlers are a parameter.
-/
namespace MySQLSyncer.Slave
open Lib MySQLSyncer.Core

/-- The consuming thread, the ring from the slot it reads on, what the master has still to
send on the connection, and every message handed to a table handler. -/
structure Replica where
  redis : RedisThread
  ring : List (List UInt8)
  conn : Option (List (List UInt8))
  handled : List (List UInt8)
  deriving DecidableEq, Repr

def Replica.init (binlogSave binlogSavesec : UInt32) (info : List UInt8) : Replica :=
  ⟨RedisThread.init binlogSave binlogSavesec info, [], none, []⟩

inductive ReplicaAct where
  | connect
  | receive
  | lose
  /-- A step in which the thread takes no message. -/
  | redis (a : RedisAct)
  /-- A message is taken. Its handler, if it has one, appends `k` commands and returns a code. -/
  | take (k : ℕ) (code : RsCode)
  deriving DecidableEq

/-- How the thread leaves the commit test for the message in front of it, and whether a handler
was called. -/
def messageAct {η : Type} (k : ℕ) (code : RsCode) : Option (List UInt8) × DmlResult η → RedisAct × Bool
  | (none, _) => (.badMessage, false)
  | (some pos, .skipped) => (.message pos 0 .ok, false)
  | (some pos, .failed) => (.message pos 0 .err, false)
  | (some pos, .called ..) => (.message pos k code, true)

/-- One step. `resume` is what the master sends for a position, and `num` is the size of the
ring. -/
def replicaStep {η : Type} (tableFunc : List UInt8 → Option η)
    (resume : List UInt8 → List (List UInt8)) (num : ℕ) (t : Replica) : ReplicaAct → Option Replica
  | .connect => if t.conn = none then some { t with conn := some (resume t.redis.dumpInfo) } else none
  | .receive => match t.conn with
    | some (m :: rest) => if t.ring.length < num then
        some { t with ring := t.ring ++ [m], conn := some rest } else none
    | _ => none
  | .lose => if t.conn = none then none else some { t with conn := none }
  | .redis a => match a with
    | .empty | .spun => if t.ring = [] then
        (redisStep t.redis a).map fun r => { t with redis := r } else none
    | .reply _ | .replied | .flush _ _ => (redisStep t.redis a).map fun r => { t with redis := r }
    | .advance => (redisStep t.redis a).map fun r => { t with redis := r, ring := t.ring.tail }
    | .message _ _ _ | .badMessage => none
  | .take k code => match t.ring with
    | [] => none
    | m :: _ => (takeApart tableFunc m).bind fun x =>
      let (a, called) := messageAct k code x
      (redisStep t.redis a).map fun r =>
        { t with redis := r, handled := if called then t.handled ++ [m] else t.handled }

def positionOf (data : List UInt8) : Option (List UInt8) :=
  (strchr 10 data).bind fun r => r.map fun len => data.take len

/-- For the position it starts at and for that of each message of the log, the master sends
exactly the messages behind it. -/
structure SafeResume (log : List (List UInt8)) (info : List UInt8)
    (resume : List UInt8 → List (List UInt8)) : Prop where
  start : resume info = log
  next : ∀ i m p, log[i]? = some m → positionOf m = some p → resume p = log.drop (i + 1)

/-- Each message has been handed on once, and the messages left behind a position are among
those behind every earlier one. -/
structure Replica.Once (resume : List UInt8 → List (List UInt8)) (t : Replica) : Prop where
  handled : t.handled.Nodup
  forward : (t.redis.history.map (·.1)).Pairwise fun p q => resume q <:+ resume p

/-- The message in front has been taken and its slot is not released yet. -/
def RedisPhase.Holds : RedisPhase → Bool
  | .committing _ | .flushing _ | .advancing => true
  | .top | .draining | .spinning | .idle | .exited => false

def Replica.unread (t : Replica) : List (List UInt8) :=
  if t.redis.phase = .exited then [] else if t.redis.phase.Holds then t.ring.tail else t.ring

/-- A connection is made only when the position of every message in the ring is stored. -/
def Replica.ConnectsDrained (t : Replica) : ReplicaAct → Prop
  | .connect => t.unread = []
  | _ => True

instance (t : Replica) (a : ReplicaAct) : Decidable (t.ConnectsDrained a) :=
  match a with
  | .connect => inferInstanceAs (Decidable (_ = _))
  | .receive | .lose | .redis _ | .take _ _ => isTrue trivial

variable {η : Type} {tableFunc : List UInt8 → Option η} {resume : List UInt8 → List (List UInt8)}
  {log : List (List UInt8)} {info : List UInt8} {num : ℕ} {t u : Replica} {r s : RedisThread}

theorem positionOf_of_takeApart {data pos : List UInt8} {x : DmlResult η}
    (h : takeApart tableFunc data = some (some pos, x)) : positionOf data = some pos := by
  rw [takeApart] at h
  obtain ⟨found, hfound, h⟩ := Option.bind_eq_some_iff.mp h
  rw [positionOf, hfound]
  cases found with
  | none => cases h
  | some len =>
    dsimp only at h
    split_ifs at h
    obtain ⟨y, -, h⟩ := Option.bind_eq_some_iff.mp h
    cases h
    rfl

theorem rsFlushSlaveInfo_keeps (r : RedisThread) (clock : UInt64) (o : FlushOutcome) :
    (rsFlushSlaveInfo r clock o).2.dumpInfo = r.dumpInfo ∧
      (rsFlushSlaveInfo r clock o).2.history = r.history := by
  unfold rsFlushSlaveInfo
  split_ifs
  · exact ⟨rfl, rfl⟩
  · exact ⟨rfl, rfl⟩
  · cases o <;> exact ⟨rfl, rfl⟩

structure RedisThread.Keeps (r s : RedisThread) : Prop where
  dumpInfo : s.dumpInfo = r.dumpInfo
  history : s.history = r.history
  holds : s.phase = .exited ∨ r.phase ≠ .exited ∧ s.phase.Holds = r.phase.Holds

theorem takeReply_keeps {ok : Bool} (hp : r.phase ≠ .exited) (hs : takeReply r ok = some s) :
    r.Keeps s := by
  rw [takeReply] at hs
  split_ifs at hs <;> obtain rfl := Option.some.inj hs
  · exact ⟨rfl, rfl, Or.inr ⟨hp, rfl⟩⟩
  · exact ⟨rfl, rfl, Or.inl rfl⟩

theorem keeps_phase {p : RedisPhase} (hp : r.phase ≠ .exited) (hholds : p.Holds = r.phase.Holds) :
    r.Keeps { r with phase := p } :=
  ⟨rfl, rfl, Or.inr ⟨hp, hholds⟩⟩

theorem flush_keeps {clock : UInt64} {o : FlushOutcome} {p : RedisPhase} (hp : r.phase ≠ .exited)
    (hholds : p.Holds = r.phase.Holds) :
    r.Keeps { (rsFlushSlaveInfo r clock o).2 with
      phase := if (rsFlushSlaveInfo r clock o).1 = .ok then p else .exited } := by
  obtain ⟨hinfo, hhistory⟩ := rsFlushSlaveInfo_keeps r clock o
  refine ⟨hinfo, hhistory, ?_⟩
  dsimp only
  split_ifs
  · exact Or.inr ⟨hp, hholds⟩
  · exact Or.inl rfl

/-- The steps that neither take a message nor release its slot. -/
theorem redisStep_keeps {b : RedisAct} (hs : redisStep r b = some s)
    (hmsg : ∀ pos k code, b ≠ .message pos k code) (hbad : b ≠ .badMessage) (hadv : b ≠ .advance) :
    r.Keeps s := by
  cases b with
  | message pos k code => exact absurd rfl (hmsg pos k code)
  | badMessage => exact absurd rfl hbad
  | advance => exact absurd rfl hadv
  | empty =>
    obtain ⟨hp, rfl⟩ := redisStep_empty hs
    exact keeps_phase (by rw [hp]; nofun) (by rw [hp]; rfl)
  | spun =>
    obtain ⟨hp, rfl⟩ := redisStep_spun hs
    exact keeps_phase (by rw [hp]; nofun) (by rw [hp]; rfl)
  | reply ok =>
    obtain ⟨hp, hs⟩ := redisStep_reply hs
    exact takeReply_keeps (by rcases hp with hp | ⟨q, hp⟩ <;> rw [hp] <;> nofun) hs
  | replied =>
    obtain ⟨-, ⟨hp, rfl⟩ | ⟨q, hp, rfl⟩⟩ := redisStep_replied hs
    · exact keeps_phase (by rw [hp]; nofun) (by rw [hp]; rfl)
    · exact keeps_phase (by rw [hp]; nofun) (by rw [hp]; rfl)
  | flush clock o =>
    obtain ⟨p, ⟨hp, rfl⟩ | ⟨q, hp, rfl⟩, rfl⟩ := redisStep_flush hs
    · exact flush_keeps (by rw [hp]; nofun) (by rw [hp]; rfl)
    · exact flush_keeps (by rw [hp]; nofun) (by rw [hp]; rfl)

structure RedisThread.Takes (r s : RedisThread) (pos : List UInt8) (k : ℕ) (code : RsCode) : Prop where
  live : r.phase ≠ .exited
  free : r.phase.Holds = false
  dumpInfo : s.dumpInfo = pos
  history : s.history = r.history ++ [(pos, k)]
  saved : s.saved = r.saved
  answered : s.answered = r.answered
  exited : s.phase = .exited ↔ code ≠ .ok
  holds : s.phase ≠ .exited → s.phase.Holds = true

theorem takeMessage_takes {pos : List UInt8} {k : ℕ} {code : RsCode} (hlive : r.phase ≠ .exited)
    (hfree : r.phase.Holds = false) : r.Takes (takeMessage r pos k code) pos k code := by
  refine ⟨hlive, hfree, rfl, rfl, rfl, rfl, ?_, ?_⟩ <;> rw [takeMessage] <;> dsimp only <;> split_ifs with hcode
  · exact iff_of_true rfl hcode
  · exact iff_of_false nofun hcode
  · exact iff_of_false nofun hcode
  · exact fun h => absurd rfl h
  · exact fun _ => rfl
  · exact fun _ => rfl

theorem redisStep_takes {pos : List UInt8} {k : ℕ} {code : RsCode}
    (hs : redisStep r (.message pos k code) = some s) : r.Takes s pos k code := by
  obtain ⟨hp | hp, rfl⟩ := redisStep_message hs
  · exact takeMessage_takes (by rw [hp]; nofun) (by rw [hp]; rfl)
  · exact takeMessage_takes (by rw [hp]; nofun) (by rw [hp]; rfl)

/-- A step of the thread that takes no message releases a slot, or leaves the ring alone. -/
theorem replicaStep_redis {b : RedisAct} (hs : replicaStep tableFunc resume num t (.redis b) = some u) :
    (∃ r, t.redis.Keeps r ∧ u = { t with redis := r }) ∨
    (t.redis.phase = .advancing ∧
      u = { t with redis := { t.redis with phase := .top }, ring := t.ring.tail }) := by
  cases b with
  | empty | spun =>
    obtain ⟨-, hs⟩ := Option.ite_none_right_eq_some.mp hs
    obtain ⟨r, hr, rfl⟩ := Option.map_eq_some_iff.mp hs
    exact Or.inl ⟨r, redisStep_keeps hr nofun nofun nofun, rfl⟩
  | reply ok | replied | flush clock o =>
    obtain ⟨r, hr, rfl⟩ := Option.map_eq_some_iff.mp hs
    exact Or.inl ⟨r, redisStep_keeps hr nofun nofun nofun, rfl⟩
  | advance =>
    obtain ⟨r, hr, rfl⟩ := Option.map_eq_some_iff.mp hs
    obtain ⟨hp, rfl⟩ := redisStep_advance hr
    exact Or.inr ⟨hp, rfl⟩
  | message | badMessage => cases hs

/-- What the master would send for the current position is what is in the ring unread, and
then what is still to come on the connection. -/
structure Replica.Inv (log : List (List UInt8)) (resume : List UInt8 → List (List UInt8))
    (t : Replica) : Prop where
  inLog : resume t.redis.dumpInfo <:+ log
  held : t.redis.phase.Holds = true → t.ring ≠ []
  coming : t.redis.phase ≠ .exited → ∃ rest, resume t.redis.dumpInfo = t.unread ++ rest ∧
    ∀ l, t.conn = some l → l = rest
  newest : ∀ p ∈ t.redis.history.map (·.1), resume t.redis.dumpInfo <:+ resume p
  order : (t.redis.history.map (·.1)).Pairwise fun p q =>
    resume q <:+ resume p ∧ (resume q).length < (resume p).length
  handed : (t.handled.map positionOf).Sublist ((t.redis.history.map (·.1)).map some)

theorem Replica.Inv.keeps (h : t.Inv log resume) (hk : t.redis.Keeps r) :
    Replica.Inv log resume { t with redis := r } := by
  obtain ⟨hinfo, hhistory, hholds⟩ := hk
  refine
    { inLog := hinfo ▸ h.inLog
      held := fun hh => ?_
      coming := fun hp => ?_
      newest := by rw [hinfo, hhistory]; exact h.newest
      order := by rw [hhistory]; exact h.order
      handed := by rw [hhistory]; exact h.handed }
  · rcases hholds with hexit | ⟨-, heq⟩
    · change r.phase.Holds = true at hh
      rw [hexit] at hh
      cases hh
    · exact h.held (heq ▸ hh)
  · obtain ⟨hlive, heq⟩ := hholds.resolve_left hp
    obtain ⟨rest, hrest, hconn⟩ := h.coming hlive
    refine ⟨rest, ?_, hconn⟩
    rw [hinfo, hrest, Replica.unread, Replica.unread, if_neg hlive, if_neg hp, heq]

theorem Replica.Inv.connect (h : t.Inv log resume) (hok : t.unread = [])
    (hs : replicaStep tableFunc resume num t .connect = some u) : u.Inv log resume := by
  rw [replicaStep] at hs
  split_ifs at hs
  obtain rfl := Option.some.inj hs
  refine { h with coming := fun _ => ⟨resume t.redis.dumpInfo, ?_, fun l hl => (Option.some.inj hl).symm⟩ }
  exact congrArg (· ++ resume t.redis.dumpInfo) hok.symm

theorem Replica.Inv.lose (h : t.Inv log resume)
    (hs : replicaStep tableFunc resume num t .lose = some u) : u.Inv log resume := by
  rw [replicaStep] at hs
  split_ifs at hs
  obtain rfl := Option.some.inj hs
  refine { h with coming := fun hp => ?_ }
  obtain ⟨rest, hrest, -⟩ := h.coming hp
  exact ⟨rest, hrest, nofun⟩

theorem unread_snoc (t : Replica) (m : List UInt8) (hlive : t.redis.phase ≠ .exited)
    (hheld : t.redis.phase.Holds = true → t.ring ≠ []) :
    Replica.unread { t with ring := t.ring ++ [m] } = t.unread ++ [m] := by
  simp only [Replica.unread, if_neg hlive]
  split_ifs with hh
  · exact List.tail_append_of_ne_nil (hheld hh)
  · rfl

theorem Replica.Inv.receive (h : t.Inv log resume)
    (hs : replicaStep tableFunc resume num t .receive = some u) : u.Inv log resume := by
  rw [replicaStep] at hs
  split at hs
  · rename_i m rest hconn
    split_ifs at hs
    obtain rfl := Option.some.inj hs
    refine
      { h with
        held := fun _ => List.append_ne_nil_of_right_ne_nil _ (List.cons_ne_nil m [])
        coming := fun hp => ?_ }
    obtain ⟨rest', hrest, hall⟩ := h.coming hp
    obtain rfl := hall _ hconn
    refine ⟨rest, ?_, fun l hl => (Option.some.inj hl).symm⟩
    have hsnoc := unread_snoc t m hp h.held
    rw [Replica.unread] at hsnoc ⊢
    dsimp only at hsnoc ⊢
    rw [hsnoc, hrest, List.append_assoc, List.singleton_append]
  · cases hs

theorem Replica.Inv.advance (h : t.Inv log resume) (hp : t.redis.phase = .advancing) :
    Replica.Inv log resume { t with redis := { t.redis with phase := .top }, ring := t.ring.tail } := by
  refine { h with held := nofun, coming := fun _ => ?_ }
  obtain ⟨rest, hrest, hconn⟩ := h.coming (by rw [hp]; nofun)
  refine ⟨rest, ?_, hconn⟩
  rw [Replica.unread, hp] at hrest
  exact hrest

/-- Behind the message in front the master has what it sends for that message's position. -/
theorem resume_next (hsafe : SafeResume log info resume) {p q m : List UInt8} {rest : List (List UInt8)}
    (hlog : resume p <:+ log) (hp : resume p = m :: rest) (hq : positionOf m = some q) :
    resume q = rest := by
  obtain ⟨done, hdone⟩ := hlog
  rw [hp] at hdone
  have hm : log[done.length]? = some m := by
    rw [← hdone, List.getElem?_append_right le_rfl, Nat.sub_self]
    rfl
  rw [hsafe.next _ m q hm hq, ← hdone, ← List.drop_drop, List.drop_left]
  rfl

theorem Replica.Inv.message (hsafe : SafeResume log info resume) (h : t.Inv log resume)
    (called : Bool) {m pos : List UInt8} {ring : List (List UInt8)} {k : ℕ} {code : RsCode}
    (hring : t.ring = m :: ring) (hpos : positionOf m = some pos)
    (hs : redisStep t.redis (.message pos k code) = some r) :
    Replica.Inv log resume
      { t with redis := r, handled := if called then t.handled ++ [m] else t.handled } := by
  obtain ⟨hlive, hholds, hinfo, hhistory, -, -, -, hphase⟩ := redisStep_takes hs
  obtain ⟨rest, hrest, hconn⟩ := h.coming hlive
  have hunread : t.unread = m :: ring := by
    rw [Replica.unread, if_neg hlive, hholds, hring]
    rfl
  rw [hunread, List.cons_append] at hrest
  have hnext : resume pos = ring ++ rest := resume_next hsafe h.inLog hrest hpos
  have hstep : resume pos <:+ resume t.redis.dumpInfo ∧
      (resume pos).length < (resume t.redis.dumpInfo).length := by
    rw [hnext, hrest]
    exact ⟨List.suffix_cons m _, Nat.lt_succ_self _⟩
  have hmap : r.history.map (·.1) = t.redis.history.map (·.1) ++ [pos] := by
    rw [hhistory, List.map_append]
    rfl
  refine
    { inLog := by rw [hinfo]; exact hstep.1.trans h.inLog
      held := fun _ => by rw [hring]; exact List.cons_ne_nil m ring
      coming := fun hp => ⟨rest, ?_, hconn⟩
      newest := fun p hp => ?_
      order := ?_
      handed := ?_ }
  · rw [hinfo, hnext, Replica.unread, if_neg hp, if_pos (hphase hp), hring]
    rfl
  · rw [hinfo]
    rw [hmap] at hp
    rcases List.mem_append.mp hp with hp | hp
    · exact hstep.1.trans (h.newest p hp)
    · rw [List.mem_singleton.mp hp]
  · rw [hmap]
    refine List.pairwise_append.mpr ⟨h.order, List.pairwise_singleton _ _, fun p hp q hq => ?_⟩
    obtain rfl := List.mem_singleton.mp hq
    have hnew := h.newest p hp
    exact ⟨hstep.1.trans hnew, hstep.2.trans_le hnew.length_le⟩
  · rw [hmap, List.map_append]
    cases called with
    | true =>
      rw [if_pos rfl, List.map_append, List.map_singleton, hpos]
      exact h.handed.append (List.Sublist.refl _)
    | false => exact h.handed.trans (List.sublist_append_left _ _)

theorem Replica.Inv.badMessage (h : t.Inv log resume) (hs : redisStep t.redis .badMessage = some r) :
    Replica.Inv log resume { t with redis := r } := by
  obtain rfl := redisStep_badMessage hs
  exact h.keeps ⟨rfl, rfl, Or.inl rfl⟩

theorem Replica.Inv.take (hsafe : SafeResume log info resume) (h : t.Inv log resume) {k : ℕ}
    {code : RsCode} (hs : replicaStep tableFunc resume num t (.take k code) = some u) :
    u.Inv log resume := by
  rw [replicaStep] at hs
  split at hs
  · cases hs
  · rename_i m ring hring
    obtain ⟨⟨pos, x⟩, htake, hs⟩ := Option.bind_eq_some_iff.mp hs
    obtain ⟨r, hstep, rfl⟩ := Option.map_eq_some_iff.mp hs
    cases pos with
    | none => exact h.badMessage hstep
    | some pos =>
      have hpos := positionOf_of_takeApart htake
      cases x with
      | skipped => exact h.message hsafe false hring hpos hstep
      | failed => exact h.message hsafe false hring hpos hstep
      | called => exact h.message hsafe true hring hpos hstep

theorem Replica.Inv.step (hsafe : SafeResume log info resume) (h : t.Inv log resume) {a : ReplicaAct}
    (hok : t.ConnectsDrained a) (hs : replicaStep tableFunc resume num t a = some u) :
    u.Inv log resume := by
  cases a with
  | connect => exact h.connect hok hs
  | receive => exact h.receive hs
  | lose => exact h.lose hs
  | take k code => exact h.take hsafe hs
  | redis b =>
    obtain ⟨r, hr, rfl⟩ | ⟨hp, rfl⟩ := replicaStep_redis hs
    · exact h.keeps hr
    · exact h.advance hp

theorem Replica.init_inv (hsafe : SafeResume log info resume) (save savesec : UInt32) :
    (Replica.init save savesec info).Inv log resume where
  inLog := by
    change resume info <:+ log
    rw [hsafe.start]
  held := nofun
  coming := fun _ => ⟨resume info, rfl, nofun⟩
  newest := fun p hp => by
    obtain rfl : p = info := List.mem_singleton.mp hp
    exact List.suffix_refl _
  order := List.pairwise_singleton _ _
  handed := List.nil_sublist _

theorem Replica.Inv.once (h : t.Inv log resume) : t.Once resume where
  handled := by
    have hnodup : (t.redis.history.map (·.1)).Nodup :=
      h.order.imp fun {p q} hpq heq => by
        subst heq
        exact lt_irrefl _ hpq.2
    exact ((hnodup.map (Option.some_injective _)).sublist h.handed).of_map
  forward := h.order.imp And.left

/-- In a run that connects only when everything received is taken, no message is handed on
twice and the position only moves forward. -/
theorem once_of_connectsDrained (hsafe : SafeResume log info resume) (tableFunc : List UInt8 → Option η)
    (save savesec : UInt32) (num : ℕ) {as : List ReplicaAct}
    (hok : Along (replicaStep tableFunc resume num) Replica.ConnectsDrained
      (Replica.init save savesec info) as)
    (hrun : exec (replicaStep tableFunc resume num) (Replica.init save savesec info) as = some t) :
    t.Once resume :=
  (exec_invariant_along _ (fun _ _ _ h ha hs => h.step hsafe ha hs)
    (Replica.init_inv hsafe save savesec) hok hrun).once

def resumeIn (log : List (List UInt8)) (p : List UInt8) : List (List UInt8) :=
  if p = [98, 44, 48] then log else (log.dropWhile fun m => positionOf m ≠ some p).tail

theorem tail_dropWhile_position {log : List (List UInt8)} {i : ℕ} {m : List UInt8} (hlog : (log.map positionOf).Nodup)
    (hm : log[i]? = some m) : (log.dropWhile fun x => positionOf x ≠ positionOf m).tail = log.drop (i + 1) := by
  induction log generalizing i with
  | nil => cases hm
  | cons a log ih =>
    rw [List.map_cons, List.nodup_cons] at hlog
    cases i with
    | zero =>
      obtain rfl := Option.some.inj hm
      rw [List.dropWhile_cons_of_neg (by simp)]
      rfl
    | succ i =>
      have hmem : m ∈ log := List.mem_of_getElem? hm
      have hne : positionOf a ≠ positionOf m := fun heq => hlog.1 (heq ▸ List.mem_map_of_mem hmem)
      rw [List.dropWhile_cons_of_pos (by simpa using hne)]
      exact ih hlog.2 hm

theorem safeResume_resumeIn {log : List (List UInt8)} (hlog : (log.map positionOf).Nodup)
    (hstart : some [98, 44, 48] ∉ log.map positionOf) : SafeResume log [98, 44, 48] (resumeIn log) where
  start := if_pos rfl
  next := by
    intro i m p hm hp
    have hne : p ≠ [98, 44, 48] := by
      rintro rfl
      exact hstart (hp ▸ List.mem_map_of_mem (List.mem_of_getElem? hm))
    rw [resumeIn, if_neg hne, ← hp]
    exact tail_dropWhile_position hlog hm

def rowLog (row : UInt8 → List UInt8) : List (List UInt8) :=
  [49, 50, 51].map fun i => [98, 44, i, 10, rsWriteRowsEvent, 44, 100, 46, 116, 0] ++ row i

def insertLog : List (List UInt8) := rowLog fun _ => []

theorem safeResume_insertLog : SafeResume insertLog [98, 44, 48] (resumeIn insertLog) :=
  safeResume_resumeIn (by decide) (by decide)

/-- The connection is lost when both messages in the ring have been taken, the second one being
still in its slot. -/
def drainedRun : List ReplicaAct :=
  [.connect, .receive, .receive, .take 1 .ok, .redis (.flush 0 .done), .redis .advance, .take 1 .ok,
    .redis (.flush 0 .done), .lose, .connect, .redis .advance, .receive, .take 1 .ok]

theorem once_of_drainedRun : SafeResume insertLog [98, 44, 48] (resumeIn insertLog) ∧
    Along (replicaStep some (resumeIn insertLog) 4) Replica.ConnectsDrained (Replica.init 9 9 [98, 44, 48])
      drainedRun ∧
    ∃ t, exec (replicaStep some (resumeIn insertLog) 4) (Replica.init 9 9 [98, 44, 48]) drainedRun = some t ∧
      t.handled = insertLog ∧ t.Once (resumeIn insertLog) := by
  have hok : Along (replicaStep some (resumeIn insertLog) 4) Replica.ConnectsDrained
      (Replica.init 9 9 [98, 44, 48]) drainedRun := by decide +kernel
  have hhandled : (exec (replicaStep some (resumeIn insertLog) 4) (Replica.init 9 9 [98, 44, 48])
      drainedRun).map (·.handled) = some insertLog := by decide +kernel
  obtain ⟨t, ht, hlog⟩ := Option.map_eq_some_iff.mp hhandled
  exact ⟨safeResume_insertLog, hok, t, ht, hlog, once_of_connectsDrained safeResume_insertLog some 9 9 4 hok ht⟩

/-- The connection is lost with two messages unread. The master sends them again, behind
themselves in the ring. -/
def undrainedRun : List ReplicaAct :=
  [.connect, .receive, .receive, .lose, .connect, .receive, .take 1 .ok, .redis (.flush 0 .done),
    .redis .advance, .take 1 .ok, .redis (.flush 0 .done), .redis .advance, .take 1 .ok]

theorem handled_twice : ¬ ∀ (log : List (List UInt8)) (info : List UInt8)
    (resume : List UInt8 → List (List UInt8)) (tableFunc : List UInt8 → Option (List UInt8))
    (save savesec : UInt32) (num : ℕ) (as : List ReplicaAct) (t : Replica),
    SafeResume log info resume →
    exec (replicaStep tableFunc resume num) (Replica.init save savesec info) as = some t →
    t.Once resume := by
  intro h
  have hhandled : (exec (replicaStep some (resumeIn insertLog) 4) (Replica.init 9 9 [98, 44, 48])
      undrainedRun).map (·.handled) = some (insertLog.take 2 ++ insertLog.take 1) := by decide +kernel
  obtain ⟨t, ht, hlog⟩ := Option.map_eq_some_iff.mp hhandled
  have hnodup := (h _ _ _ _ _ _ _ _ t safeResume_insertLog ht).handled
  rw [hlog] at hnodup
  exact absurd hnodup (by decide)

end MySQLSyncer.Slave
