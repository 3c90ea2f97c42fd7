import MySQLSyncer.Lib.Replay
import MySQLSyncer.Slave.FlushCrash
import MySQLSyncer.Slave.Replica
import MySQLSyncer.Slave.SavedPosition

/-! # The slave, its redis and its restarts

The process may end between any two steps of its threads. The next one begins at what it reads in
`slave.info`. Redis comes to the commands of a process in their order, also of those that it has not
run when the process ends. `rs_redis_get_replies` does not look into the replies, so that an error is
a reply like others. What a table handler appends for a row event is a parameter.
-/
namespace MySQLSyncer.Slave
open Lib MySQLSyncer.Core

/-- Of the running process: its threads, the messages that it took and handled, the commands that
it appended, and how many of these redis has come to. Then the data in redis, the messages that
processes before had finished, every value that `dump_info` has had, and the commands of each ended
process that redis has not come to. -/
structure Site (κ ν : Type) where
  replica : Replica
  taken : List (List UInt8)
  queued : List (κ × ν)
  ran : ℕ
  store : κ → Option ν
  before : List (List UInt8)
  positions : List (List UInt8)
  left : List (List (κ × ν))

def Site.init {κ ν : Type} (s₀ : κ → Option ν) (save savesec : UInt32) (info : List UInt8) : Site κ ν :=
  ⟨Replica.init save savesec info, [], [], 0, s₀, [], [info], []⟩

def Site.finished {κ ν : Type} (t : Site κ ν) : List (List UInt8) :=
  t.before ++ (t.taken.zipIdx.filter fun x => t.replica.redis.appended (x.2 + 1) ≤ t.ran).map (·.1)

inductive SiteAct where
  | run (a : ReplicaAct)
  /-- Redis runs the next command, or answers it with an error. -/
  | command (ok : Bool)
  /-- Redis runs the next command of an ended process. -/
  | late (i : ℕ)
  /-- The process ends and the next one starts, with the settings that it reads. -/
  | restart (save savesec : UInt32)
  deriving DecidableEq

section step
variable {κ ν η : Type} (tableFunc : List UInt8 → Option η)
  (cmds : η → List UInt8 → ℕ → UInt8 → List (κ × ν)) (resume : List UInt8 → List (List UInt8)) (num : ℕ)

def commandsOf (m : List UInt8) : List (κ × ν) :=
  match takeApart tableFunc m with
  | some (some _, .called handler _ data rl t) => cmds handler data rl t
  | _ => []

/-- The message is taken, and the first `k` of its commands are appended: all of them, unless the
handler fails. -/
def siteTake (t : Site κ ν) (k : ℕ) (code : RsCode) : Option (Site κ ν) := do
  let m ← t.replica.ring.head?
  let c := commandsOf tableFunc cmds m
  if k ≤ c.length ∧ (code = .ok → k = c.length) then
    let r ← replicaStep tableFunc resume num t.replica (.take k code)
    some { t with
      replica := r
      taken := if r.redis.phase = .exited then t.taken else t.taken ++ [m]
      queued := t.queued ++ c.take k
      positions := t.positions ++ [r.redis.dumpInfo] }
  else none

def Site.Replies (t : Site κ ν) (a : ReplicaAct) : Prop := a = .redis (.reply true) → t.replica.redis.answered < t.ran

instance (t : Site κ ν) (a : ReplicaAct) : Decidable (t.Replies a) := inferInstanceAs (Decidable (_ → _))

def siteStep [DecidableEq κ] (t : Site κ ν) : SiteAct → Option (Site κ ν)
  | .run (.take k code) => siteTake tableFunc cmds resume num t k code
  | .run a => if t.Replies a then
      (replicaStep tableFunc resume num t.replica a).map fun r => { t with replica := r } else none
  | .command ok => t.queued[t.ran]?.map fun a =>
      { t with ran := t.ran + 1, store := if ok then Function.update t.store a.1 (some a.2) else t.store }
  | .late i => match t.left[i]? with
    | some (a :: rest) =>
        some { t with store := Function.update t.store a.1 (some a.2), left := t.left.set i rest }
    | _ => none
  | .restart save savesec => (rsInitSlaveInfo t.replica.redis.infoFile).join.map fun info =>
      ⟨Replica.init save savesec info, [], [], 0, t.store, t.finished, t.positions ++ [info],
        t.left ++ [t.queued.drop t.ran]⟩

end step

/-- No position is saved with commands pending, and fewer than 2³² are. Redis runs every command, and
none of a process that has ended. The next process reads the position that was saved last, so that none
ends between the write and the truncation of `slave.info`. -/
def Site.Orderly {κ ν : Type} (t : Site κ ν) : SiteAct → Prop
  | .run (.redis a) => t.replica.redis.FlushesAnswered a
  | .run (.take k _) => t.replica.redis.cmdn.toNat + k < 2 ^ 32
  | .restart _ _ => rsInitSlaveInfo t.replica.redis.infoFile =
      some ((t.replica.redis.history[t.replica.redis.saved]?).map (·.1))
  | .command ok => ok = true
  | .late _ => False
  | .run .connect | .run .receive | .run .lose => True

/-- As above, with a connection made only when the position of every message in the ring is stored. -/
def Site.OrderlyDrained {κ ν : Type} (t : Site κ ν) (a : SiteAct) : Prop :=
  t.Orderly a ∧ ∀ b, a = .run b → t.replica.ConnectsDrained b

/-- What the master serves: the log, from the start at the position that the slave begins with. -/
structure Served (d : Delivery (List UInt8) (List UInt8)) (info : List UInt8)
    (resume : List UInt8 → List (List UInt8)) : Prop where
  position : d.position = positionOf
  start : d.serves info 0
  right : d.Right resume

def exactDelivery (log : List (List UInt8)) (resume : List UInt8 → List (List UInt8)) :
    Delivery (List UInt8) (List UInt8) :=
  ⟨log, fun _ => true, positionOf, fun p j => j ≤ log.length ∧ resume p = log.drop j⟩

theorem SafeResume.served {log : List (List UInt8)} {info : List UInt8}
    {resume : List UInt8 → List (List UInt8)} (h : SafeResume log info resume) :
    Served (exactDelivery log resume) info resume where
  position := rfl
  start := ⟨Nat.zero_le _, h.start⟩
  right := fun p j hp => by
    have hfollows (l : List (List UInt8)) (j : ℕ) (hl : l = log.drop j) :
        (exactDelivery log resume).Follows j l := by
      induction l generalizing j with
      | nil => trivial
      | cons m l ih =>
        have hm : log[j]? = some m := by
          rw [← List.head?_drop, ← hl]
          rfl
        have hlt := (List.getElem?_eq_some_iff.mp hm).1
        refine ⟨⟨fun _ => hm, fun q hq => ⟨hlt, h.next j m q hm hq⟩⟩, ih (j + 1) ?_⟩
        rw [← List.tail_drop, ← hl]
        rfl
    exact hfollows _ j hp.2

instance {κ ν : Type} (t : Site κ ν) (a : SiteAct) : Decidable (t.Orderly a) :=
  match a with
  | .run (.redis a) => inferInstanceAs (Decidable (t.replica.redis.FlushesAnswered a))
  | .run (.take _ _) => inferInstanceAs (Decidable (_ < _))
  | .restart _ _ => inferInstanceAs (Decidable (_ = _))
  | .command ok => inferInstanceAs (Decidable (ok = true))
  | .late _ => isFalse id
  | .run .connect | .run .receive | .run .lose => isTrue trivial

instance {κ ν : Type} (t : Site κ ν) (a : SiteAct) : Decidable (t.OrderlyDrained a) :=
  match a with
  | .run b => decidable_of_iff (t.Orderly (.run b) ∧ t.replica.ConnectsDrained b) (by simp [Site.OrderlyDrained])
  | .command ok => decidable_of_iff (t.Orderly (.command ok)) (by simp [Site.OrderlyDrained])
  | .late i => decidable_of_iff (t.Orderly (.late i)) (by simp [Site.OrderlyDrained])
  | .restart save savesec => decidable_of_iff (t.Orderly (.restart save savesec)) (by simp [Site.OrderlyDrained])

variable {r s : RedisThread}

structure RedisThread.Quiet (r s : RedisThread) (b : RedisAct) : Prop where
  dumpInfo : s.dumpInfo = r.dumpInfo
  history : s.history = r.history
  phase : s.phase ≠ .exited → r.phase ≠ .exited
  saved : s.saved = r.saved ∨ r.phase ≠ .exited ∧ s.saved = r.history.length - 1
  answered : s.answered = r.answered ∨ b = .reply true ∧ s.answered = r.answered + 1

theorem RedisThread.Keeps.quiet {b : RedisAct} (h : r.Keeps s) (hsaved : s.saved = r.saved)
    (hanswered : s.answered = r.answered ∨ b = .reply true ∧ s.answered = r.answered + 1) : r.Quiet s b where
  dumpInfo := h.dumpInfo
  history := h.history
  phase := fun hp => (h.holds.resolve_left hp).1
  saved := Or.inl hsaved
  answered := hanswered

theorem takeReply_counts {ok : Bool} (hs : takeReply r ok = some s) :
    s.saved = r.saved ∧ (s.answered = r.answered ∨ ok = true ∧ s.answered = r.answered + 1) := by
  rw [takeReply] at hs
  split_ifs at hs with hzero hok <;> obtain rfl := Option.some.inj hs
  · exact ⟨rfl, Or.inr ⟨hok, rfl⟩⟩
  · exact ⟨rfl, Or.inl rfl⟩

theorem flush_saved (r : RedisThread) (clock : UInt64) (o : FlushOutcome) :
    (rsFlushSlaveInfo r clock o).2.answered = r.answered ∧
      ((rsFlushSlaveInfo r clock o).2.saved = r.saved ∨
        (rsFlushSlaveInfo r clock o).2.saved = r.history.length - 1) := by
  rcases rsFlushSlaveInfo_cases r clock o with
    ⟨-, heq⟩ | ⟨-, heq⟩ | ⟨save, savesec, file, last, heq, hlast⟩ <;> rw [heq]
  · exact ⟨rfl, Or.inl rfl⟩
  · exact ⟨rfl, Or.inr rfl⟩
  · exact ⟨rfl, hlast.imp_right And.right⟩

theorem redisStep_quiet {b : RedisAct} (hmsg : ∀ pos k code, b ≠ .message pos k code) (hbad : b ≠ .badMessage)
    (hs : redisStep r b = some s) : r.Quiet s b := by
  have hkeeps (hadv : b ≠ .advance) := redisStep_keeps hs hmsg hbad hadv
  cases b with
  | message pos k code => exact absurd rfl (hmsg pos k code)
  | badMessage => exact absurd rfl hbad
  | empty =>
    obtain ⟨-, rfl⟩ := redisStep_empty hs
    exact (hkeeps nofun).quiet rfl (Or.inl rfl)
  | spun =>
    obtain ⟨-, rfl⟩ := redisStep_spun hs
    exact (hkeeps nofun).quiet rfl (Or.inl rfl)
  | replied =>
    obtain ⟨-, ⟨-, rfl⟩ | ⟨p, -, rfl⟩⟩ := redisStep_replied hs
    · exact (hkeeps nofun).quiet rfl (Or.inl rfl)
    · exact (hkeeps nofun).quiet rfl (Or.inl rfl)
  | reply ok =>
    obtain ⟨hsaved, hanswered⟩ := takeReply_counts (redisStep_reply hs).2
    exact (hkeeps nofun).quiet hsaved (hanswered.imp_right fun h => ⟨by rw [h.1], h.2⟩)
  | flush clock o =>
    obtain ⟨hinfo, hhistory, hholds⟩ := hkeeps nofun
    obtain ⟨p, hp, rfl⟩ := redisStep_flush hs
    obtain ⟨hanswered, hsaved⟩ := flush_saved r clock o
    have hlive : r.phase ≠ .exited := by rcases hp with ⟨hp, -⟩ | ⟨q, hp, -⟩ <;> rw [hp] <;> nofun
    exact ⟨hinfo, hhistory, fun _ => hlive, hsaved.imp_right fun h => ⟨hlive, h⟩, Or.inl hanswered⟩
  | advance =>
    obtain ⟨hp, rfl⟩ := redisStep_advance hs
    exact ⟨rfl, rfl, fun _ => by simp [hp], Or.inl rfl, Or.inl rfl⟩

variable {κ ν η : Type} {tableFunc : List UInt8 → Option η}
  {cmds : η → List UInt8 → ℕ → UInt8 → List (κ × ν)} {resume : List UInt8 → List (List UInt8)}
  {d : Delivery (List UInt8) (List UInt8)} {info : List UInt8} {num : ℕ} {t u : Site κ ν} {x y : Replica}
  {s₀ : κ → Option ν}

theorem replicaStep_other {a : ReplicaAct} (ha : ∀ k code, a ≠ .take k code)
    (hs : replicaStep tableFunc resume num x a = some y) :
    ((∀ b, a ≠ .redis b) ∧ y.redis = x.redis) ∨ ∃ b, a = .redis b ∧ redisStep x.redis b = some y.redis ∧
      x.redis.Quiet y.redis b := by
  cases a with
  | take k code => exact absurd rfl (ha k code)
  | connect =>
    obtain ⟨-, hs⟩ := Option.ite_none_right_eq_some.mp hs
    obtain rfl := Option.some.inj hs
    exact Or.inl ⟨by simp, rfl⟩
  | receive =>
    rw [replicaStep] at hs
    split at hs
    · split_ifs at hs
      obtain rfl := Option.some.inj hs
      exact Or.inl ⟨by simp, rfl⟩
    · cases hs
  | lose =>
    obtain ⟨-, hs⟩ := Option.ite_none_left_eq_some.mp hs
    obtain rfl := Option.some.inj hs
    exact Or.inl ⟨by simp, rfl⟩
  | redis b =>
    have hstep : redisStep x.redis b = some y.redis := by
      cases b with
      | empty | spun =>
        obtain ⟨-, hs⟩ := Option.ite_none_right_eq_some.mp hs
        obtain ⟨r, hr, rfl⟩ := Option.map_eq_some_iff.mp hs
        exact hr
      | reply | replied | flush | advance =>
        obtain ⟨r, hr, rfl⟩ := Option.map_eq_some_iff.mp hs
        exact hr
      | message | badMessage => cases hs
    refine Or.inr ⟨b, rfl, hstep, redisStep_quiet ?_ ?_ hstep⟩
    · rintro pos k code rfl
      cases hs
    · rintro rfl
      cases hs

theorem replicaStep_take {k : ℕ} {code : RsCode}
    (hs : replicaStep tableFunc resume num x (.take k code) = some y) :
    ∃ m ring d, x.ring = m :: ring ∧ takeApart tableFunc m = some d ∧
      redisStep x.redis (messageAct k code d).1 = some y.redis ∧ y.ring = x.ring ∧ y.conn = x.conn := by
  rw [replicaStep] at hs
  split at hs
  · cases hs
  · rename_i m ring hring
    obtain ⟨d, htake, hs⟩ := Option.bind_eq_some_iff.mp hs
    obtain ⟨r, hr, rfl⟩ := Option.map_eq_some_iff.mp hs
    exact ⟨m, ring, d, hring, htake, hr, rfl, rfl⟩

/-- How a message is taken: without a newline in it the thread ends, else `k` commands of its
handler are appended. -/
theorem siteTake_cases {k : ℕ} {code : RsCode} (hs : siteTake tableFunc cmds resume num t k code = some u) :
    ∃ m ring, t.replica.ring = m :: ring ∧
      replicaStep tableFunc resume num t.replica (.take k code) = some u.replica ∧
      u = { t with
        replica := u.replica
        taken := if u.replica.redis.phase = .exited then t.taken else t.taken ++ [m]
        queued := t.queued ++ (commandsOf tableFunc cmds m).take k
        positions := t.positions ++ [u.replica.redis.dumpInfo] } ∧
      u.replica.ring = t.replica.ring ∧ u.replica.conn = t.replica.conn ∧
      ((k = 0 ∧ redisStep t.replica.redis .badMessage = some u.replica.redis) ∨
        ∃ pos code', positionOf m = some pos ∧
          redisStep t.replica.redis (.message pos k code') = some u.replica.redis ∧
          k ≤ (commandsOf tableFunc cmds m).length ∧
          (code' = .ok → k = (commandsOf tableFunc cmds m).length)) := by
  obtain ⟨m, hm, hs⟩ := Option.bind_eq_some_iff.mp hs
  obtain ⟨⟨hk, hall⟩, hs⟩ := Option.ite_none_right_eq_some.mp hs
  obtain ⟨y, hstep, hs⟩ := Option.bind_eq_some_iff.mp hs
  obtain rfl := Option.some.inj hs
  obtain ⟨ring, hring⟩ := List.head?_eq_some_iff.mp hm
  obtain ⟨m', ring', ⟨pos, d⟩, hring', htake, hr, hy⟩ := replicaStep_take hstep
  obtain ⟨rfl, rfl⟩ := List.cons_eq_cons.mp (hring.symm.trans hring')
  refine ⟨m, ring, hring, hstep, rfl, hy.1, hy.2, ?_⟩
  rw [commandsOf, htake] at hk hall ⊢
  cases pos with
  | none => exact Or.inl ⟨Nat.le_zero.mp hk, hr⟩
  | some pos =>
    refine Or.inr ⟨pos, ?_⟩
    have hpos := positionOf_of_takeApart htake
    cases d with
    | skipped =>
      obtain rfl := Nat.le_zero.mp hk
      exact ⟨.ok, hpos, hr, le_rfl, fun _ => rfl⟩
    | failed =>
      obtain rfl := Nat.le_zero.mp hk
      exact ⟨.err, hpos, hr, le_rfl, fun _ => rfl⟩
    | called => exact ⟨code, hpos, hr, hk, hall⟩

theorem siteStep_run [DecidableEq κ] {a : ReplicaAct}
    (hs : siteStep tableFunc cmds resume num t (.run a) = some u) :
    (∃ k code, a = .take k code ∧ siteTake tableFunc cmds resume num t k code = some u) ∨
      ((∀ k code, a ≠ .take k code) ∧ t.Replies a ∧
        ∃ y, replicaStep tableFunc resume num t.replica a = some y ∧ u = { t with replica := y }) := by
  cases a with
  | take k code => exact Or.inl ⟨k, code, rfl, hs⟩
  | connect | receive | lose | redis =>
    simp only [siteStep] at hs
    obtain ⟨hreplies, hs⟩ := Option.ite_none_right_eq_some.mp hs
    obtain ⟨y, hy, rfl⟩ := Option.map_eq_some_iff.mp hs
    exact Or.inr ⟨nofun, hreplies, y, hy, rfl⟩

/-- The messages that were handled are those of the positions, up to the message at which the thread
ended. Redis has run what was answered. -/
structure Site.Counts (t : Site κ ν) : Prop where
  redis : t.replica.redis.Inv
  taken_lt : t.taken.length < t.replica.redis.history.length
  alive : t.replica.redis.phase ≠ .exited → t.replica.redis.history.length = t.taken.length + 1
  saved_le : t.replica.redis.saved ≤ t.taken.length
  queued : t.queued.length = (t.replica.redis.history.map (·.2)).sum
  ran : t.ran ≤ t.queued.length
  answered : t.replica.redis.answered ≤ t.ran

theorem Site.init_counts (s₀ : κ → Option ν) (save savesec : UInt32) (info : List UInt8) :
    (Site.init s₀ save savesec info).Counts where
  redis := RedisThread.init_inv save savesec info
  taken_lt := Nat.one_pos
  alive := fun _ => rfl
  saved_le := le_rfl
  queued := rfl
  ran := le_rfl
  answered := le_rfl

theorem Site.Counts.quiet (h : t.Counts) {b : RedisAct} (hb : t.replica.redis.FlushesAnswered b)
    (hs : redisStep t.replica.redis b = some y.redis) (hq : t.replica.redis.Quiet y.redis b)
    (hreplies : b = .reply true → t.replica.redis.answered < t.ran) : Counts { t with replica := y } where
  redis := h.redis.step b hb hs
  taken_lt := by rw [hq.history]; exact h.taken_lt
  alive := fun hp => by rw [hq.history]; exact h.alive (hq.phase hp)
  saved_le := by
    rcases hq.saved with hsaved | ⟨hp, hsaved⟩
    · rw [hsaved]
      exact h.saved_le
    · have := h.alive hp
      rw [hsaved]
      change _ ≤ t.taken.length
      omega
  queued := by rw [hq.history]; exact h.queued
  ran := h.ran
  answered := by
    rcases hq.answered with hsame | ⟨hb, hnext⟩
    · rw [hsame]
      exact h.answered
    · rw [hnext]
      exact hreplies hb

theorem Site.Counts.other (h : t.Counts) {a : ReplicaAct} (ha : ∀ k code, a ≠ .take k code)
    (hok : t.Orderly (.run a)) (hreplies : t.Replies a)
    (hs : replicaStep tableFunc resume num t.replica a = some y) : Counts { t with replica := y } := by
  rcases replicaStep_other ha hs with ⟨-, hredis⟩ | ⟨b, rfl, hr, hq⟩
  · exact
      { redis := by rw [hredis]; exact h.redis
        taken_lt := by rw [hredis]; exact h.taken_lt
        alive := by rw [hredis]; exact h.alive
        saved_le := by rw [hredis]; exact h.saved_le
        queued := by rw [hredis]; exact h.queued
        ran := h.ran
        answered := by rw [hredis]; exact h.answered }
  · exact h.quiet hok hr hq fun hb => hreplies (by rw [hb])

theorem Site.Counts.take (h : t.Counts) {k : ℕ} {code : RsCode} (hok : t.Orderly (.run (.take k code)))
    (hs : siteTake tableFunc cmds resume num t k code = some u) : u.Counts := by
  obtain ⟨m, ring, -, -, hu, -, -, hcase⟩ := siteTake_cases hs
  rw [hu]
  rcases hcase with ⟨rfl, hr⟩ | ⟨pos, code', -, hr, hk, -⟩
  · have hredis := redisStep_badMessage hr
    have hphase : u.replica.redis.phase = .exited := by rw [hredis]
    rw [if_pos hphase, List.take_zero, List.append_nil]
    exact
      { redis := h.redis.step .badMessage trivial hr
        taken_lt := by rw [hredis]; exact h.taken_lt
        alive := fun hp => absurd hphase hp
        saved_le := by rw [hredis]; exact h.saved_le
        queued := by rw [hredis]; exact h.queued
        ran := h.ran
        answered := by rw [hredis]; exact h.answered }
  · obtain ⟨hlive, -, -, hhistory, hsaved, hanswered, -, -⟩ := redisStep_takes hr
    have hlen : u.replica.redis.history.length = t.replica.redis.history.length + 1 := by
      rw [hhistory, List.length_append]
      rfl
    have hqueued : (t.queued ++ (commandsOf tableFunc cmds m).take k).length =
        (u.replica.redis.history.map (·.2)).sum := by
      rw [hhistory, List.map_append, List.sum_append, ← h.queued, List.length_append,
        List.length_take_of_le hk]
      rfl
    have halive := h.alive hlive
    refine
      { redis := h.redis.step (.message pos k code') hok hr
        taken_lt := ?_
        alive := fun hp => ?_
        saved_le := ?_
        queued := hqueued
        ran := h.ran.trans (List.length_append ▸ Nat.le_add_right _ _)
        answered := by rw [hanswered]; exact h.answered }
    · dsimp only
      split_ifs
      · omega
      · rw [List.length_append, List.length_singleton]
        omega
    · dsimp only at hp ⊢
      rw [if_neg hp, List.length_append, List.length_singleton]
      omega
    · have hle := h.saved_le
      dsimp only
      split_ifs
      · omega
      · rw [List.length_append]
        omega

theorem Site.Counts.step [DecidableEq κ] (h : t.Counts) {a : SiteAct} (hok : t.Orderly a)
    (hs : siteStep tableFunc cmds resume num t a = some u) : u.Counts := by
  cases a with
  | run a =>
    rcases siteStep_run hs with ⟨k, code, rfl, htake⟩ | ⟨ha, hreplies, y, hy, rfl⟩
    · exact h.take hok htake
    · exact h.other ha hok hreplies hy
  | command ok =>
    obtain ⟨a, ha, rfl⟩ := Option.map_eq_some_iff.mp hs
    exact { h with
      ran := (List.getElem?_eq_some_iff.mp ha).1
      answered := h.answered.trans (Nat.le_succ _) }
  | late i => exact hok.elim
  | restart save savesec =>
    obtain ⟨info, -, rfl⟩ := Option.map_eq_some_iff.mp hs
    have hinit := Site.init_counts t.store save savesec info
    exact ⟨hinit.redis, hinit.taken_lt, hinit.alive, hinit.saved_le, hinit.queued, hinit.ran, hinit.answered⟩

/-- The messages in the ring whose position is yet to be stored, and those on the connection. -/
def Replica.pending (x : Replica) : List (List UInt8) := x.unread ++ x.conn.getD []

def Replica.Held (x : Replica) : Prop := x.redis.phase.Holds = true → x.ring ≠ []

theorem Replica.Held.keeps (h : x.Held) (hk : x.redis.Keeps r) : Replica.Held { x with redis := r } := by
  intro hh
  rcases hk.holds with hexit | ⟨-, heq⟩
  · change r.phase.Holds = true at hh
    rw [hexit] at hh
    cases hh
  · exact h (heq ▸ hh)

theorem unread_keeps (hk : x.redis.Keeps r) (hp : r.phase ≠ .exited) :
    Replica.unread { x with redis := r } = x.unread := by
  obtain ⟨hlive, heq⟩ := hk.holds.resolve_left hp
  rw [Replica.unread, Replica.unread, if_neg hlive, if_neg hp, heq]

/-- A step that takes no message leaves what is pending, drops the connection, or asks for what
comes behind the position. -/
theorem Replica.Held.other (h : x.Held) {a : ReplicaAct} (ha : ∀ k code, a ≠ .take k code)
    (hs : replicaStep tableFunc resume num x a = some y) :
    y.Held ∧ (y.redis.phase ≠ .exited → y.pending = x.pending ∨ y.pending = x.unread ∨
      a = .connect ∧ y.pending = x.unread ++ resume x.redis.dumpInfo) := by
  cases a with
  | take k code => exact absurd rfl (ha k code)
  | connect =>
    obtain ⟨-, hs⟩ := Option.ite_none_right_eq_some.mp hs
    obtain rfl := Option.some.inj hs
    exact ⟨h, fun _ => Or.inr (Or.inr ⟨rfl, rfl⟩)⟩
  | lose =>
    obtain ⟨-, hs⟩ := Option.ite_none_left_eq_some.mp hs
    obtain rfl := Option.some.inj hs
    exact ⟨h, fun _ => Or.inr (Or.inl (List.append_nil _))⟩
  | receive =>
    rw [replicaStep] at hs
    split at hs
    · rename_i m rest hconn
      split_ifs at hs
      obtain rfl := Option.some.inj hs
      refine ⟨fun _ => List.append_ne_nil_of_right_ne_nil _ (List.cons_ne_nil m []), fun hp => Or.inl ?_⟩
      have hsnoc := unread_snoc x m hp h
      rw [Replica.unread] at hsnoc
      rw [Replica.pending, Replica.unread, hsnoc, Replica.pending, hconn, List.append_assoc]
      rfl
    · cases hs
  | redis b =>
    obtain ⟨z, hz, rfl⟩ | ⟨hphase, rfl⟩ := replicaStep_redis hs
    · exact ⟨h.keeps hz, fun hp => Or.inl (congrArg (· ++ x.conn.getD []) (unread_keeps hz hp))⟩
    · refine ⟨by simp [Replica.Held, RedisPhase.Holds], fun _ => Or.inl ?_⟩
      rw [Replica.pending, Replica.pending, Replica.unread, Replica.unread, hphase]
      rfl

/-- Before each position, and before each message that is still to be taken, every entry that the
log has there was taken. -/
structure Site.Covered (d : Delivery (List UInt8) (List UInt8)) (t : Site κ ν) : Prop where
  held : t.replica.Held
  entries : ∀ i p, i ≤ t.taken.length → (t.replica.redis.history[i]?).map (·.1) = some p →
    ∃ j, d.serves p j ∧ ∀ m ∈ d.log.take j, m ∈ t.before ∨ m ∈ t.taken.take i
  pending : t.replica.redis.phase ≠ .exited → d.InTurn {m | m ∈ t.before ∨ m ∈ t.taken} t.replica.pending
  known : ∀ m, m ∈ t.before ∨ m ∈ t.taken → d.entry m → m ∈ d.log

theorem Site.Covered.other (hd : Served d info resume) (h : t.Covered d) (hc : t.Counts) {a : ReplicaAct}
    (ha : ∀ k code, a ≠ .take k code) (hs : replicaStep tableFunc resume num t.replica a = some y) :
    Covered d { t with replica := y } := by
  obtain ⟨hheld, hpending⟩ := h.held.other ha hs
  have hsame : y.redis.history = t.replica.redis.history ∧
      (y.redis.phase ≠ .exited → t.replica.redis.phase ≠ .exited) := by
    rcases replicaStep_other ha hs with ⟨-, hredis⟩ | ⟨b, -, -, hq⟩
    · rw [hredis]
      exact ⟨rfl, id⟩
    · exact ⟨hq.history, hq.phase⟩
  refine
    { held := hheld
      entries := by rw [hsame.1]; exact h.entries
      pending := fun hp => ?_
      known := h.known }
  have hlive := hsame.2 hp
  have hunread : d.InTurn {m | m ∈ t.before ∨ m ∈ t.taken} t.replica.unread :=
    (Delivery.inTurn_append.mp (h.pending hlive)).1
  rcases hpending hp with heq | heq | ⟨-, heq⟩ <;> dsimp only <;> rw [heq]
  · exact h.pending hlive
  · exact hunread
  · have hlast := hc.alive hlive
    have hinfo := hc.redis.info
    rw [hlast, Nat.add_sub_cancel] at hinfo
    obtain ⟨j, hserves, hall⟩ := h.entries _ _ le_rfl hinfo
    rw [List.take_length] at hall
    refine Delivery.inTurn_append.mpr ⟨hunread, ?_⟩
    exact (hd.right _ j hserves).inTurn fun m hm => Or.inl (hall m hm)

/-- The message in front is the first of those that are pending. -/
theorem pending_of_ring {m : List UInt8} {ring : List (List UInt8)} (hring : x.ring = m :: ring)
    (hlive : x.redis.phase ≠ .exited) (hholds : x.redis.phase.Holds = false) :
    x.pending = m :: (ring ++ x.conn.getD []) := by
  rw [Replica.pending, Replica.unread, if_neg hlive, hholds, hring]
  rfl

theorem pending_of_taken {m : List UInt8} {ring : List (List UInt8)} (hring : x.ring = m :: ring)
    (hlive : x.redis.phase ≠ .exited) (hholds : x.redis.phase.Holds = true) :
    x.pending = ring ++ x.conn.getD [] := by
  rw [Replica.pending, Replica.unread, if_neg hlive, hholds, hring]
  rfl

/-- A position that was stored before, or that of the message taken last. -/
theorem history_cases {pos p : List UInt8} {i k : ℕ} (hhistory : s.history = r.history ++ [(pos, k)])
    (hp : (s.history[i]?).map (·.1) = some p) :
    (i < r.history.length ∧ (r.history[i]?).map (·.1) = some p ∧ s.appended i = r.appended i) ∨
      (i = r.history.length ∧ p = pos ∧ s.appended i = (r.history.map (·.2)).sum + k) := by
  rw [hhistory] at hp
  rw [RedisThread.appended, RedisThread.appended, hhistory]
  rcases Nat.lt_trichotomy i r.history.length with hlt | rfl | hgt
  · rw [List.getElem?_append_left hlt] at hp
    exact Or.inl ⟨hlt, hp, by rw [List.take_append_of_le_length (by omega)]⟩
  · rw [List.getElem?_concat_length] at hp
    refine Or.inr ⟨rfl, (Option.some.inj hp).symm, ?_⟩
    rw [List.take_of_length_le (by rw [List.length_append]; rfl), List.map_append, List.sum_append]
    rfl
  · rw [List.getElem?_eq_none (by rw [List.length_append, List.length_singleton]; omega)] at hp
    cases hp

theorem Site.Covered.message (hd : Served d info resume) (h : t.Covered d) (hc : t.Counts) {m : List UInt8}
    {ring : List (List UInt8)} {pos : List UInt8} {k : ℕ} {code : RsCode} {queued : List (κ × ν)}
    {positions : List (List UInt8)} (hring : t.replica.ring = m :: ring) (hsame : y.ring = m :: ring)
    (hconn : y.conn = t.replica.conn) (hpos : positionOf m = some pos)
    (hr : redisStep t.replica.redis (.message pos k code) = some y.redis) :
    Covered d { t with
      replica := y
      taken := if y.redis.phase = .exited then t.taken else t.taken ++ [m]
      queued := queued
      positions := positions } := by
  have hheld : y.Held := fun _ => by
    rw [hsame]
    exact List.cons_ne_nil m ring
  obtain ⟨hlive, hholds, -, hhistory, -, -, -, hphase⟩ := redisStep_takes hr
  have hlen := hc.alive hlive
  have hturn := h.pending hlive
  rw [pending_of_ring hring hlive hholds] at hturn
  obtain ⟨⟨j, hj, hbefore⟩, hrest⟩ := hturn
  have hnext := hj.position pos (by rw [hd.position, hpos])
  by_cases hexit : y.redis.phase = .exited
  · rw [if_pos hexit]
    exact
      { held := hheld
        entries := fun i p hi hp => by
          rcases history_cases hhistory hp with ⟨-, hold, -⟩ | ⟨rfl, -⟩
          · exact h.entries i p hi hold
          · dsimp only at hi
            omega
        pending := fun hp => absurd hexit hp
        known := h.known }
  · rw [if_neg hexit]
    refine
      { held := hheld
        entries := fun i p hi hp => ?_
        pending := fun _ => ?_
        known := fun a ha hentry => ?_ }
    · dsimp only
      rcases history_cases hhistory hp with ⟨hlt, hold, -⟩ | ⟨rfl, rfl, -⟩
      · obtain ⟨j, hserves, hall⟩ := h.entries i p (by omega) hold
        refine ⟨j, hserves, fun a ha => ?_⟩
        rw [List.take_append_of_le_length (by omega)]
        exact hall a ha
      · refine ⟨d.next j m, hnext, fun a ha => ?_⟩
        rw [List.take_of_length_le (by rw [List.length_append, List.length_singleton]; omega)]
        rcases hj.take_next hbefore a ha with rfl | ha
        · exact Or.inr (List.mem_append_right _ (List.mem_singleton_self a))
        · exact ha.imp_right fun ha => List.mem_append_left _ ha
    · dsimp only
      rw [pending_of_taken hsame hexit (hphase hexit), hconn]
      refine hrest.mono fun a ha => ?_
      rcases ha with rfl | ha
      · exact Or.inr (List.mem_append_right _ (List.mem_singleton_self a))
      · exact ha.imp_right fun ha => List.mem_append_left _ ha
    · rcases ha with ha | ha
      · exact h.known a (Or.inl ha) hentry
      · rcases List.mem_append.mp ha with ha | ha
        · exact h.known a (Or.inr ha) hentry
        · obtain rfl := List.mem_singleton.mp ha
          exact List.mem_of_getElem? (hj.entry hentry)

theorem Site.Covered.take (hd : Served d info resume) (h : t.Covered d) (hc : t.Counts)
    {k : ℕ} {code : RsCode} (hs : siteTake tableFunc cmds resume num t k code = some u) : u.Covered d := by
  obtain ⟨m, ring, hring, -, hu, hsame, hconn, hcase⟩ := siteTake_cases hs
  rw [hu]
  rw [hring] at hsame
  rcases hcase with ⟨-, hr⟩ | ⟨pos, code', hpos, hr, -⟩
  · have hredis := redisStep_badMessage hr
    have hphase : u.replica.redis.phase = .exited := by rw [hredis]
    rw [if_pos hphase]
    exact
      { held := fun _ => by rw [hsame]; exact List.cons_ne_nil m ring
        entries := by rw [hredis]; exact h.entries
        pending := fun hp => absurd hphase hp
        known := h.known }
  · exact h.message hd hc hring hsame hconn hpos hr

/-- The commands appended up to a position are among those appended up to a later one. -/
theorem RedisThread.appended_mono (r : RedisThread) {i j : ℕ} (hij : i ≤ j) : r.appended i ≤ r.appended j := by
  rw [RedisThread.appended, RedisThread.appended]
  have htake : r.history.take (i + 1) = (r.history.take (j + 1)).take (i + 1) := by
    rw [List.take_take, Nat.min_eq_left (by omega)]
  rw [htake, List.map_take]
  exact (List.take_sublist _ _).sum_le_sum fun _ _ => Nat.zero_le _

theorem mem_finished {m : List UInt8} : m ∈ t.finished ↔
    m ∈ t.before ∨ ∃ i, t.taken[i]? = some m ∧ t.replica.redis.appended (i + 1) ≤ t.ran := by
  simp only [Site.finished, List.mem_append, List.mem_map, List.mem_filter, decide_eq_true_eq,
    Prod.exists, List.mem_zipIdx_iff_getElem?]
  grind

/-- Redis has run the commands of every message up to the position that was saved last. -/
theorem Site.Counts.finished (h : t.Counts) {m : List UInt8} (hm : m ∈ t.before ∨
    m ∈ t.taken.take t.replica.redis.saved) :
    m ∈ t.finished := by
  refine mem_finished.mpr (hm.imp_right fun hm => ?_)
  obtain ⟨i, hi, hget⟩ := List.mem_take_iff_getElem.mp hm
  refine ⟨i, ?_, ?_⟩
  · rw [← hget]
    exact List.getElem?_eq_getElem _
  · calc t.replica.redis.appended (i + 1)
        ≤ t.replica.redis.appended t.replica.redis.saved := t.replica.redis.appended_mono (by omega)
      _ ≤ t.replica.redis.answered := h.redis.answered
      _ ≤ t.ran := h.answered

/-- The process ends, and the next one begins at the position that was saved last. -/
theorem Site.Covered.restart (h : t.Covered d) (hc : t.Counts) {save savesec : UInt32}
    {p : List UInt8} (hp : (t.replica.redis.history[t.replica.redis.saved]?).map (·.1) = some p)
    (ps : List (List UInt8)) (left : List (List (κ × ν))) :
    Covered d (⟨Replica.init save savesec p, [], [], 0, t.store, t.finished, ps, left⟩ : Site κ ν) where
  held := nofun
  entries := fun i q hi hq => by
    obtain rfl := Nat.le_zero.mp hi
    obtain rfl : p = q := Option.some.inj hq
    obtain ⟨j, hserves, hall⟩ := h.entries _ p hc.saved_le hp
    exact ⟨j, hserves, fun m hm => Or.inl (hc.finished (hall m hm))⟩
  pending := fun _ => trivial
  known := fun m hm => by
    have hm := mem_finished.mp (hm.resolve_right List.not_mem_nil)
    refine h.known m (hm.imp_right ?_)
    rintro ⟨i, hi, -⟩
    exact List.mem_of_getElem? hi

theorem Site.init_covered (hd : Served d info resume) (s₀ : κ → Option ν) (save savesec : UInt32) :
    (Site.init s₀ save savesec info).Covered d where
  held := nofun
  entries := fun i p hi hp => by
    obtain rfl := Nat.le_zero.mp hi
    obtain rfl : info = p := Option.some.inj hp
    refine ⟨0, hd.start, fun m hm => ?_⟩
    rw [List.take_zero] at hm
    exact absurd hm List.not_mem_nil
  pending := fun _ => trivial
  known := fun m hm => by simp [Site.init] at hm

theorem Site.Covered.step [DecidableEq κ] (hd : Served d info resume) (h : t.Covered d) (hc : t.Counts)
    {a : SiteAct} (hok : t.Orderly a) (hs : siteStep tableFunc cmds resume num t a = some u) : u.Covered d := by
  cases a with
  | run a =>
    rcases siteStep_run hs with ⟨k, code, rfl, htake⟩ | ⟨ha, -, y, hy, rfl⟩
    · exact h.take hd hc htake
    · exact h.other hd hc ha hy
  | command ok =>
    obtain ⟨a, -, rfl⟩ := Option.map_eq_some_iff.mp hs
    exact ⟨h.held, h.entries, h.pending, h.known⟩
  | late i => exact hok.elim
  | restart save savesec =>
    obtain ⟨p, hp, rfl⟩ := Option.map_eq_some_iff.mp hs
    have hread : (t.replica.redis.history[t.replica.redis.saved]?).map (·.1) = some p := by
      rw [← hp, hok]
      rfl
    exact h.restart hc hread _ _

/-- The slave asks for positions only that the master serves, whether its thread has ended or not. -/
theorem Site.Covered.asks [DecidableEq κ] (h : t.Covered d) (hd : Served d info resume) (hc : t.Counts) {a : SiteAct}
    (hok : t.Orderly a) (hask : ∃ j, d.serves t.replica.redis.dumpInfo j)
    (hs : siteStep tableFunc cmds resume num t a = some u) : ∃ j, d.serves u.replica.redis.dumpInfo j := by
  cases a with
  | run a =>
    rcases siteStep_run hs with ⟨k, code, rfl, htake⟩ | ⟨ha, -, y, hy, rfl⟩
    · obtain ⟨m, ring, hring, -, -, -, -, hcase⟩ := siteTake_cases htake
      rcases hcase with ⟨-, hr⟩ | ⟨pos, code', hpos, hr, -⟩
      · rwa [redisStep_badMessage hr]
      · obtain ⟨hlive, hholds, hinfo, -⟩ := redisStep_takes hr
        have hturn := h.pending hlive
        rw [pending_of_ring hring hlive hholds] at hturn
        obtain ⟨⟨j, hj, -⟩, -⟩ := hturn
        exact ⟨_, hinfo ▸ hj.position pos (by rw [hd.position, hpos])⟩
    · rcases replicaStep_other ha hy with ⟨-, hredis⟩ | ⟨b, -, -, hq⟩
      · rwa [hredis]
      · rwa [hq.dumpInfo]
  | command ok =>
    obtain ⟨a, -, rfl⟩ := Option.map_eq_some_iff.mp hs
    exact hask
  | late i => exact hok.elim
  | restart save savesec =>
    obtain ⟨p, hp, rfl⟩ := Option.map_eq_some_iff.mp hs
    have hread : (t.replica.redis.history[t.replica.redis.saved]?).map (·.1) = some p := by
      rw [← hp, hok]
      rfl
    obtain ⟨j, hserves, -⟩ := h.entries _ p hc.saved_le hread
    exact ⟨j, hserves⟩

theorem Site.covered_of_run [DecidableEq κ] (hd : Served d info resume) (s₀ : κ → Option ν) (save savesec : UInt32)
    {as : List SiteAct} (hok : Along (siteStep tableFunc cmds resume num) Site.Orderly
        (Site.init s₀ save savesec info) as)
    (hrun : exec (siteStep tableFunc cmds resume num) (Site.init s₀ save savesec info) as = some t) :
    t.Counts ∧ t.Covered d ∧ ∃ j, d.serves t.replica.redis.dumpInfo j := by
  have hstep (t : Site κ ν) (a : SiteAct) (u : Site κ ν)
      (h : t.Counts ∧ t.Covered d ∧ ∃ j, d.serves t.replica.redis.dumpInfo j) (ha : t.Orderly a)
      (hs : siteStep tableFunc cmds resume num t a = some u) :
      u.Counts ∧ u.Covered d ∧ ∃ j, d.serves u.replica.redis.dumpInfo j :=
    ⟨h.1.step ha hs, h.2.1.step hd h.1 ha hs, h.2.1.asks hd h.1 ha h.2.2 hs⟩
  exact exec_invariant_along _ hstep
    ⟨Site.init_counts s₀ save savesec info, Site.init_covered hd s₀ save savesec, 0, hd.start⟩ hok hrun

/-- The saved position is one of the positions taken, and the one in the file unless the last write
broke off. Redis has run the commands of every entry before it, in this process or in one before. -/
structure Site.AtLeastOnce (d : Delivery (List UInt8) (List UInt8)) (t : Site κ ν) : Prop where
  saved : ∃ p j, (t.replica.redis.history[t.replica.redis.saved]?).map (·.1) = some p ∧
    (t.replica.redis.phase ≠ .exited → t.replica.redis.infoFile = p) ∧
    d.serves p j ∧ ∀ m ∈ d.log.take j, m ∈ t.finished
  known : ∀ m ∈ t.finished, d.entry m → m ∈ d.log

/-- Whatever connections are lost and wherever the process ends, no entry before the saved position
is missing in redis. -/
theorem Site.atLeastOnce_of_run [DecidableEq κ] (hd : Served d info resume) (s₀ : κ → Option ν)
    (save savesec : UInt32) {as : List SiteAct}
    (hok : Along (siteStep tableFunc cmds resume num) Site.Orderly (Site.init s₀ save savesec info) as)
    (hrun : exec (siteStep tableFunc cmds resume num) (Site.init s₀ save savesec info) as = some t) :
    t.AtLeastOnce d := by
  obtain ⟨hc, h, -⟩ := Site.covered_of_run hd s₀ save savesec hok hrun
  have hlt := hc.redis.saved_lt
  obtain ⟨p, hp⟩ : ∃ p, (t.replica.redis.history[t.replica.redis.saved]?).map (·.1) = some p :=
    ⟨_, by rw [List.getElem?_eq_getElem hlt]; rfl⟩
  obtain ⟨j, hserves, hall⟩ := h.entries _ p hc.saved_le hp
  refine ⟨⟨p, j, hp, fun hlive => ?_, hserves, fun m hm => hc.finished (hall m hm)⟩, fun m hm => ?_⟩
  · exact Option.some.inj ((hc.redis.file hlive).symm.trans hp)
  · refine h.known m ((mem_finished.mp hm).imp_right ?_)
    rintro ⟨i, hi, -⟩
    exact List.mem_of_getElem? hi

/-- When the master sends exactly the messages behind every position, none of them before the saved
position is missing in redis, whatever connections are lost and wherever the process ends. -/
theorem site_atLeastOnce [DecidableEq κ] {log : List (List UInt8)} (hlog : SafeResume log info resume)
    (s₀ : κ → Option ν) (save savesec : UInt32) {as : List SiteAct}
    (hok : Along (siteStep tableFunc cmds resume num) Site.Orderly (Site.init s₀ save savesec info) as)
    (hrun : exec (siteStep tableFunc cmds resume num) (Site.init s₀ save savesec info) as = some t) :
    (∃ p j, (t.replica.redis.phase ≠ .exited → t.replica.redis.infoFile = p) ∧ resume p = log.drop j ∧
      ∀ m ∈ log.take j, m ∈ t.finished) ∧ ∀ m ∈ t.finished, m ∈ log := by
  obtain ⟨⟨p, j, -, hfile, ⟨-, hresume⟩, hall⟩, hknown⟩ := Site.atLeastOnce_of_run hlog.served s₀ save savesec hok hrun
  exact ⟨⟨p, j, hfile, hresume, hall⟩, fun m hm => hknown m hm rfl⟩

def assignLog : List (List UInt8) := rowLog fun i => [i]

theorem safeResume_assignLog : SafeResume assignLog [98, 44, 48] (resumeIn assignLog) :=
  safeResume_resumeIn (by decide) (by decide)

def assignCmds : List UInt8 → List UInt8 → ℕ → UInt8 → List (UInt8 × UInt8) :=
  fun _ data _ _ => data.map fun b => (0, b)

/-- The second position is saved, and the third message has been run when the process ends. It is
sent and run again. -/
def restartRun : List SiteAct :=
  [.run .connect, .run .receive, .run .receive, .run (.take 1 .ok), .run (.redis (.flush 0 .done)),
    .run (.redis .advance), .run (.take 1 .ok), .run (.redis (.flush 0 .done)), .run (.redis .advance),
    .run (.redis .empty), .command true, .command true, .run (.redis (.reply true)), .run (.redis (.reply true)),
    .run (.redis .replied), .run (.redis .spun), .run (.redis (.flush 60 .done)), .run .receive,
    .run (.take 1 .ok), .command true, .restart 9 9, .run .connect, .run .receive, .run (.take 1 .ok), .command true]

theorem site_atLeastOnce_restartRun : SafeResume assignLog [98, 44, 48] (resumeIn assignLog) ∧
    ∃ t, exec (siteStep some assignCmds (resumeIn assignLog) 4) (Site.init (fun _ => none) 9 9 [98, 44, 48])
        restartRun = some t ∧
      t.replica.redis.infoFile = [98, 44, 50] ∧ t.finished = assignLog ++ assignLog.drop 2 ∧
      (∃ p j, (t.replica.redis.phase ≠ .exited → t.replica.redis.infoFile = p) ∧
        resumeIn assignLog p = assignLog.drop j ∧ ∀ m ∈ assignLog.take j, m ∈ t.finished) ∧
      ∀ m ∈ t.finished, m ∈ assignLog := by
  have hok : Along (siteStep some assignCmds (resumeIn assignLog) 4) Site.Orderly
      (Site.init (fun _ => none) 9 9 [98, 44, 48]) restartRun := by decide +kernel
  have hsome : (exec (siteStep some assignCmds (resumeIn assignLog) 4) (Site.init (fun _ => none) 9 9 [98, 44, 48])
      restartRun).map (fun t => (t.replica.redis.infoFile, t.finished)) =
      some ([98, 44, 50], assignLog ++ assignLog.drop 2) := by decide +kernel
  obtain ⟨t, ht, hval⟩ := Option.map_eq_some_iff.mp hsome
  obtain ⟨hfile, hfinished⟩ := Prod.mk.inj hval
  exact ⟨safeResume_assignLog, t, ht, hfile, hfinished, site_atLeastOnce safeResume_assignLog _ 9 9 hok ht⟩

end MySQLSyncer.Slave
