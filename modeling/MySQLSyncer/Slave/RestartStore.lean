import MySQLSyncer.Slave.Restart

/-! # What redis holds after restarts

With every connection made on a drained ring, each process takes the log on from where it began, so
redis runs the commands of the log in their order and goes back only where a process ends.
-/
namespace MySQLSyncer.Slave
open Lib MySQLSyncer.Core

variable {κ ν η : Type} {tableFunc : List UInt8 → Option η}
  {cmds : η → List UInt8 → ℕ → UInt8 → List (κ × ν)} {resume : List UInt8 → List (List UInt8)}
  {d : Delivery (List UInt8) (List UInt8)} {info : List UInt8} {num : ℕ} {t u : Site κ ν} {y : Replica}
  {s₀ : κ → Option ν}

def commandsUpTo (log : List (List UInt8)) (commands : List UInt8 → List (κ × ν)) (j : ℕ) : ℕ :=
  ((log.take j).flatMap commands).length

variable {log : List (List UInt8)} {commands : List UInt8 → List (κ × ν)} {b c far n n' : ℕ} {m : List UInt8}

theorem commandsUpTo_mono {i j : ℕ} (hij : i ≤ j) : commandsUpTo log commands i ≤ commandsUpTo log commands j := by
  have htake : log.take i = (log.take j).take i := by rw [List.take_take, Nat.min_eq_left hij]
  rw [commandsUpTo, commandsUpTo, htake]
  exact ((List.take_sublist i (log.take j)).flatMap _).length_le

/-- The commands of the log up to an entry are those of the first entries. -/
theorem take_commandsUpTo (j : ℕ) :
    (log.flatMap commands).take (commandsUpTo log commands j) = (log.take j).flatMap commands := by
  have hsplit : log.flatMap commands = (log.take j).flatMap commands ++ (log.drop j).flatMap commands := by
    rw [← List.flatMap_append, List.take_append_drop]
  rw [hsplit]
  exact List.take_left

/-- A message that is no entry of the log has no commands. -/
def EntriesOnly (d : Delivery (List UInt8) (List UInt8)) (commands : List UInt8 → List (κ × ν)) : Prop :=
  ∀ m, d.entry m = false → commands m = []

/-- A message has the commands behind those of the entries before it. -/
theorem commandsUpTo_next (hd : EntriesOnly d commands) {j : ℕ} (h : d.At j m) :
    commandsUpTo d.log commands (d.next j m) = commandsUpTo d.log commands j + (commands m).length := by
  cases hm : d.entry m with
  | false => rw [Delivery.next, hm, hd m hm]; rfl
  | true =>
    rw [Delivery.next, if_pos hm, commandsUpTo, commandsUpTo, List.take_add_one, h.entry hm,
      List.flatMap_append, List.length_append]
    simp

/-- Behind the commands of the entries before a message come its own. -/
theorem drop_commandsUpTo (hd : EntriesOnly d commands) {j : ℕ} (h : d.At j m) :
    commands m <+: (d.log.flatMap commands).drop (commandsUpTo d.log commands j) := by
  cases hm : d.entry m with
  | false =>
    rw [hd m hm]
    exact List.nil_prefix
  | true =>
    obtain ⟨hlt, hget⟩ := List.getElem?_eq_some_iff.mp (h.entry hm)
    have hsplit : d.log.flatMap commands = (d.log.take j).flatMap commands ++
        (commands m ++ (d.log.drop (j + 1)).flatMap commands) := by
      conv_lhs => rw [← List.take_append_drop j d.log, List.drop_eq_getElem_cons hlt, hget,
        List.flatMap_append, List.flatMap_cons]
    rw [hsplit, commandsUpTo, List.drop_left]
    exact List.prefix_append _ _

def Site.Reached (d : Delivery (List UInt8) (List UInt8)) (commands : List UInt8 → List (κ × ν)) (t : Site κ ν)
    (n : ℕ) : Prop :=
  ∃ p ∈ t.positions, ∃ j, d.serves p j ∧ n ≤ commandsUpTo d.log commands j

/-- The process began behind the first `b` commands of the log, and redis has run at most the first
`far` of them at any time. -/
structure Site.Aligned [DecidableEq κ] (d : Delivery (List UInt8) (List UInt8))
    (commands : List UInt8 → List (κ × ν)) (s₀ : κ → Option ν) (b far : ℕ) (t : Site κ ν) : Prop where
  held : t.replica.Held
  entries : ∀ i p, i ≤ t.taken.length → (t.replica.redis.history[i]?).map (·.1) = some p →
    ∃ j, d.serves p j ∧ b + t.replica.redis.appended i = commandsUpTo d.log commands j
  coming : t.replica.redis.phase ≠ .exited → ∃ j, d.serves t.replica.redis.dumpInfo j ∧
    b + t.queued.length = commandsUpTo d.log commands j ∧ d.Follows j t.replica.pending
  queued : t.queued <+: (d.log.flatMap commands).drop b
  store : Replayed s₀ (d.log.flatMap commands) (b + t.ran) far t.store
  reached : t.Reached d commands (b + t.queued.length)
  far : t.Reached d commands far

theorem Site.Reached.mono (h : t.Reached d commands n) (hle : n' ≤ n) : t.Reached d commands n' := by
  obtain ⟨p, hp, j, hserves, hn⟩ := h
  exact ⟨p, hp, j, hserves, hle.trans hn⟩

theorem Site.Reached.subset (h : t.Reached d commands n) (hu : t.positions ⊆ u.positions) :
    u.Reached d commands n := by
  obtain ⟨p, hp, hrest⟩ := h
  exact ⟨p, hu hp, hrest⟩

section drained
variable [DecidableEq κ]

/-- A connection that is made goes on with what comes behind the position. -/
theorem Site.Aligned.other (hd : Served d info resume) (h : t.Aligned d commands s₀ b far) {a : ReplicaAct}
    (ha : ∀ k code, a ≠ .take k code) (hok : t.replica.ConnectsDrained a)
    (hs : replicaStep tableFunc resume num t.replica a = some y) :
    Aligned d commands s₀ b far { t with replica := y } := by
  obtain ⟨hheld, hpending⟩ := h.held.other ha hs
  obtain ⟨hinfo, hhistory, hphase⟩ : y.redis.dumpInfo = t.replica.redis.dumpInfo ∧
      y.redis.history = t.replica.redis.history ∧
      (y.redis.phase ≠ .exited → t.replica.redis.phase ≠ .exited) := by
    rcases replicaStep_other ha hs with ⟨-, hredis⟩ | ⟨b, -, -, hq⟩
    · rw [hredis]
      exact ⟨rfl, rfl, id⟩
    · exact ⟨hq.dumpInfo, hq.history, hq.phase⟩
  refine
    { h with
      held := hheld
      entries := by
        intro i p hi hp
        rw [hhistory] at hp
        rw [RedisThread.appended, hhistory]
        exact h.entries i p hi hp
      coming := fun hp => ?_ }
  obtain ⟨j, hserves, hqueued, hfollows⟩ := h.coming (hphase hp)
  refine ⟨j, by rw [hinfo]; exact hserves, hqueued, ?_⟩
  rcases hpending hp with heq | heq | ⟨rfl, heq⟩ <;> dsimp only <;> rw [heq]
  · exact hfollows
  · exact (Delivery.follows_append.mp hfollows).1
  · rw [show t.replica.unread = [] from hok, List.nil_append]
    exact hd.right _ j hserves

/-- The commands of the message taken go on where those before it end. -/
theorem Site.Aligned.queued_take (hcmds : EntriesOnly d commands) (h : t.Aligned d commands s₀ b far) {j : ℕ}
    (hm : d.At j m) (hqueued : b + t.queued.length = commandsUpTo d.log commands j) (k : ℕ) :
    t.queued ++ (commands m).take k <+: (d.log.flatMap commands).drop b := by
  have hdrop := drop_commandsUpTo hcmds hm
  rw [← hqueued, ← List.drop_drop] at hdrop
  obtain ⟨rest, hrest⟩ := h.queued
  rw [← hrest, List.drop_left] at hdrop
  rw [← hrest]
  exact (List.prefix_append_right_inj _).mpr ((List.take_prefix k _).trans hdrop)

theorem Site.Aligned.message (hd : Served d info resume) (hcmds : EntriesOnly d commands)
    (h : t.Aligned d commands s₀ b far) (hc : t.Counts) {ring : List
        (List UInt8)} {pos : List UInt8} {k : ℕ} {code : RsCode}
    (hring : t.replica.ring = m :: ring) (hsame : y.ring = m :: ring) (hconn : y.conn = t.replica.conn)
    (hpos : positionOf m = some pos) (hr : redisStep t.replica.redis (.message pos k code) = some y.redis)
    (hk : k ≤ (commands m).length) (hall : code = .ok → k = (commands m).length) :
    Aligned d commands s₀ b far { t with
      replica := y
      taken := if y.redis.phase = .exited then t.taken else t.taken ++ [m]
      queued := t.queued ++ (commands m).take k
      positions := t.positions ++ [y.redis.dumpInfo] } := by
  obtain ⟨hlive, hholds, hinfo, hhistory, -, -, hexit, hphase⟩ := redisStep_takes hr
  have hlen := hc.alive hlive
  obtain ⟨j, -, hqueued, hfollows⟩ := h.coming hlive
  rw [pending_of_ring hring hlive hholds] at hfollows
  obtain ⟨hm, hrest⟩ := hfollows
  have hserves : d.serves pos (d.next j m) := hm.position pos (by rw [hd.position, hpos])
  -- all commands of a message are appended unless its handler fails
  have hnext (hp : y.redis.phase ≠ .exited) : b + (t.queued.length + k) =
      commandsUpTo d.log commands (d.next j m) := by
    rw [commandsUpTo_next hcmds hm, hall (not_not.mp fun hcode => hp (hexit.mpr hcode)), ← Nat.add_assoc, hqueued]
  refine
    { held := fun _ => by rw [hsame]; exact List.cons_ne_nil m ring
      entries := fun i p hi hp => ?_
      coming := fun hp => ⟨d.next j m, by rw [hinfo]; exact hserves, ?_, ?_⟩
      queued := h.queued_take hcmds hm hqueued k
      store := h.store
      reached := ⟨pos, ?_, d.next j m, hserves, ?_⟩
      far := h.far.subset (List.subset_append_left _ _) }
  · dsimp only at hi
    rcases history_cases hhistory hp with ⟨hlt, hold, happended⟩ | ⟨rfl, rfl, happended⟩
    · dsimp only
      rw [happended]
      exact h.entries i p (by omega) hold
    · refine ⟨_, hserves, ?_⟩
      dsimp only
      rw [happended, ← hc.queued]
      split_ifs at hi with hp
      · omega
      · exact hnext hp
  · rw [List.length_append, List.length_take_of_le hk]
    exact hnext hp
  · rw [pending_of_taken hsame hp (hphase hp), hconn]
    exact hrest
  · rw [← hinfo]
    exact List.mem_append_right _ (List.mem_singleton_self _)
  · rw [commandsUpTo_next hcmds hm, List.length_append, List.length_take_of_le hk]
    omega

theorem Site.Aligned.take (hd : Served d info resume) (hcmds : EntriesOnly d (commandsOf tableFunc cmds))
    (h : t.Aligned d (commandsOf tableFunc cmds) s₀ b far) (hc : t.Counts) {k : ℕ} {code : RsCode}
    (hs : siteTake tableFunc cmds resume num t k code = some u) :
    u.Aligned d (commandsOf tableFunc cmds) s₀ b far := by
  obtain ⟨m, ring, hring, -, hu, hsame, hconn, hcase⟩ := siteTake_cases hs
  have hpositions : t.positions ⊆ t.positions ++ [u.replica.redis.dumpInfo] := List.subset_append_left _ _
  rw [hu]
  rw [hring] at hsame
  rcases hcase with ⟨rfl, hr⟩ | ⟨pos, code', hpos, hr, hk, hall⟩
  · have hredis := redisStep_badMessage hr
    have hphase : u.replica.redis.phase = .exited := by rw [hredis]
    have hhistory : u.replica.redis.history = t.replica.redis.history := by rw [hredis]
    rw [if_pos hphase, List.take_zero, List.append_nil]
    exact
      { held := fun _ => by rw [hsame]; exact List.cons_ne_nil m ring
        entries := by
          intro i p hi hp
          rw [hhistory] at hp
          rw [RedisThread.appended, hhistory]
          exact h.entries i p hi hp
        coming := fun hp => absurd hphase hp
        queued := h.queued
        store := h.store
        reached := h.reached.subset hpositions
        far := h.far.subset hpositions }
  · exact h.message hd hcmds hc hring hsame hconn hpos hr hk hall

theorem Site.Aligned.command (h : t.Aligned d commands s₀ b far) {a : κ × ν}
    (ha : t.queued[t.ran]? = some a) : ∃ far', Aligned d commands s₀ b far'
      { t with ran := t.ran + 1, store := Function.update t.store a.1 (some a.2) } := by
  have hlt := (List.getElem?_eq_some_iff.mp ha).1
  have hlog : (d.log.flatMap commands)[b + t.ran]? = some a := by
    rw [← List.getElem?_drop]
    exact (List.prefix_iff_getElem?.mp h.queued _ hlt).trans ((List.getElem?_eq_getElem hlt).symm.trans ha)
  have hreached : t.Reached d commands (b + t.ran + 1) := h.reached.mono (by omega)
  refine ⟨_, { h with store := h.store.run hlog, far := ?_ }⟩
  rcases le_total far (b + t.ran + 1) with hle | hle
  · rw [max_eq_right hle]
    exact hreached
  · rw [max_eq_left hle]
    exact h.far

theorem Site.Aligned.restart (h : t.Aligned d commands s₀ b far) (hc : t.Counts)
    {save savesec : UInt32} {p : List UInt8}
    (hp : (t.replica.redis.history[t.replica.redis.saved]?).map (·.1) = some p) (left : List (List (κ × ν))) :
    Aligned d commands s₀ (b + t.replica.redis.appended t.replica.redis.saved) far
      (⟨Replica.init save savesec p, [], [], 0, t.store, t.finished, t.positions ++ [p], left⟩ : Site κ ν) := by
  obtain ⟨j, hserves, hcount⟩ := h.entries _ p hc.saved_le hp
  have hmem : p ∈ t.positions ++ [p] := List.mem_append_right _ (List.mem_singleton_self p)
  have hback : b + t.replica.redis.appended t.replica.redis.saved ≤ b + t.ran :=
    Nat.add_le_add_left (hc.redis.answered.trans hc.answered) _
  exact
    { held := nofun
      entries := fun i q hi hq => by
        obtain rfl := Nat.le_zero.mp hi
        obtain rfl : p = q := Option.some.inj hq
        exact ⟨j, hserves, hcount⟩
      coming := fun _ => ⟨j, hserves, hcount, trivial⟩
      queued := List.nil_prefix
      store := h.store.back hback
      reached := ⟨p, hmem, j, hserves, hcount.le⟩
      far := h.far.subset (List.subset_append_left _ _) }

theorem Site.init_aligned (hd : Served d info resume) (s₀ : κ → Option ν) (save savesec : UInt32) :
    (Site.init s₀ save savesec info).Aligned d commands s₀ 0 0 where
  held := nofun
  entries := fun i p hi hp => by
    obtain rfl := Nat.le_zero.mp hi
    obtain rfl : info = p := Option.some.inj hp
    exact ⟨0, hd.start, rfl⟩
  coming := fun _ => ⟨0, hd.start, rfl, trivial⟩
  queued := List.nil_prefix
  store := Replayed.start s₀ _
  reached := ⟨info, List.mem_singleton_self info, 0, hd.start, le_rfl⟩
  far := ⟨info, List.mem_singleton_self info, 0, hd.start, le_rfl⟩

theorem Site.Aligned.step (hd : Served d info resume) (hcmds : EntriesOnly d (commandsOf tableFunc cmds))
    (h : t.Aligned d (commandsOf tableFunc cmds) s₀ b far) (hc : t.Counts) {a : SiteAct}
    (hok : t.OrderlyDrained a) (hs : siteStep tableFunc cmds resume num t a = some u) :
    ∃ b' far', u.Aligned d (commandsOf tableFunc cmds) s₀ b' far' := by
  cases a with
  | run a =>
    rcases siteStep_run hs with ⟨k, code, rfl, htake⟩ | ⟨ha, -, y, hy, rfl⟩
    · exact ⟨b, far, h.take hd hcmds hc htake⟩
    · exact ⟨b, far, h.other hd ha (hok.2 a rfl) hy⟩
  | command ok =>
    obtain ⟨a, ha, rfl⟩ := Option.map_eq_some_iff.mp hs
    have hrun : ok = true := hok.1
    rw [if_pos hrun]
    exact ⟨b, h.command ha⟩
  | late i => exact hok.1.elim
  | restart save savesec =>
    obtain ⟨p, hp, rfl⟩ := Option.map_eq_some_iff.mp hs
    have hread : (t.replica.redis.history[t.replica.redis.saved]?).map (·.1) = some p := by
      rw [← hp, hok.1]
      rfl
    exact ⟨_, far, h.restart hc hread _⟩

/-- When redis has run all that the process appended, and the position is not before one that any
process had, the data in redis is what the log up to the position gives, however often a process
ended and messages were run again. -/
theorem Site.store_of_run (hd : Served d info resume) (hcmds : EntriesOnly d (commandsOf tableFunc cmds))
    (s₀ : κ → Option ν) (save savesec : UInt32) {as : List SiteAct}
    (hok : Along (siteStep tableFunc cmds resume num) Site.OrderlyDrained (Site.init s₀ save savesec info) as)
    (hrun : exec (siteStep tableFunc cmds resume num) (Site.init s₀ save savesec info) as = some t)
    (hlive : t.replica.redis.phase ≠ .exited) (hran : t.ran = t.queued.length)
    (hfar : ∀ p ∈ t.positions, ∀ i j, d.serves p i → d.serves t.replica.redis.dumpInfo j → i ≤ j) :
    ∃ j, d.serves t.replica.redis.dumpInfo j ∧
      t.store = assignAll s₀ ((d.log.take j).flatMap (commandsOf tableFunc cmds)) := by
  have hstep (t : Site κ ν) (a : SiteAct) (u : Site κ ν)
      (h : t.Counts ∧ ∃ b far, t.Aligned d (commandsOf tableFunc cmds) s₀ b far)
      (ha : t.OrderlyDrained a) (hs : siteStep tableFunc cmds resume num t a = some u) :
      u.Counts ∧ ∃ b far, u.Aligned d (commandsOf tableFunc cmds) s₀ b far := by
    obtain ⟨hc, b, far, h⟩ := h
    exact ⟨hc.step ha.1 hs, h.step hd hcmds hc ha hs⟩
  obtain ⟨hc, b, far, h⟩ := exec_invariant_along _ hstep
    ⟨Site.init_counts s₀ save savesec info, 0, 0, Site.init_aligned hd s₀ save savesec⟩ hok hrun
  obtain ⟨j, hserves, hqueued, -⟩ := h.coming hlive
  refine ⟨j, hserves, ?_⟩
  rw [← hran] at hqueued
  have hfar' : far ≤ b + t.ran := by
    obtain ⟨p, hp, i, hi, hn⟩ := h.far
    rw [hqueued]
    exact hn.trans (commandsUpTo_mono (hfar p hp i j hi hserves))
  have hstore := h.store.eq hfar'
  rwa [hqueued, take_commandsUpTo] at hstore

/-- When redis has run all that the process appended, and the master has nothing more to send, the
data in redis is what the log gives, however often the process ended and messages were run again. -/
theorem site_store_eq (hlog : SafeResume log info resume) (s₀ : κ → Option ν) (save savesec : UInt32)
    {as : List SiteAct}
    (hok : Along (siteStep tableFunc cmds resume num) Site.OrderlyDrained (Site.init s₀ save savesec info) as)
    (hrun : exec (siteStep tableFunc cmds resume num) (Site.init s₀ save savesec info) as = some t)
    (hlive : t.replica.redis.phase ≠ .exited) (hran : t.ran = t.queued.length)
    (hrest : resume t.replica.redis.dumpInfo = []) :
    t.store = assignAll s₀ (log.flatMap (commandsOf tableFunc cmds)) := by
  have hlast {i : ℕ} (hi : (exactDelivery log resume).serves t.replica.redis.dumpInfo i) : i = log.length := by
    have hnil : log.drop i = [] := hi.2.symm.trans hrest
    exact le_antisymm hi.1 (List.drop_eq_nil_iff.mp hnil)
  obtain ⟨j, hserves, hstore⟩ := Site.store_of_run hlog.served nofun s₀ save savesec hok hrun hlive hran
    fun p _ i j hi hj => hlast hj ▸ hi.1
  have htake : (exactDelivery log resume).log.take log.length = log := List.take_length
  rw [hstore, hlast hserves, htake]

end drained

theorem site_store_eq_restartRun : SafeResume assignLog [98, 44, 48] (resumeIn assignLog) ∧
    ∃ t, exec (siteStep some assignCmds (resumeIn assignLog) 4) (Site.init (fun _ => none) 9 9 [98, 44, 48])
        restartRun = some t ∧
      t.store = assignAll (fun _ => none) (assignLog.flatMap (commandsOf some assignCmds)) := by
  have hok : Along (siteStep some assignCmds (resumeIn assignLog) 4) Site.OrderlyDrained
      (Site.init (fun _ => none) 9 9 [98, 44, 48]) restartRun := by decide +kernel
  have hsome : (exec (siteStep some assignCmds (resumeIn assignLog) 4) (Site.init (fun _ => none) 9 9 [98, 44, 48])
      restartRun).map (fun t => (t.replica.redis.phase, t.ran, t.queued, t.replica.redis.dumpInfo)) =
      some (.flushing 1, 1, [(0, 51)], [98, 44, 51]) := by decide +kernel
  obtain ⟨t, ht, hval⟩ := Option.map_eq_some_iff.mp hsome
  obtain ⟨hphase, hran, hqueued, hinfo⟩ : t.replica.redis.phase = .flushing 1 ∧ t.ran = 1 ∧
      t.queued = [(0, 51)] ∧ t.replica.redis.dumpInfo = [98, 44, 51] := by
    simpa only [Prod.mk.injEq] using hval
  exact ⟨safeResume_assignLog, t, ht, site_store_eq safeResume_assignLog (fun _ => none) 9 9 hok ht
    (by rw [hphase]; nofun) (by rw [hran, hqueued]; rfl) (by rw [hinfo]; decide)⟩

end MySQLSyncer.Slave
