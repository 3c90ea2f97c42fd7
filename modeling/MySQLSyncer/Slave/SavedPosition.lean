import MySQLSyncer.Slave.RedisThread

/-! # The saved position and the answered commands

The replies read and the pending commands together make up every command appended, so a
flush with nothing pending saves a position whose commands are all answered.
-/
namespace MySQLSyncer.Slave
open Lib MySQLSyncer.Core

structure RedisThread.Inv (t : RedisThread) : Prop extends t.NotAhead where
  count : t.answered + t.cmdn.toNat = (t.history.map (·.2)).sum
  saved_lt : t.saved < t.history.length
  info : (t.history[t.history.length - 1]?).map (·.1) = some t.dumpInfo
  drained : t.phase = .spinning ∨ t.phase = .idle → t.cmdn = 0
  flushing : ∀ p, t.phase = .flushing p → p = 0 ∨ rsRedisCmdCommitNum ≤ p → t.cmdn = 0

variable {t u : RedisThread}

theorem RedisThread.init_inv (save savesec : UInt32) (info : List UInt8) :
    (RedisThread.init save savesec info).Inv where
  answered := le_rfl
  file := fun _ => rfl
  count := rfl
  saved_lt := Nat.one_pos
  info := rfl
  drained := fun _ => rfl
  flushing := fun _ h => nomatch h

theorem RedisThread.appended_last (t : RedisThread) :
    t.appended (t.history.length - 1) = (t.history.map (·.2)).sum := by
  rw [RedisThread.appended, List.take_of_length_le (by omega)]

theorem RedisThread.Inv.move (h : t.Inv) {p : RedisPhase} (hp : t.phase ≠ .exited)
    (hdrained : p = .spinning ∨ p = .idle → t.cmdn = 0)
    (hflushing : ∀ q, p = .flushing q → q = 0 ∨ rsRedisCmdCommitNum ≤ q → t.cmdn = 0) :
    ({ t with phase := p } : RedisThread).Inv :=
  { h with file := fun _ => h.file hp, drained := hdrained, flushing := hflushing }

theorem RedisThread.Inv.exit (h : t.Inv) : ({ t with phase := .exited } : RedisThread).Inv :=
  { h with
    file := fun hne => absurd rfl hne
    drained := fun hp => by rcases hp with hp | hp <;> exact nomatch hp
    flushing := fun _ hp => nomatch hp }

theorem RedisThread.Inv.takeReply (h : t.Inv) {ok : Bool} (hs : takeReply t ok = some u)
    (hphase : t.phase = .draining ∨ ∃ p, t.phase = .committing p) : u.Inv := by
  unfold Slave.takeReply at hs
  split_ifs at hs with hzero hok
  · obtain rfl := Option.some.inj hs
    have hpos : (1 : UInt32) ≤ t.cmdn := by
      rw [UInt32.le_iff_toNat_le]
      have : t.cmdn.toNat ≠ 0 := fun h0 => hzero (UInt32.toNat_inj.mp h0)
      exact Nat.one_le_iff_ne_zero.mpr this
    have hsub := UInt32.toNat_sub_of_le _ _ hpos
    have hle := UInt32.le_iff_toNat_le.mp hpos
    have hcount := h.count
    refine { h with answered := h.answered.trans (Nat.le_succ _), count := ?_, drained := ?_,
                    flushing := ?_ }
    · change t.answered + 1 + (t.cmdn - 1).toNat = _
      rw [hsub, ← hcount]
      change 1 ≤ t.cmdn.toNat at hle
      change _ + (t.cmdn.toNat - 1) = _
      omega
    · intro hp
      change t.phase = _ ∨ t.phase = _ at hp
      rcases hphase with h0 | ⟨p, h0⟩ <;> rw [h0] at hp <;> rcases hp with hp | hp <;> exact nomatch hp
    · intro q hp
      change t.phase = _ at hp
      rcases hphase with h0 | ⟨p, h0⟩ <;> rw [h0] at hp <;> exact nomatch hp
  · obtain rfl := Option.some.inj hs
    exact h.exit

theorem RedisThread.Inv.message (h : t.Inv) {pos : List UInt8} {k : ℕ} {code : RsCode}
    (hp : t.phase ≠ .exited) (hk : t.cmdn.toNat + k < 2 ^ 32) : (takeMessage t pos k code).Inv := by
  have hadd : (t.cmdn + UInt32.ofNat k).toNat = t.cmdn.toNat + k := by
    rw [UInt32.toNat_add, UInt32.toNat_ofNat']
    omega
  have hlen : (t.history ++ [(pos, k)]).length = t.history.length + 1 := List.length_append
  have hsaved := h.saved_lt
  have hcount := h.count
  refine { answered := ?_, file := fun _ => ?_, count := ?_, saved_lt := ?_, info := ?_,
           drained := ?_, flushing := ?_ }
  · change (((t.history ++ [(pos, k)]).take (t.saved + 1)).map _).sum ≤ t.answered
    rw [List.take_append_of_le_length hsaved]
    exact h.answered
  · change ((t.history ++ [(pos, k)])[t.saved]?).map _ = some t.infoFile
    rw [List.getElem?_append_left hsaved]
    exact h.file hp
  · change t.answered + (t.cmdn + UInt32.ofNat k).toNat = ((t.history ++ [(pos, k)]).map _).sum
    rw [hadd, List.map_append, List.sum_append, ← hcount, Nat.add_assoc]
    rfl
  · change t.saved < (t.history ++ [(pos, k)]).length
    omega
  · change ((t.history ++ [(pos, k)])[(t.history ++ [(pos, k)]).length - 1]?).map _ = some pos
    rw [hlen, Nat.add_sub_cancel, List.getElem?_concat_length]
    rfl
  · intro hphase
    unfold takeMessage at hphase
    dsimp only at hphase
    split_ifs at hphase <;> simp at hphase
  · intro q hphase hq
    unfold takeMessage at hphase
    dsimp only at hphase
    split_ifs at hphase with hcode hge
    have heq : t.cmdn + UInt32.ofNat k = q := by simpa using hphase
    exact heq.trans (hq.resolve_right (heq ▸ hge))

theorem RedisThread.Inv.save (h : t.Inv) (hzero : t.cmdn = 0) :
    t.appended (t.history.length - 1) ≤ t.answered := by
  have hcount := h.count
  rw [hzero] at hcount
  rw [t.appended_last, ← hcount]
  exact le_rfl

/-- A flush does nothing, fails, or saves the last position taken. -/
theorem rsFlushSlaveInfo_cases (t : RedisThread) (clock : UInt64) (o : FlushOutcome) :
    (t.NotDue clock ∧ rsFlushSlaveInfo t clock o = (.ok, t)) ∨
    (¬ t.NotDue clock ∧ rsFlushSlaveInfo t clock o = (.ok, { t with
      curBinlogSave := 1, curBinlogSavesec := clock, infoFile := t.dumpInfo,
      saved := t.history.length - 1 })) ∨
    ∃ save savesec file last, rsFlushSlaveInfo t clock o = (.err, { t with
      curBinlogSave := save, curBinlogSavesec := savesec, infoFile := file, saved := last }) ∧
      (last = t.saved ∨ (¬ t.NotDue clock ∧ last = t.history.length - 1)) := by
  by_cases hclock : o = .noClock
  · exact Or.inr (Or.inr ⟨_, _, _, _, if_pos hclock, Or.inl rfl⟩)
  unfold rsFlushSlaveInfo
  rw [if_neg hclock]
  by_cases hdue : t.NotDue clock
  · exact Or.inl ⟨hdue, if_pos hdue⟩
  rw [if_neg hdue]
  cases o with
  | noClock => exact absurd rfl hclock
  | noSeek => exact Or.inr (Or.inr ⟨_, _, _, _, rfl, Or.inl rfl⟩)
  | shortWrite n => exact Or.inr (Or.inr ⟨_, _, _, _, rfl, Or.inl rfl⟩)
  | noTruncate => exact Or.inr (Or.inr ⟨_, _, _, _, rfl, Or.inr ⟨hdue, rfl⟩⟩)
  | done => exact Or.inr (Or.inl ⟨hdue, rfl⟩)

theorem RedisThread.Inv.flush (h : t.Inv) {clock : UInt64} {o : FlushOutcome} {p : RedisPhase}
    (hp : t.phase ≠ .exited) (hdue : t.NotDue clock ∨ t.cmdn = 0)
    (hnext : p = .top ∨ p = .advancing) {code : RsCode}
    (hs : rsFlushSlaveInfo t clock o = (code, u)) :
    ({ u with phase := if code = .ok then p else .exited } : RedisThread).Inv := by
  have hdrained : p = .spinning ∨ p = .idle → t.cmdn = 0 := by
    rcases hnext with rfl | rfl <;> simp
  have hflushing : ∀ q, p = .flushing q → q = 0 ∨ rsRedisCmdCommitNum ≤ q → t.cmdn = 0 := by
    rcases hnext with rfl | rfl <;> simp
  have hlast : t.history.length - 1 < t.history.length := by
    have := h.saved_lt
    omega
  rcases rsFlushSlaveInfo_cases t clock o with
    ⟨-, heq⟩ | ⟨hnot, heq⟩ | ⟨save, savesec, file, last, heq, hsaved⟩ <;>
    obtain ⟨rfl, rfl⟩ := Prod.mk.inj (heq.symm.trans hs)
  · exact h.move hp hdrained hflushing
  · exact { h with
      answered := h.save (hdue.resolve_left hnot), file := fun _ => h.info, saved_lt := hlast
      drained := hdrained, flushing := hflushing }
  · refine { h with answered := ?_, file := fun hne => absurd rfl hne, saved_lt := ?_,
                    drained := fun hp => ?_, flushing := fun _ hp => nomatch hp }
    · rcases hsaved with rfl | ⟨hnot, rfl⟩
      · exact h.answered
      · exact h.save (hdue.resolve_left hnot)
    · rcases hsaved with rfl | ⟨-, rfl⟩
      · exact h.saved_lt
      · exact hlast
    · rcases hp with hp | hp <;> exact nomatch hp

theorem RedisThread.Inv.step (h : t.Inv) (a : RedisAct) (hok : t.FlushesAnswered a)
    (hs : redisStep t a = some u) : u.Inv := by
  cases a with
  | empty =>
    obtain ⟨hp, rfl⟩ := redisStep_empty hs
    exact h.move (by simp [hp]) (by simp) (by simp)
  | reply ok =>
    obtain ⟨hp, hs⟩ := redisStep_reply hs
    exact h.takeReply hs hp
  | replied =>
    obtain ⟨hzero, ⟨hp, rfl⟩ | ⟨q, hp, rfl⟩⟩ := redisStep_replied hs
    · exact h.move (by simp [hp]) (fun _ => hzero) (by simp)
    · exact h.move (by simp [hp]) (by simp) (fun _ _ _ => hzero)
  | spun =>
    obtain ⟨hp, rfl⟩ := redisStep_spun hs
    exact h.move (by simp [hp]) (fun _ => h.drained (Or.inl hp)) (by simp)
  | message pos k code =>
    obtain ⟨hp, rfl⟩ := redisStep_message hs
    exact h.message (by rcases hp with hp | hp <;> simp [hp]) hok
  | badMessage =>
    obtain rfl := redisStep_badMessage hs
    exact { h.exit with }
  | flush clock o =>
    obtain ⟨p, ⟨hp, rfl⟩ | ⟨q, hp, rfl⟩, rfl⟩ := redisStep_flush hs
    · exact h.flush (by simp [hp]) (Or.inr (h.drained (Or.inr hp))) (Or.inl rfl) rfl
    · unfold RedisThread.FlushesAnswered at hok
      rw [hp] at hok
      exact h.flush (by simp [hp]) (hok.imp_right (h.flushing _ hp)) (Or.inr rfl) rfl
  | advance =>
    obtain ⟨hp, rfl⟩ := redisStep_advance hs
    exact h.move (by simp [hp]) (by simp) (by simp)

/-- As long as no position is saved with commands pending, the file is never ahead of redis,
whatever the settings, the clock and the order of messages and empty polls. -/
theorem redis_notAhead_of_flushesAnswered (save savesec : UInt32) (info : List UInt8)
    (as : List RedisAct)
    (hok : Along redisStep RedisThread.FlushesAnswered (RedisThread.init save savesec info) as)
    (hrun : exec redisStep (RedisThread.init save savesec info) as = some t) : t.NotAhead :=
  (exec_invariant_along _ (fun _ a _ h hok hs => h.step a hok hs)
    (RedisThread.init_inv save savesec info) hok hrun).toNotAhead

/-- One message with a command, saved after its reply was read on an empty ring. -/
def answeredRun : List RedisAct :=
  [.message [47, 44, 52] 1 .ok, .flush 0 .done, .advance, .empty, .reply true, .replied, .spun,
    .flush 60 .done]

theorem redis_notAhead_of_answeredRun :
    Along redisStep RedisThread.FlushesAnswered (RedisThread.init 900 60 [47]) answeredRun ∧
      ∃ t, exec redisStep (RedisThread.init 900 60 [47]) answeredRun = some t ∧
        t.infoFile = [47, 44, 52] ∧ t.NotAhead :=
  ⟨by decide, _, rfl, rfl, redis_notAhead_of_flushesAnswered 900 60 [47] answeredRun (by decide) rfl⟩

/-- With `binlog.save` 1 the first message's position is saved before its command is
answered. -/
theorem redis_saves_unanswered : ¬ ∀ (save savesec : UInt32) (info : List UInt8)
    (as : List RedisAct) (t : RedisThread),
    exec redisStep (RedisThread.init save savesec info) as = some t → t.NotAhead := by
  intro h
  have hahead := h 1 60 [47] [.message [47, 44, 52] 1 .ok, .flush 0 .done] _ rfl
  exact absurd hahead.answered (by decide)

end MySQLSyncer.Slave
