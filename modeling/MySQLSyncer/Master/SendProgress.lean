import MySQLSyncer.Master.DumpThread
import MySQLSyncer.Master.Message

/-! # How a message leaves the ring

The sending thread as long as its writes and its waits come to a good end, and what the
receiver says to the length of a message.
-/
namespace MySQLSyncer.Master
open Lib MySQLSyncer.Core

def dumpNext (d : DumpThread) (a : DumpAct) : Option DumpThread := (dumpStep d a).map Prod.fst

def DumpAct.Progresses : DumpAct → Prop
  | .writeFails => False
  | .select timedout => timedout = true
  | _ => True

def DumpAct.own : DumpAct → Bool
  | .put _ => false
  | _ => true

def DumpThread.Runs (d : DumpThread) : Prop := d.phase ≠ .exited ∧ d.phase ≠ .undefined

/-- After a number of steps that is bounded the thread has copied the message and advanced the
ring. Until then it can always go on. -/
def DumpThread.Copies (d : DumpThread) (m : List UInt8) : Prop :=
  ∃ k, ∀ as t, (∀ a ∈ as, a.Progresses) → exec dumpNext d as = some t →
    d.taken ++ [m] <+: t.taken ∨
      as.countP DumpAct.own ≤ k ∧ t.Runs ∧ ∃ a, a.Progresses ∧ a.own = true ∧ (dumpNext t a).isSome

/-- Neither of the two calls of `rs_recv_tmpbuf` for a message fails, unless a read does. -/
def Accepts (recvSize : UInt32) (m : List UInt8) : Prop :=
  ∀ b : RsBuf, b.size = recvSize.toNat → ∀ n, n = 4 ∨ n = m.length →
    (∀ data c, rsRecvTmpbuf b n ≠ .ret .err data c) ∧
      ∀ copied s chunk data c, chunk ≠ [] → rsRecvTmpbufRead copied s b chunk ≠ some (.ret .err data c)

/-- The message leaves the ring of the master, whatever was sent before it, and the slave takes it. -/
structure NoStall (sendSize recvSize : UInt32) (m : List UInt8) : Prop where
  copies : ∀ as d rest, exec dumpNext (.init sendSize) as = some d → d.Runs → d.ring = m :: rest → d.Copies m
  accepts : Accepts recvSize m

structure DumpThread.Held (size : ℕ) (d : DumpThread) : Prop where
  size_eq : d.sendBuf.size = size
  inside : d.phase ≠ .undefined → d.sendBuf.pos + d.sendBuf.bytes.length ≤ size
  pos_nil : d.sendBuf.bytes = [] → d.sendBuf.pos = 0
  sending : ∀ empty, d.phase = .send empty → d.sendBuf.bytes ≠ []

/-- The frame fits in the empty buffer and its length in an `int`. -/
def Sendable (size : ℕ) (m : List UInt8) : Prop := 4 + m.length ≤ size ∧ 4 + m.length < 2 ^ 31

instance (size : ℕ) (m : List UInt8) : Decidable (Sendable size m) := inferInstanceAs (Decidable (_ ∧ _))

variable {d e t : DumpThread} {a : DumpAct} {m : List UInt8} {rest : List (List UInt8)} {size : ℕ}

theorem dumpNext_eq_some (h : dumpNext d a = some e) : ∃ sent, dumpStep d a = some (e, sent) := by
  obtain ⟨⟨e', sent⟩, hstep, rfl⟩ := Option.map_eq_some_iff.mp h
  exact ⟨sent, hstep⟩

theorem dumpNext_taken (h : dumpNext d a = some e) : d.taken <+: e.taken := by
  obtain ⟨sent, hstep⟩ := dumpNext_eq_some h
  obtain ⟨new, htaken, -⟩ := (dumpStep_moves hstep).bytes
  exact ⟨new, htaken.symm⟩

theorem length_frame (m : List UInt8) : (frame m).length = 4 + m.length := by
  rw [frame, List.length_append, length_leBytes]

/-- The three ways in which the head of the ring is dealt with. -/
theorem bufferMessage_cases (h : d.Held size) (hsize : size < 2 ^ 32) (hd : d.phase ≠ .undefined)
    (m : List UInt8) (rest : List (List UInt8)) :
    (d.sendBuf.pos + d.sendBuf.bytes.length + (4 + m.length) ≤ size ∧ 4 + m.length < 2 ^ 31 ∧
      bufferMessage d m rest = { sendBuf := { d.sendBuf with bytes := d.sendBuf.bytes ++ frame m }
                                 ring := rest, phase := .poll, taken := d.taken ++ [m] }) ∨
    (¬ Sendable size m ∧ bufferMessage d m rest = { d with phase := .undefined }) ∨
    (size < d.sendBuf.pos + d.sendBuf.bytes.length + (4 + m.length) ∧
      bufferMessage d m rest = rsSendTmpbuf d false) := by
  have hin := h.inside hd
  have heq := h.size_eq
  unfold Sendable
  simp only [bufferMessage]
  by_cases hlow : 4 + m.length < 2 ^ 31
  · have hlen := toInt32_of_lt hlow
    by_cases hroom : d.sendBuf.pos + d.sendBuf.bytes.length + (4 + m.length) ≤ size
    · left
      rw [if_pos (by omega), if_neg (by omega)]
      exact ⟨hroom, hlow, rfl⟩
    · right; right
      rw [if_neg (by omega)]
      exact ⟨by omega, rfl⟩
  · by_cases hroom : toInt32 (4 + m.length) ≤
        (d.sendBuf.size : ℤ) - (d.sendBuf.pos + d.sendBuf.bytes.length)
    · right; left
      rw [if_pos hroom, if_pos]
      · exact ⟨by omega, rfl⟩
      · by_cases hhigh : 4 + m.length < 2 ^ 32
        · exact Or.inl (toInt32_neg (by omega) hhigh)
        · exact Or.inr (by omega)
    · right; right
      rw [if_neg hroom]
      refine ⟨?_, rfl⟩
      by_contra hfit
      have hneg := toInt32_neg (n := 4 + m.length) (by omega) (by omega)
      omega

theorem rsSendTmpbuf_held (h : d.Held size) (hd : d.phase ≠ .undefined) (empty : Bool) :
    (rsSendTmpbuf d empty).Held size where
  size_eq := h.size_eq
  inside := fun _ => h.inside hd
  pos_nil := h.pos_nil
  sending := by
    intro b hb hnil
    change d.sendBuf.bytes = [] at hnil
    rw [rsSendTmpbuf, if_pos hnil] at hb
    cases empty <;> cases hb

theorem bufferMessage_held (h : d.Held size) (hsize : size < 2 ^ 32) (hd : d.phase ≠ .undefined) :
    (bufferMessage d m rest).Held size := by
  rcases bufferMessage_cases h hsize hd m rest with ⟨hroom, -, heq⟩ | ⟨-, heq⟩ | ⟨-, heq⟩ <;> rw [heq]
  · have hlen := length_frame m
    exact
      { size_eq := h.size_eq
        inside := by
          intro _
          change d.sendBuf.pos + (d.sendBuf.bytes ++ frame m).length ≤ size
          rw [List.length_append]
          omega
        pos_nil := by
          intro hnil
          obtain ⟨-, hframe⟩ := List.append_eq_nil_iff.mp hnil
          rw [hframe] at hlen
          simp at hlen
          omega
        sending := by simp }
  · exact ⟨h.size_eq, fun hne => absurd rfl hne, h.pos_nil, by simp⟩
  · exact rsSendTmpbuf_held h hd false

theorem DumpThread.Held.step (h : d.Held size) (hsize : size < 2 ^ 32) (hs : dumpNext d a = some e) :
    e.Held size := by
  obtain ⟨sent, hs⟩ := dumpNext_eq_some hs
  cases a with
  | put m =>
    obtain ⟨rfl, -⟩ := Prod.mk.inj (Option.some.inj hs)
    exact ⟨h.size_eq, h.inside, h.pos_nil, h.sending⟩
  | get =>
    rw [dumpStep] at hs
    split at hs
    · rename_i hp _
      obtain ⟨rfl, -⟩ := Prod.mk.inj (Option.some.inj hs)
      exact rsSendTmpbuf_held h (by simp [hp]) true
    · rename_i hp _
      obtain ⟨rfl, -⟩ := Prod.mk.inj (Option.some.inj hs)
      exact ⟨h.size_eq, fun _ => h.inside (by simp [hp]), h.pos_nil, by simp⟩
    · rename_i hp _
      obtain ⟨rfl, -⟩ := Prod.mk.inj (Option.some.inj hs)
      exact bufferMessage_held h hsize (by simp [hp])
    · rename_i hp _
      obtain ⟨rfl, -⟩ := Prod.mk.inj (Option.some.inj hs)
      exact bufferMessage_held h hsize (by simp [hp])
    · cases hs
  | write n =>
    rw [dumpStep] at hs
    split at hs
    · rename_i empty hp
      have hin := h.inside (by simp [hp])
      split_ifs at hs with hsome hall
      · obtain ⟨rfl, -⟩ := Prod.mk.inj (Option.some.inj hs)
        have hdrop : (d.sendBuf.bytes.drop n).length = d.sendBuf.bytes.length - n := List.length_drop
        have hne : d.sendBuf.bytes.drop n ≠ [] := by
          intro hnil
          rw [hnil, List.length_nil] at hdrop
          omega
        refine ⟨h.size_eq, fun _ => ?_, fun hnil => absurd hnil hne, fun _ _ => hne⟩
        change d.sendBuf.pos + n + (d.sendBuf.bytes.drop n).length ≤ size
        omega
      · obtain ⟨rfl, -⟩ := Prod.mk.inj (Option.some.inj hs)
        refine ⟨h.size_eq, fun _ => Nat.zero_le _, fun _ => rfl, fun b hb => ?_⟩
        cases empty <;> cases hb
    · cases hs
  | writeFails =>
    rw [dumpStep] at hs
    split at hs
    · rename_i hp
      obtain ⟨rfl, -⟩ := Prod.mk.inj (Option.some.inj hs)
      exact ⟨h.size_eq, fun _ => h.inside (by simp [hp]), h.pos_nil, by simp⟩
    · cases hs
  | select timedout =>
    rw [dumpStep] at hs
    obtain ⟨hp, hs⟩ := Option.ite_none_right_eq_some.mp hs
    obtain ⟨rfl, -⟩ := Prod.mk.inj (Option.some.inj hs)
    exact ⟨h.size_eq, fun _ => h.inside (by simp [hp]), h.pos_nil, by cases timedout <;> simp⟩

theorem DumpThread.init_held (size : UInt32) : (init size).Held size.toNat :=
  ⟨rfl, fun _ => Nat.zero_le _, fun _ => rfl, by simp [init]⟩

theorem exec_held {sendSize : UInt32} {as : List DumpAct}
    (hrun : exec dumpNext (.init sendSize) as = some d) : d.Held sendSize.toNat :=
  exec_invariant (fun _ _ _ h hs => h.step sendSize.toNat_lt hs) (DumpThread.init_held sendSize) hrun

def DumpThread.rank (d : DumpThread) : ℕ :=
  let attempt := if d.sendBuf.bytes = [] then 1 else d.sendBuf.bytes.length + 2
  match d.phase with
  | .poll | .spin => attempt
  | .send _ => d.sendBuf.bytes.length + 1
  | .select => attempt + 1
  | .exited | .undefined => 0

structure DumpThread.Pending (size : ℕ) (m : List UInt8) (taken : List (List UInt8)) (d : DumpThread) :
    Prop where
  held : d.Held size
  runs : d.Runs
  head : ∃ rest, d.ring = m :: rest
  taken_eq : d.taken = taken

/-- A look at the ring copies its head or finds the buffer not empty. -/
theorem bufferMessage_pending {taken : List (List UInt8)} (h : d.Pending size m taken)
    (hsize : size < 2 ^ 32) (hm : Sendable size m) (hring : d.ring = m :: rest)
    (hp : d.phase = .poll ∨ d.phase = .spin) :
    (bufferMessage d m rest).taken = taken ++ [m] ∨
      (bufferMessage d m rest).Pending size m taken ∧ (bufferMessage d m rest).rank + 1 ≤ d.rank := by
  rcases bufferMessage_cases h.held hsize h.runs.2 m rest with ⟨-, -, heq⟩ | ⟨hnot, -⟩ | ⟨hroom, heq⟩
  · left
    rw [heq, ← h.taken_eq]
  · exact absurd hm hnot
  · right
    have hpos := h.held.pos_nil
    have hne : d.sendBuf.bytes ≠ [] := by
      intro hnil
      rw [hpos hnil, hnil, List.length_nil] at hroom
      have := hm.1
      omega
    have hphase : (rsSendTmpbuf d false).phase = .send false := by
      rw [rsSendTmpbuf, if_neg hne]
    have hrank : d.rank = d.sendBuf.bytes.length + 2 := by
      rcases hp with hp | hp <;> simp [DumpThread.rank, hp, hne]
    rw [heq]
    refine ⟨⟨rsSendTmpbuf_held h.held h.runs.2 false, ?_, ⟨rest, hring⟩, h.taken_eq⟩, ?_⟩
    · rw [DumpThread.Runs, hphase]
      simp
    · have hsend : (rsSendTmpbuf d false).rank = d.sendBuf.bytes.length + 1 := by
        rw [DumpThread.rank, hphase]
        rfl
      omega

theorem DumpThread.Pending.step {taken : List (List UInt8)} (h : d.Pending size m taken)
    (hsize : size < 2 ^ 32) (hm : Sendable size m) (ha : a.Progresses) (hs : dumpNext d a = some e) :
    taken ++ [m] <+: e.taken ∨ e.Pending size m taken ∧ e.rank + (if a.own then 1 else 0) ≤ d.rank := by
  have hheld := h.held.step hsize hs
  obtain ⟨rest, hring⟩ := h.head
  obtain ⟨sent, hs⟩ := dumpNext_eq_some hs
  cases a with
  | put m' =>
    obtain ⟨rfl, -⟩ := Prod.mk.inj (Option.some.inj hs)
    exact Or.inr ⟨⟨hheld, h.runs, ⟨rest ++ [m'], by rw [hring]; rfl⟩, h.taken_eq⟩, Nat.le_refl _⟩
  | get =>
    have hget (hp : d.phase = .poll ∨ d.phase = .spin) (he : bufferMessage d m rest = e) :
        taken ++ [m] <+: e.taken ∨ e.Pending size m taken ∧ e.rank + 1 ≤ d.rank := by
      subst he
      rcases bufferMessage_pending h hsize hm hring hp with htaken | hmore
      · exact Or.inl (by rw [htaken])
      · exact Or.inr hmore
    rw [dumpStep, hring] at hs
    cases hp : d.phase <;> simp only [hp] at hs <;> try contradiction
    · exact hget (Or.inl hp) (Prod.mk.inj (Option.some.inj hs)).1
    · exact hget (Or.inr hp) (Prod.mk.inj (Option.some.inj hs)).1
  | write n =>
    rw [dumpStep] at hs
    split at hs
    · rename_i empty hp
      have hrank : d.rank = d.sendBuf.bytes.length + 1 := by simp [DumpThread.rank, hp]
      right
      split_ifs at hs with hsome hall
      · obtain ⟨rfl, -⟩ := Prod.mk.inj (Option.some.inj hs)
        refine ⟨⟨hheld, h.runs, ⟨rest, hring⟩, h.taken_eq⟩, ?_⟩
        simp only [DumpThread.rank, hp, List.length_drop, DumpAct.own, if_true]
        omega
      · obtain ⟨rfl, -⟩ := Prod.mk.inj (Option.some.inj hs)
        have hne := List.length_pos_iff.mpr (h.held.sending empty hp)
        refine ⟨⟨hheld, ?_, ⟨rest, hring⟩, h.taken_eq⟩, ?_⟩
        · cases empty <;> simp [DumpThread.Runs, afterSend]
        · rw [hrank]
          cases empty <;> simp [DumpThread.rank, afterSend, DumpAct.own] <;> omega
    · cases hs
  | writeFails => exact absurd ha id
  | select timedout =>
    rw [dumpStep] at hs
    obtain ⟨hp, hs⟩ := Option.ite_none_right_eq_some.mp hs
    obtain ⟨rfl, -⟩ := Prod.mk.inj (Option.some.inj hs)
    obtain rfl : timedout = true := ha
    refine Or.inr ⟨⟨hheld, by simp [DumpThread.Runs], ⟨rest, hring⟩, h.taken_eq⟩, ?_⟩
    simp [DumpThread.rank, hp, DumpAct.own]

theorem DumpThread.Runs.enabled (h : d.Runs) (hring : d.ring = m :: rest) :
    ∃ a : DumpAct, a.Progresses ∧ a.own = true ∧ (dumpNext d a).isSome := by
  cases hp : d.phase with
  | poll => exact ⟨.get, trivial, rfl, by simp [dumpNext, dumpStep, hp, hring]⟩
  | spin => exact ⟨.get, trivial, rfl, by simp [dumpNext, dumpStep, hp, hring]⟩
  | send empty => exact ⟨.write d.sendBuf.bytes.length, trivial, rfl, by simp [dumpNext, dumpStep, hp]⟩
  | select => exact ⟨.select true, rfl, rfl, by simp [dumpNext, dumpStep, hp]⟩
  | exited => exact absurd hp h.1
  | undefined => exact absurd hp h.2

theorem DumpThread.Pending.copies (h : d.Pending size m d.taken) (hsize : size < 2 ^ 32)
    (hm : Sendable size m) : d.Copies m := by
  refine ⟨d.rank, fun as t hmay hrun => ?_⟩
  rcases exec_ranked (G := fun t => d.taken ++ [m] <+: t.taken) (fun _ _ _ hG hs => hG.trans (dumpNext_taken hs))
    (fun _ _ _ hI ha hs => hI.step hsize hm ha hs) h hmay hrun with hgoal | ⟨hI, hrank⟩
  · exact Or.inl hgoal
  · obtain ⟨rest, hring⟩ := hI.head
    exact Or.inr ⟨(Nat.le_add_left _ _).trans hrank, hI.runs, hI.runs.enabled hring⟩

/-- The look at the ring leaves the thread as it was, or takes it out of its buffer. -/
theorem dumpNext_unsendable (hsize : size < 2 ^ 32) (h : d.Held size) (hp : d.phase = .poll)
    (hnil : d.sendBuf.bytes = []) (hring : d.ring = m :: rest) (hm : ¬ Sendable size m) :
    dumpNext d .get = some d ∨ dumpNext d .get = some { d with phase := .undefined } := by
  have hget : dumpNext d .get = some (bufferMessage d m rest) := by
    simp [dumpNext, dumpStep, hp, hring]
  rw [hget]
  rcases bufferMessage_cases h hsize (by simp [hp]) m rest with ⟨hroom, hlow, -⟩ | ⟨-, heq⟩ | ⟨-, heq⟩
  · exact absurd ⟨by omega, hlow⟩ hm
  · exact Or.inr (congrArg some heq)
  · refine Or.inl (congrArg some (heq.trans ?_))
    rw [rsSendTmpbuf, if_pos hnil, afterSend, if_neg (by decide), ← hp]

/-- The loop looks at the same slot for ever. -/
theorem not_copies (hsize : size < 2 ^ 32) (h : d.Held size) (hp : d.phase = .poll)
    (hnil : d.sendBuf.bytes = []) (hring : d.ring = m :: rest) (hm : ¬ Sendable size m) : ¬ d.Copies m := by
  rintro ⟨k, hk⟩
  have hfirst : ¬ d.taken ++ [m] <+: d.taken := fun hpre => by
    have := hpre.length_le
    rw [List.length_append, List.length_singleton] at this
    omega
  rcases dumpNext_unsendable hsize h hp hnil hring hm with hget | hget
  · have hloop (n : ℕ) : exec dumpNext d (List.replicate n .get) = some d := by
      induction n with
      | zero => rfl
      | succ n ih => rw [List.replicate_succ, exec_cons, hget, Option.bind_some, ih]
    have hmay : ∀ a ∈ List.replicate (k + 1) DumpAct.get, a.Progresses := by
      intro a ha
      rw [List.eq_of_mem_replicate ha]
      trivial
    rcases hk _ d hmay (hloop (k + 1)) with hpre | ⟨hcount, -⟩
    · exact hfirst hpre
    · rw [List.countP_replicate, if_pos (show DumpAct.get.own = true from rfl)] at hcount
      omega
  · rcases hk [.get] { d with phase := .undefined } (by simp [DumpAct.Progresses])
      (by rw [exec_cons, hget]; rfl) with hpre | ⟨-, hruns, -⟩
    · exact hfirst hpre
    · exact hruns.2 rfl

theorem accepts_iff {recvSize : UInt32} :
    Accepts recvSize m ↔ 4 ≤ recvSize.toNat ∧ m.length ≤ recvSize.toNat := by
  constructor
  · intro h
    have hle (n : ℕ) (hn : n = 4 ∨ n = m.length) : n ≤ recvSize.toNat := by
      by_contra hlt
      refine (h ⟨recvSize.toNat, 0, []⟩ rfl n hn).1 [] ⟨recvSize.toNat, 0, []⟩ ?_
      rw [rsRecvTmpbuf, if_pos (not_le.mp hlt)]
    exact ⟨hle 4 (Or.inl rfl), hle m.length (Or.inr rfl)⟩
  · rintro ⟨hfour, hlen⟩ b hb n hn
    refine ⟨fun data c hr => ?_, fun copied s chunk data c hne hr => ?_⟩
    · rcases rsRecvTmpbuf_cases b n with ⟨hlt, -⟩ | ⟨_, _, -, -, -, hok⟩ | ⟨_, -, -, -, hloop⟩
      · rcases hn with rfl | rfl <;> omega
      · rw [hok] at hr
        cases hr
      · rw [hloop] at hr
        cases hr
    · rcases rsRecvTmpbufRead_cases hr with ⟨hnil, -⟩ | ⟨_, -, -, -, heq⟩ | ⟨_, _, -, -, -, heq⟩
      · exact hne hnil
      · cases heq
      · cases heq

/-- The thread at the start of a session, with one message in the ring. -/
theorem exec_put (sendSize : UInt32) (m : List UInt8) :
    exec dumpNext (.init sendSize) [.put m] = some { DumpThread.init sendSize with ring := [m] } := rfl

/-- A message goes through exactly if its frame fits in the send buffer and is shorter than
2^31 bytes, and the receive buffer holds a length and the message. -/
theorem noStall_iff (sendSize recvSize : UInt32) (m : List UInt8) :
    NoStall sendSize recvSize m ↔ Sendable sendSize.toNat m ∧ 4 ≤ recvSize.toNat ∧ m.length ≤ recvSize.toNat := by
  have hsize : sendSize.toNat < 2 ^ 32 := sendSize.toNat_lt
  constructor
  · rintro ⟨hcopies, haccepts⟩
    refine ⟨?_, accepts_iff.mp haccepts⟩
    by_contra hm
    exact not_copies hsize (exec_held (exec_put sendSize m)) rfl rfl rfl hm
      (hcopies [.put m] _ [] (exec_put sendSize m) ⟨nofun, nofun⟩ rfl)
  · rintro ⟨hm, haccepts⟩
    refine ⟨fun as d rest hrun hruns hring => ?_, accepts_iff.mpr haccepts⟩
    exact DumpThread.Pending.copies ⟨exec_held hrun, hruns, ⟨rest, hring⟩, rfl⟩ hsize hm

def smallMessage : Message := ⟨⟨[98], by decide, by decide⟩, 4, 0, [], [], [], [], []⟩

/-- A send buffer of eight bytes never takes the nine bytes of its frame. -/
theorem smallMessage_stalls : ¬ ∀ (sendSize recvSize : UInt32) (msg : Message) (m : List UInt8),
    msg.fill = some (m.map some) → NoStall sendSize recvSize m := by
  intro h
  have hstall := (h 8 65536 smallMessage [98, 44, 52, 10, 0] (by decide +kernel)).copies [.put _] _ []
    (exec_put 8 _) ⟨nofun, nofun⟩ rfl
  exact not_copies (by decide) (exec_held (exec_put 8 _)) rfl rfl rfl (by decide) hstall

end MySQLSyncer.Master
