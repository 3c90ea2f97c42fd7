import Mathlib.Data.List.Perm.Basic
import MySQLSyncer.Master.Teardown

/-! # One session and its slot

What is true of the threads of a connection and of the slot that it has, step by step.
-/
namespace MySQLSyncer.Master
open Lib

variable {num : ℕ}

def ReqdumpData.live (d : ReqdumpData num) (place : IoPlace) : List ℕ :=
  (if d.isOpen then
    d.cliFd.toList ++ (if place = .unwatching then [] else d.notifyFd.toList) else []) ++
  (d.ringbuf.toList ++ d.sendBuf.toList ++ d.ioBuf.toList ++
    (if place = .reopening then [] else d.binlogFp.toList) ++ d.binlogIdxFp.toList ++ d.pool.toList)

structure SetUp (d : ReqdumpData num) (x : SessionThreads num) : Prop where
  blank : rsReqdumpDataInit d = { d with isOpen := false }
  isOpen : d.isOpen = true
  phase : ∀ k, x.phase k = .idle
  place : x.place = .start
  opened : x.opened = []
  released : x.released = []

/-- A slot in the hands of the `n`-th connection; `held` is its thread that is releasing it. -/
structure Live (n : ℕ) (d : ReqdumpData num) (x : SessionThreads num) (held : Option ThreadKind) :
    Prop where
  reqDump : d.reqDump = true
  ringbuf : d.ringbuf ≠ none
  pool : d.pool ≠ none
  dumpThread : d.dumpThread = some n
  ioThread : ∀ m, d.ioThread = some m → m = n
  started : x.phase .dump ≠ .idle
  ioIdle : x.phase .io = .idle → x.place = .start
  ioRunning : x.phase .io = .running → d.ioThread = some n
  dumpExit : d.dumpThreadExit = true ↔ (x.phase .dump).Exiting
  ioExit : d.ioThreadExit = true ↔ (x.phase .io).Exiting
  start : x.place = .start → d.binlogIdxFp = none
  opening : x.place = .start ∨ x.place = .opening → d.binlogFp = none
  notDone : d.isOpen = true → ∀ k, x.phase k ≠ .done
  holding : ∀ k, x.phase k = .holding ↔ held = some k
  isOpen : d.isOpen = true ↔ held = none
  cancelled : d.isOpen = false → x.phase .io = .running → x.cancelled .io = true
  perm : (d.live x.place ++ x.released).Perm x.opened

structure Over (x : SessionThreads num) : Prop where
  perm : x.released.Perm x.opened
  holding : ∀ k, x.phase k ≠ .holding
  created : x.phase .io = .idle → x.phase .dump ≠ .running

variable {n fresh : ℕ} {d d' : ReqdumpData num} {x x' : SessionThreads num}
  {held : Option ThreadKind}

theorem perm_of_count {l l' : List ℕ} (h : ∀ a, l.count a = l'.count a) : l.Perm l' :=
  List.perm_iff_count.mpr h

/-- The io thread gets to another place with its files, and the books still hold. -/
theorem Live.moved (h : Live n d x held) {place : IoPlace} {notify bin idx : Option ℕ}
    {opened released : List ℕ} (hio : x.phase .io = .running) (hstart : place ≠ .start)
    (hopening : place = .opening → bin = none)
    (hperm : (ReqdumpData.live { d with notifyFd := notify, binlogFp := bin, binlogIdxFp := idx } place ++
      released).Perm opened) :
    Live n { d with notifyFd := notify, binlogFp := bin, binlogIdxFp := idx }
      { x with place := place, opened := opened, released := released } held :=
  { h with
    ioIdle := fun hidle => by
      rw [hio] at hidle
      cases hidle
    start := fun hp => absurd hp hstart
    opening := fun hp => hopening (hp.resolve_left hstart)
    perm := hperm }

theorem Live.file (h : Live n d x held) {op : FileOp} (hio : x.phase .io = .running)
    (hwatch : op = .watch → d.isOpen = true) (hstep : fileStep fresh d x op = some (d', x')) :
    Live n d' x' held ∧ d'.isOpen = d.isOpen ∧ d'.data = d.data ∧ x'.slot = x.slot ∧
      x'.phase = x.phase ∧ x'.cancels = x.cancels ∧
      (x'.opened = x.opened ∨ x'.opened = fresh :: x.opened) := by
  have hperm (a : ℕ) := List.perm_iff_count.mp h.perm a
  cases op with
  | fopenIdx =>
    obtain ⟨hp, hstep⟩ := Option.ite_none_right_eq_some.mp hstep
    obtain ⟨rfl, rfl⟩ := Prod.mk.inj (Option.some.inj hstep)
    have hidx := h.start hp
    have hbin := h.opening (Or.inl hp)
    refine ⟨h.moved hio nofun (fun _ => hbin) (perm_of_count fun a => ?_),
      rfl, rfl, rfl, rfl, rfl, Or.inr rfl⟩
    have := hperm a
    simp [ReqdumpData.live, hp, hidx, hbin, List.count_cons] at this ⊢
    omega
  | fopen ok =>
    obtain ⟨hp, hstep⟩ := Option.ite_none_right_eq_some.mp hstep
    -- the old value of the field is `NULL`, or a stream that is closed
    have hlive : d.live x.place = ReqdumpData.live { d with binlogFp := none } .opening := by
      rcases hp with hp | hp
      · rw [hp, ← h.opening (Or.inr hp)]
      · simp [ReqdumpData.live, hp]
    cases ok with
    | true =>
      rw [if_pos rfl] at hstep
      obtain ⟨rfl, rfl⟩ := Prod.mk.inj (Option.some.inj hstep)
      refine ⟨h.moved hio nofun nofun (perm_of_count fun a => ?_), rfl, rfl, rfl, rfl, rfl, Or.inr rfl⟩
      have := hperm a
      rw [hlive] at this
      simp [ReqdumpData.live, List.count_cons] at this ⊢
      omega
    | false =>
      rw [if_neg Bool.false_ne_true] at hstep
      obtain ⟨rfl, rfl⟩ := Prod.mk.inj (Option.some.inj hstep)
      exact ⟨h.moved hio nofun (fun _ => rfl) (hlive ▸ h.perm), rfl, rfl, rfl, rfl, rfl, Or.inl rfl⟩
  | watch =>
    obtain ⟨hp, hstep⟩ := Option.ite_none_right_eq_some.mp hstep
    obtain ⟨rfl, rfl⟩ := Prod.mk.inj (Option.some.inj hstep)
    refine ⟨h.moved hio nofun nofun (perm_of_count fun a => ?_), rfl, rfl, rfl, rfl, rfl, Or.inr rfl⟩
    have := hperm a
    simp [ReqdumpData.live, hp.1, hp.2, hwatch rfl, List.count_cons] at this ⊢
    omega
  | closeWatch =>
    obtain ⟨hp, hstep⟩ := Option.ite_none_right_eq_some.mp hstep
    obtain ⟨rfl, rfl⟩ := Prod.mk.inj (Option.some.inj hstep)
    have hopen : d.isOpen = true := by
      by_contra hclosed
      rw [h.cancelled (Bool.eq_false_of_not_eq_true hclosed) hio] at hp
      cases hp.2
    refine ⟨h.moved hio nofun nofun (perm_of_count fun a => ?_), rfl, rfl, rfl, rfl, rfl, Or.inl rfl⟩
    have := hperm a
    simp [ReqdumpData.live, hp.1, hopen] at this ⊢
    omega
  | unwatch =>
    obtain ⟨hp, hstep⟩ := Option.ite_none_right_eq_some.mp hstep
    obtain ⟨rfl, rfl⟩ := Prod.mk.inj (Option.some.inj hstep)
    have hlive : d.live x.place = ReqdumpData.live { d with notifyFd := none } .reading := by
      simp [ReqdumpData.live, hp]
    exact ⟨h.moved hio nofun nofun (hlive ▸ h.perm), rfl, rfl, rfl, rfl, rfl, Or.inl rfl⟩
  | fclose =>
    obtain ⟨hp, hstep⟩ := Option.ite_none_right_eq_some.mp hstep
    obtain ⟨rfl, rfl⟩ := Prod.mk.inj (Option.some.inj hstep)
    refine ⟨h.moved hio nofun nofun (perm_of_count fun a => ?_), rfl, rfl, rfl, rfl, rfl, Or.inl rfl⟩
    have := hperm a
    simp [ReqdumpData.live, hp] at this ⊢
    omega

@[simp] theorem SessionThreads.setPhase_phase (x : SessionThreads num) (k : ThreadKind)
    (p : ThreadPhase) : (x.setPhase k p).phase = Function.update x.phase k p := rfl

theorem markExit_isOpen (k : ThreadKind) (d : ReqdumpData num) : (markExit k d).isOpen = d.isOpen := by
  cases k <;> rfl

theorem markExit_data (k : ThreadKind) (d : ReqdumpData num) : (markExit k d).data = d.data := by
  cases k <;> rfl

theorem markExit_live (k : ThreadKind) (d : ReqdumpData num) (place : IoPlace) :
    (markExit k d).live place = d.live place := by
  cases k <;> rfl

theorem Live.exiting (h : Live n d x held) {k : ThreadKind} {p : ThreadPhase}
    (hk : x.phase k ≠ .idle ∧ x.phase k ≠ .holding) (hp : p.Exiting) (hhold : p ≠ .holding)
    (hdone : p = .done → d.isOpen = false) : Live n (markExit k d) (x.setPhase k p) held := by
  have hidle : p ≠ .idle := fun he => by rw [he] at hp; exact hp
  have hrun : p ≠ .running := fun he => by rw [he] at hp; exact hp
  have hheld : held ≠ some k := fun he => hk.2 ((h.holding k).mpr he)
  have hholding (j : ThreadKind) :
      (x.setPhase k p).phase j = .holding ↔ held = some j := by
    rw [SessionThreads.setPhase_phase]
    by_cases hj : j = k
    · subst hj
      simp [hhold, hheld]
    · rw [Function.update_of_ne hj]
      exact h.holding j
  have hnotDone (hopen : (markExit k d).isOpen = true) (j : ThreadKind) :
      (x.setPhase k p).phase j ≠ .done := by
    rw [markExit_isOpen] at hopen
    rw [SessionThreads.setPhase_phase]
    by_cases hj : j = k
    · subst hj
      rw [Function.update_self]
      intro he
      rw [hdone he] at hopen
      cases hopen
    · rw [Function.update_of_ne hj]
      exact h.notDone hopen j
  have hperm : ((markExit k d).live (x.setPhase k p).place ++ (x.setPhase k p).released).Perm
      (x.setPhase k p).opened := by
    rw [markExit_live]
    exact h.perm
  cases k with
  | dump =>
    have hio : (x.setPhase .dump p).phase .io = x.phase .io := by simp
    exact
      { h with
        started := by simpa using hidle
        ioIdle := fun he => h.ioIdle (hio ▸ he)
        ioRunning := fun he => h.ioRunning (hio ▸ he)
        dumpExit := by simpa [markExit] using hp
        ioExit := by rw [hio]; exact h.ioExit
        notDone := hnotDone
        holding := hholding
        cancelled := fun hc he => h.cancelled hc (hio ▸ he)
        perm := hperm }
  | io =>
    have hdump : (x.setPhase .io p).phase .dump = x.phase .dump := by simp
    exact
      { h with
        started := by rw [hdump]; exact h.started
        ioIdle := fun he => by simp [hidle] at he
        ioRunning := fun he => by simp [hrun] at he
        dumpExit := by rw [hdump]; exact h.dumpExit
        ioExit := by simpa [markExit] using hp
        notDone := hnotDone
        holding := hholding
        cancelled := fun _ he => by simp [hrun] at he
        perm := hperm }

theorem Live.markExit_eq (h : Live n d x held) {k : ThreadKind} (hk : (x.phase k).Exiting) :
    markExit k d = d := by
  cases k with
  | dump => simp only [markExit, ← h.dumpExit.mpr hk]
  | io => simp only [markExit, ← h.ioExit.mpr hk]

/-- While the dump thread runs, and has no io thread yet, nobody releases the slot. -/
theorem Live.held_eq_none (h : Live n d x held) (hd : x.phase .dump = .running)
    (hio : x.phase .io = .idle) : held = none := by
  cases hheld : held with
  | none => rfl
  | some k =>
    have hk := (h.holding k).mpr hheld
    cases k with
    | dump => rw [hd] at hk; cases hk
    | io => rw [hio] at hk; cases hk

theorem Live.createIo (h : Live n d x held) (hd : x.phase .dump = .running)
    (hio : x.phase .io = .idle) :
    Live n { d with ioThread := some n } (x.setPhase .io .running) held := by
  have hheld := h.held_eq_none hd hio
  have hopen : d.isOpen = true := h.isOpen.mpr hheld
  have hdump : (x.setPhase .io .running).phase .dump = x.phase .dump := by simp
  have hnew : (x.setPhase .io .running).phase .io = .running := by simp
  exact
    { h with
      ioThread := fun m hm => (Option.some.inj hm).symm
      started := by rw [hdump]; exact h.started
      ioIdle := fun he => by rw [hnew] at he; cases he
      ioRunning := fun _ => rfl
      dumpExit := by rw [hdump]; exact h.dumpExit
      ioExit := by
        rw [hnew]
        have := h.ioExit
        rw [hio] at this
        exact this
      notDone := fun ho k => by
        cases k with
        | dump => rw [hdump]; exact h.notDone ho .dump
        | io => rw [hnew]; decide
      holding := fun k => by
        cases k with
        | dump => rw [hdump]; exact h.holding .dump
        | io => rw [hnew, hheld]; simp
      cancelled := fun hc => by
        rw [hopen] at hc
        cases hc
      perm := h.perm }

/-- The accept thread fills the slot and creates the dump thread. -/
theorem SetUp.start (h : SetUp d x) (fresh n : ℕ) : Live n { d with
      pool := some fresh, ringbuf := some (fresh + 1), sendBuf := some (fresh + 2)
      ioBuf := some (fresh + 3), cliFd := some (fresh + 4)
      reqDump := true, dumpThread := some n }
    { x.setPhase .dump .running with opened := List.range' fresh 5 ++ x.opened } none := by
  have hd : d = { rsReqdumpDataInit d with isOpen := true } := by
    rw [h.blank, ← h.isOpen]
  have hdump : (x.setPhase .dump .running).phase .dump = .running := by simp
  have hio : (x.setPhase .dump .running).phase .io = .idle := by simp [h.phase]
  exact
    { reqDump := rfl
      ringbuf := by simp
      pool := by simp
      dumpThread := rfl
      ioThread := fun m hm => by rw [hd] at hm; cases hm
      started := by rw [hdump]; decide
      ioIdle := fun _ => h.place
      ioRunning := fun he => by rw [hio] at he; cases he
      dumpExit := by rw [hdump, hd]; simp [rsReqdumpDataInit, ThreadPhase.Exiting]
      ioExit := by rw [hio, hd]; simp [rsReqdumpDataInit, ThreadPhase.Exiting]
      start := fun _ => by rw [hd]; rfl
      opening := fun _ => by rw [hd]; rfl
      notDone := fun _ k => by
        cases k with
        | dump => rw [hdump]; decide
        | io => rw [hio]; decide
      holding := fun k => by
        cases k with
        | dump => rw [hdump]; simp
        | io => rw [hio]; simp
      isOpen := by simp [h.isOpen]
      cancelled := fun hc => by
        have := h.isOpen
        rw [hc] at this
        cases this
      perm := by
        refine perm_of_count fun a => ?_
        rw [hd]
        simp [ReqdumpData.live, rsReqdumpDataInit, h.opened, SessionThreads.setPhase, h.released,
          h.place, List.range', List.count_cons, Nat.add_assoc]
        omega }

theorem foldl_cancelThread (l : List (ThreadKind × ℕ)) (hl : ∀ th ∈ l, th.2 = n)
    (threads : ℕ → SessionThreads num) (x : SessionThreads num) :
    ∃ c, l.foldl cancelThread (Function.update threads n x) =
        Function.update threads n { x with cancelled := c } ∧
      ∀ k, x.cancelled k = true ∨ (k, n) ∈ l → c k = true := by
  induction l generalizing x with
  | nil => exact ⟨x.cancelled, rfl, fun k hk => by simpa using hk⟩
  | cons th l ih =>
    obtain ⟨k', m⟩ := th
    obtain rfl : m = n := hl (k', m) List.mem_cons_self
    have hcons : cancelThread (Function.update threads m x) (k', m) =
        Function.update threads m { x with cancelled := Function.update x.cancelled k' true } := by
      simp [cancelThread]
    obtain ⟨c, hc, hk⟩ := ih (fun th hth => hl th (List.mem_cons_of_mem _ hth))
      { x with cancelled := Function.update x.cancelled k' true }
    refine ⟨c, by rw [List.foldl_cons, hcons, hc], fun k hor => hk k ?_⟩
    by_cases hkk : k = k'
    · subst hkk
      exact Or.inl (Function.update_self ..)
    · rcases hor with hold | hmem
      · exact Or.inl (by rw [← hold]; exact Function.update_of_ne hkk ..)
      · rcases List.mem_cons.mp hmem with he | hmem
        · exact absurd (congrArg Prod.fst he) hkk
        · exact Or.inr hmem

theorem Live.toCancel_own (h : Live n d x held) : ∀ th ∈ toCancel d, th.2 = n := by
  intro th hth
  rcases List.mem_append.mp hth with hth | hth
  · split at hth
    · cases hth
    · obtain ⟨m, hm, rfl⟩ := List.mem_map.mp hth
      exact h.ioThread m (by simpa using hm)
  · split at hth
    · cases hth
    · obtain ⟨m, hm, rfl⟩ := List.mem_map.mp hth
      rw [h.dumpThread] at hm
      simpa using hm

/-- The teardown begins: the slot is closed, and what is closed is no longer to be released. -/
theorem Live.close (h : Live n d x none) {k : ThreadKind} {c : ThreadKind → Bool}
    (hk : x.phase k = .calling) (hplace : x.place ≠ .unwatching)
    (hc : ∀ j, (j, n) ∈ toCancel d → c j = true) :
    Live n { d with isOpen := false } { x.close k d with cancelled := c } (some k) := by
  have hopen : d.isOpen = true := h.isOpen.mpr rfl
  have hphase (j : ThreadKind) (p : ThreadPhase) (hp : p ≠ .holding) (hq : p ≠ .calling) :
      (x.setPhase k .holding).phase j = p ↔ x.phase j = p := by
    rw [SessionThreads.setPhase_phase]
    by_cases hj : j = k
    · subst hj
      rw [Function.update_self, hk]
      exact ⟨fun he => absurd he.symm hp, fun he => absurd he.symm hq⟩
    · rw [Function.update_of_ne hj]
  have hexit (j : ThreadKind) :
      ((x.setPhase k .holding).phase j).Exiting ↔ (x.phase j).Exiting := by
    rw [SessionThreads.setPhase_phase]
    by_cases hj : j = k
    · subst hj
      rw [Function.update_self, hk]
      exact Iff.rfl
    · rw [Function.update_of_ne hj]
  exact
    { h with
      started := fun he => h.started ((hphase _ _ (by decide) (by decide)).mp he)
      ioIdle := fun he => h.ioIdle ((hphase _ _ (by decide) (by decide)).mp he)
      ioRunning := fun he => h.ioRunning ((hphase _ _ (by decide) (by decide)).mp he)
      dumpExit := h.dumpExit.trans (hexit .dump).symm
      ioExit := h.ioExit.trans (hexit .io).symm
      notDone := nofun
      holding := fun j => by
        change (x.setPhase k .holding).phase j = .holding ↔ some k = some j
        rw [SessionThreads.setPhase_phase, Option.some.injEq]
        by_cases hj : j = k
        · subst hj
          simp
        · rw [Function.update_of_ne hj, h.holding j]
          simp [Ne.symm hj]
      isOpen := by simp
      cancelled := fun _ he => hc .io (by
        have hrun : x.phase .io = .running := (hphase _ _ (by decide) (by decide)).mp he
        have hno : d.ioThreadExit = false := by
          by_contra hyes
          have := h.ioExit.mp (Bool.eq_true_of_not_eq_false hyes)
          rw [hrun] at this
          exact this
        simp [toCancel, hno, h.ioRunning hrun])
      perm := by
        have hperm (a : ℕ) := List.perm_iff_count.mp h.perm a
        refine perm_of_count fun a => ?_
        have := hperm a
        by_cases hre : x.place = .reopening <;>
          simp [ReqdumpData.live, toClose, SessionThreads.close, SessionThreads.setPhase, hopen, hplace,
            hre] at this ⊢ <;>
          omega }

theorem Live.release {k : ThreadKind} (h : Live n d x (some k)) (hplace : x.place ≠ .reopening) :
    Over (x.release k d) := by
  have hclosed : d.isOpen = false := by
    by_contra ho
    cases h.isOpen.mp (Bool.eq_true_of_not_eq_false ho)
  have hk : x.phase k = .holding := (h.holding k).mpr rfl
  refine ⟨?_, fun j hj => ?_, fun hidle hrun => ?_⟩
  · have hperm := h.perm
    simpa [ReqdumpData.live, toDestroy, hclosed, hplace, SessionThreads.release,
      SessionThreads.setPhase] using hperm
  · change (x.setPhase k .done).phase j = .holding at hj
    rw [SessionThreads.setPhase_phase] at hj
    by_cases hjk : j = k
    · subst hjk
      rw [Function.update_self] at hj
      cases hj
    · rw [Function.update_of_ne hjk, h.holding j] at hj
      exact hjk (Option.some.inj hj).symm
  · change (x.setPhase k .done).phase .io = .idle at hidle
    change (x.setPhase k .done).phase .dump = .running at hrun
    cases k with
    | dump => simp at hrun
    | io => simp at hidle

theorem Over.done {x : SessionThreads num} {k : ThreadKind} (h : Over x) :
    Over (x.setPhase k .done) := by
  refine ⟨h.perm, fun j => ?_, fun hidle => ?_⟩
  · rw [SessionThreads.setPhase_phase]
    by_cases hj : j = k
    · subst hj
      simp
    · rw [Function.update_of_ne hj]
      exact h.holding j
  · cases k with
    | dump => simp
    | io => simp at hidle

end MySQLSyncer.Master
