import MySQLSyncer.Core.Code
import MySQLSyncer.Master.Reload

/-! # A reload that fails

`rs_init_master_info` with the answers of the calls that may fail, and what it does to the object
of the running master.
-/
namespace MySQLSyncer.Master
open Lib MySQLSyncer.Core

/-- The fields of `rs_master_info_t` that change hands. The accept thread is there and runs. -/
structure MasterObj where
  conf : MasterConf
  acceptThread : Bool
  svrFd : Option ℕ
  reqDump : Option ReqdumpBlock
  deriving DecidableEq

structure MasterRes where
  openFds : List ℕ
  destroyed : List ℕ
  deriving DecidableEq

/-- One pass over the settings: `rs_create_pool`, `rs_palloc`, `rs_create_conf` and
`rs_init_master_conf`, each of which may fail. -/
structure ConfPass where
  createPool : Option ℕ
  palloc : Bool
  createConf : Bool
  initConf : Option MasterConf
  deriving DecidableEq

def ConfPass.result (c : ConfPass) : Option (ℕ × MasterConf) := do
  let p ← c.createPool
  if c.palloc ∧ c.createConf then
    let conf ← c.initConf
    some (p, conf)
  else none

/-- The answers of the calls, in their order. `rs_dump_listen` may leave a socket in `svr_fd` when
it fails. -/
structure InitCalls where
  first : ConfPass
  second : ConfPass
  pthreadCancel : Bool
  dumpListen : RsCode × Option ℕ
  createReqdump : Bool
  pthreadCreate : Bool
  deriving DecidableEq

structure InitResult where
  mi : Option MasterObj
  om : Option MasterObj
  res : MasterRes
  deriving DecidableEq

/-- `rs_free_master` on the object under construction. -/
def freeMasterObj (mi : MasterObj) (res : MasterRes) : MasterRes where
  openFds := match mi.svrFd with
    | some fd => res.openFds.erase fd
    | none => res.openFds
  destroyed := match mi.reqDump with
    | some rd => rd.pools ++ res.destroyed
    | none => res.destroyed

def NewListen (om conf : MasterConf) : Prop :=
  conf.listenAddr ≠ om.listenAddr ∨ conf.listenPort ≠ om.listenPort

def NewDump (om conf : MasterConf) : Prop :=
  conf.binlogIndex ≠ om.binlogIndex ∧ om.ringbufNum ≠ conf.ringbufNum

instance (om conf : MasterConf) : Decidable (NewListen om conf) := inferInstanceAs (Decidable (_ ∨ _))
instance (om conf : MasterConf) : Decidable (NewDump om conf) := inferInstanceAs (Decidable (_ ∧ _))

/-- The accept thread is cancelled, the socket is handed over. -/
def handOver (c : InitCalls) (mi om : MasterObj) : MasterObj × MasterObj :=
  let om := if om.acceptThread ∧ c.pthreadCancel then { om with acceptThread := false } else om
  if NewListen om.conf mi.conf then (mi, om)
  else ({ mi with svrFd := om.svrFd }, { om with svrFd := none })

/-- The table is handed over, without its sessions if the address is new. -/
def handOverDump (mi om : MasterObj) (res : MasterRes) : Option (MasterObj × MasterObj × MasterRes) :=
  if NewDump om.conf mi.conf then some (mi, om, res)
  else if NewListen om.conf mi.conf then do
    let rd ← om.reqDump
    some ({ mi with reqDump := some (rsFreeallReqdumpData rd) }, { om with reqDump := none },
      { res with destroyed := rd.pools ++ res.destroyed })
  else some ({ mi with reqDump := om.reqDump }, { om with reqDump := none }, res)

/-- From `rs_dump_listen` on. -/
def startMaster (c : InitCalls) (p : ℕ) (nl nd : Prop) [Decidable nl] [Decidable nd] (mi : MasterObj)
    (om : Option MasterObj) (res : MasterRes) : InitResult :=
  let (mi, res) := if nl then
      ({ mi with svrFd := c.dumpListen.2 }, { res with openFds := c.dumpListen.2.toList ++ res.openFds })
    else (mi, res)
  if nl ∧ c.dumpListen.1 ≠ .ok then ⟨none, om, freeMasterObj mi res⟩
  else
    let mi := if nd then
        { mi with reqDump := if c.createReqdump then createReqdumpBlock p mi.conf.dumpThread else none }
      else mi
    if nd ∧ mi.reqDump = none then ⟨none, om, freeMasterObj mi res⟩
    else if c.pthreadCreate then ⟨some { mi with acceptThread := true }, om, res⟩
    else ⟨none, om, freeMasterObj mi res⟩

/-- The settings are read twice, the first time into an object that is freed; an object that has
neither thread nor socket nor table is freed without a trace. -/
def rsInitMasterInfo (c : InitCalls) (om : Option MasterObj) (res : MasterRes) : Option InitResult :=
  match c.first.result, c.second.result with
  | none, _ | _, none => some ⟨none, om, res⟩
  | some _, some (p, conf) =>
    let mi : MasterObj := { conf := conf, acceptThread := false, svrFd := none, reqDump := none }
    match om with
    | none => some (startMaster c p True True mi none res)
    | some om => do
      let (mi, om') := handOver c mi om
      -- `rs_strcmp` of the two names
      if conf.binlogIndex = none ∨ om.conf.binlogIndex = none then none
      else
        let (mi, om', res) ← handOverDump mi om' res
        some (startMaster c p (NewListen om.conf conf) (NewDump om.conf conf) mi (some om') res)

/-- The master accepts and serves: its thread runs, its socket is open and no session was ended. -/
structure MasterObj.Serves (om : MasterObj) (res : MasterRes) : Prop where
  accept : om.acceptThread = true
  listen : ∃ fd, om.svrFd = some fd ∧ fd ∈ res.openFds
  sessions : ∃ rd, om.reqDump = some rd ∧ ∀ d ∈ rd.opened, d.pool ∉ res.destroyed

/-- The settings cannot be read, or nothing is taken from the old object: the thread cannot be
cancelled, the address is new, and so are the index file and the ring. -/
def InitCalls.TakesNothing (c : InitCalls) (om : MasterObj) : Prop :=
  c.first.result = none ∨ match c.second.result with
    | none => True
    | some (_, conf) => c.pthreadCancel = false ∧ NewListen om.conf conf ∧ NewDump om.conf conf

variable {c : InitCalls} {mi om om' : MasterObj} {res res' : MasterRes} {r : InitResult} {p : ℕ}

theorem startMaster_om (c : InitCalls) (p : ℕ) (nl nd : Prop) [Decidable nl] [Decidable nd]
    (mi : MasterObj) (om : Option MasterObj) (res : MasterRes) :
    (startMaster c p nl nd mi om res).om = om := by
  simp only [startMaster]
  split_ifs <;> rfl

/-- Freeing an object that has only its own socket, and a table without sessions. -/
theorem freeMasterObj_own (fd : Option ℕ) {rd : Option ReqdumpBlock}
    (hrd : ∀ b, rd = some b → b.opened = []) (conf : MasterConf) (res : MasterRes) :
    freeMasterObj ⟨conf, false, fd, rd⟩ { res with openFds := fd.toList ++ res.openFds } = res := by
  obtain ⟨openFds, destroyed⟩ := res
  cases rd with
  | none => cases fd <;> simp [freeMasterObj]
  | some b => cases fd <;> simp [freeMasterObj, ReqdumpBlock.pools, hrd b rfl]

/-- With a new address and a new table a failure undoes everything. -/
theorem startMaster_res {nl nd : Prop} [Decidable nl] [Decidable nd] {conf : MasterConf}
    {om : Option MasterObj} (hnl : nl) (hnd : nd)
    (hfail : (startMaster c p nl nd ⟨conf, false, none, none⟩ om res).mi = none) :
    (startMaster c p nl nd ⟨conf, false, none, none⟩ om res).res = res := by
  have hblock : ∀ b, (if c.createReqdump then createReqdumpBlock p conf.dumpThread else none) = some b →
      b.opened = [] := by
    intro b hb
    split at hb
    · exact (createReqdumpBlock_spec hb).2.2
    · cases hb
  simp only [startMaster, if_pos hnl, if_pos hnd] at hfail ⊢
  generalize (if c.createReqdump then createReqdumpBlock p conf.dumpThread else none) = rd at *
  by_cases hlisten : nl ∧ c.dumpListen.1 ≠ .ok
  · rw [if_pos hlisten]
    exact freeMasterObj_own _ (fun b hb => by cases hb) conf res
  · by_cases hnone : nd ∧ rd = none
    · rw [if_neg hlisten, if_pos hnone]
      exact freeMasterObj_own _ hblock conf res
    · rw [if_neg hlisten, if_neg hnone] at hfail ⊢
      by_cases hthread : c.pthreadCreate = true
      · rw [if_pos hthread] at hfail
        cases hfail
      · rw [if_neg hthread]
        exact freeMasterObj_own _ hblock conf res

theorem handedOver_eq {conf : MasterConf} {fresh mi' : MasterObj} (hserves : om.Serves res)
    (hconf : fresh.conf = conf)
    (h : handOverDump (handOver c fresh om).1 (handOver c fresh om).2 res = some (mi', om', res')) :
    om' = om ↔ c.pthreadCancel = false ∧ NewListen om.conf conf ∧ NewDump om.conf conf := by
  subst hconf
  obtain ⟨oconf, accept, svrFd, reqDump⟩ := om
  obtain rfl : accept = true := hserves.accept
  obtain ⟨fd, hfd, -⟩ := hserves.listen
  obtain ⟨rd, hrd, -⟩ := hserves.sessions
  obtain rfl : svrFd = some fd := hfd
  obtain rfl : reqDump = some rd := hrd
  by_cases hl : NewListen oconf fresh.conf <;> by_cases hd : NewDump oconf fresh.conf <;>
    cases hc : c.pthreadCancel <;>
    simp [handOver, handOverDump, hc, hl, hd] at h <;>
    simp [hl, hd, ← h]

/-- When everything is new, the object under construction gets nothing. -/
theorem handOverDump_new {fresh mi' : MasterObj} (hl : NewListen om.conf fresh.conf)
    (hd : NewDump om.conf fresh.conf)
    (h : handOverDump (handOver c fresh om).1 (handOver c fresh om).2 res = some (mi', om', res')) :
    mi' = fresh ∧ res' = res := by
  by_cases hc : om.acceptThread = true ∧ c.pthreadCancel = true
  · simp only [handOver, if_pos hc, if_pos hl, handOverDump, if_pos hd] at h
    exact ⟨(Prod.mk.inj (Option.some.inj h)).1.symm,
      (Prod.mk.inj (Prod.mk.inj (Option.some.inj h)).2).2.symm⟩
  · simp only [handOver, if_neg hc, if_pos hl, handOverDump, if_pos hd] at h
    exact ⟨(Prod.mk.inj (Option.some.inj h)).1.symm,
      (Prod.mk.inj (Prod.mk.inj (Option.some.inj h)).2).2.symm⟩

def Kept (om : MasterObj) (r : InitResult) : Prop := r.om = some om ∧ om.Serves r.res

/-- A reload that fails leaves the running master as it was exactly if it fails before it has taken
anything. -/
theorem failed_keeps_iff (hserves : om.Serves res) (h : rsInitMasterInfo c (some om) res = some r)
    (hfail : r.mi = none) : Kept om r ↔ c.TakesNothing om := by
  rw [rsInitMasterInfo] at h
  cases hfirst : c.first.result with
  | none =>
    rw [hfirst] at h
    obtain rfl := Option.some.inj h
    exact iff_of_true ⟨rfl, hserves⟩ (Or.inl hfirst)
  | some a =>
    cases hsecond : c.second.result with
    | none =>
      rw [hfirst, hsecond] at h
      obtain rfl := Option.some.inj h
      exact iff_of_true ⟨rfl, hserves⟩ (Or.inr (by rw [hsecond]; trivial))
    | some b =>
      obtain ⟨p, conf⟩ := b
      have hnothing : c.TakesNothing om ↔
          c.pthreadCancel = false ∧ NewListen om.conf conf ∧ NewDump om.conf conf := by
        simp [InitCalls.TakesNothing, hfirst, hsecond]
      rw [hfirst, hsecond] at h
      obtain ⟨-, h⟩ := Option.ite_none_left_eq_some.mp h
      obtain ⟨⟨mi, om', res'⟩, hover, h⟩ := Option.bind_eq_some_iff.mp h
      obtain rfl := Option.some.inj h
      have heq := handedOver_eq hserves rfl hover
      rw [hnothing, ← heq, Kept, startMaster_om, Option.some.injEq]
      refine and_iff_left_of_imp fun hom => ?_
      obtain ⟨-, hl, hd⟩ := heq.mp hom
      obtain ⟨rfl, rfl⟩ := handOverDump_new hl hd hover
      rw [startMaster_res hl hd hfail]
      exact hserves

def servingMaster : MasterObj where
  conf := sampleConf
  acceptThread := true
  svrFd := some 5
  reqDump := some { block := some 1, pool := 1, slots := [some { pool := 2, binlogIdxFile := some 1 }] }

def servingRes : MasterRes := ⟨[5], [0]⟩

theorem servingMaster_serves : servingMaster.Serves servingRes :=
  ⟨rfl, ⟨5, rfl, by decide⟩, ⟨_, rfl, by decide⟩⟩

/-- The settings are read, then everything goes well up to `pthread_create`. -/
def lateFailure (conf : MasterConf) : InitCalls where
  first := ⟨some 3, true, true, some conf⟩
  second := ⟨some 4, true, true, some conf⟩
  pthreadCancel := true
  dumpListen := (.ok, some 6)
  createReqdump := true
  pthreadCreate := false

theorem failed_keeps_unreadable : ∃ r, rsInitMasterInfo
      { lateFailure sampleConf with second := ⟨some 4, true, true, none⟩ } (some servingMaster) servingRes =
        some r ∧ Kept servingMaster r :=
  ⟨⟨none, some servingMaster, servingRes⟩, rfl,
    (failed_keeps_iff servingMaster_serves (show rsInitMasterInfo
      { lateFailure sampleConf with second := ⟨some 4, true, true, none⟩ } _ _ = _ from rfl) rfl).mpr
        (Or.inr trivial)⟩

/-- The same settings once more: the socket is closed, the session ended. -/
theorem failed_takes : ¬ ∀ (c : InitCalls) (om : MasterObj) (res : MasterRes) (r : InitResult),
    om.Serves res → rsInitMasterInfo c (some om) res = some r → r.mi = none → Kept om r := by
  intro h
  have hkept := h (lateFailure sampleConf) servingMaster servingRes _ servingMaster_serves rfl rfl
  exact absurd hkept.1 (by decide)

end MySQLSyncer.Master
