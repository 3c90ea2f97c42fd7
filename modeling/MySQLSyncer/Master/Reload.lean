import MySQLSyncer.Lib.Extent
import MySQLSyncer.Lib.Transition
import MySQLSyncer.Master.ReqDump

/-! # Reloading the configuration

A pool is a number, and a pointer into a pool is the pool's number. The accept thread has the number
of its master's pool. Every call here succeeds, but for `pthread_cancel` of a thread that has ended.
-/
namespace MySQLSyncer.Master
open Lib

structure MasterConf where
  listenAddr : List UInt8
  listenPort : Int32
  binlogIndex : Option (List UInt8)
  ringbufNum : UInt32
  dumpThread : UInt32
  deriving DecidableEq

/-- What an open slot points to: its own pool and the name of the index file. -/
structure OpenSlot where
  pool : ℕ
  binlogIdxFile : Option ℕ
  deriving DecidableEq

/-- The block of `rs_create_reqdump`: the table with its slots and its free list, and `rd->pool`.
Beyond the largest class of the pool it is a block of `malloc`. -/
structure ReqdumpBlock where
  block : Option ℕ
  pool : ℕ
  slots : List (Option OpenSlot)
  deriving DecidableEq

/-- `rs_master_info_t`. The name of the index file lies in the pool of the object. -/
structure MasterInfo where
  listenAddr : List UInt8
  listenPort : Int32
  binlogIdxFile : Option (List UInt8)
  ringbufNum : UInt32
  acceptThreadExit : Bool
  pool : ℕ
  reqDump : Option ReqdumpBlock
  deriving DecidableEq

/-- The master with the pools it has destroyed and the threads it has joined, the last one first. -/
structure RsMaster where
  info : Option MasterInfo
  fresh : ℕ
  destroyed : List ℕ
  joined : List ℕ
  deriving DecidableEq

def RsMaster.start : RsMaster := ⟨none, 0, [], []⟩

/-- The third argument of `rs_create_pool`. -/
def poolChunkSize : ℕ := 1 * 1024 * 1024

def MasterInfo.idxPool (mi : MasterInfo) : Option ℕ := mi.binlogIdxFile.map fun _ => mi.pool

def ReqdumpBlock.opened (rd : ReqdumpBlock) : List OpenSlot := rd.slots.filterMap id

/-- The pools that `rs_freeall_reqdump_data` destroys. -/
def ReqdumpBlock.pools (rd : ReqdumpBlock) : List ℕ := rd.opened.map OpenSlot.pool

def rsFreeallReqdumpData (rd : ReqdumpBlock) : ReqdumpBlock :=
  { rd with slots := rd.slots.map fun _ => none }

/-- `rs_create_reqdump` in the pool `p`. -/
def createReqdumpBlock (p : ℕ) (num : UInt32) : Option ReqdumpBlock :=
  let n := num.toNat
  if n = 0 ∨ reqdumpBytes n < sizeofReqdump + sizeofReqdumpData * n then none
  else some
    { block := if poolChunkSize < reqdumpBytes n then none else some p
      pool := p
      slots := List.replicate n none }

def rsFreeMaster (mi : MasterInfo) : List ℕ :=
  mi.pool :: match mi.reqDump with
    | none => []
    | some rd => rd.pools

/-- `pthread_join` of the accept thread: in `rs_init_master_info` if `pthread_cancel` finds it, and
in `rs_free_master`, where `accept_thread` is still set. -/
def joinsAccept (om : MasterInfo) (cancelled : Bool) : List ℕ :=
  if cancelled then [om.pool, om.pool] else [om.pool]

/-- `rs_init_master_info` with `rs_init_master`. The settings are read twice, the first time
into an object whose pool is destroyed when the second one is there. To join a thread twice is
undefined; the run goes on as when the second call returns. -/
def rsInitMaster (s : RsMaster) (c : MasterConf) (cancelled : Bool) : Option RsMaster :=
  let p := s.fresh + 1
  let mi : MasterInfo :=
    { listenAddr := c.listenAddr, listenPort := c.listenPort, binlogIdxFile := c.binlogIndex
      ringbufNum := c.ringbufNum, acceptThreadExit := false, pool := p, reqDump := none }
  let destroyed := s.fresh :: s.destroyed
  match s.info with
  | none => do
    let rd ← createReqdumpBlock p c.dumpThread
    some { s with info := some { mi with reqDump := some rd }, fresh := s.fresh + 2, destroyed := destroyed }
  | some om => do
    -- a thread that runs is found
    guard (cancelled ∨ om.acceptThreadExit)
    let joined := joinsAccept om cancelled ++ s.joined
    let nl := mi.listenAddr ≠ om.listenAddr ∨ mi.listenPort ≠ om.listenPort
    -- `rs_strcmp` of the two names
    let idxFile ← mi.binlogIdxFile
    let omIdxFile ← om.binlogIdxFile
    let nd := idxFile ≠ omIdxFile ∧ om.ringbufNum ≠ mi.ringbufNum
    if nd then
      let rd ← createReqdumpBlock p c.dumpThread
      some
        { info := some { mi with reqDump := some rd }, fresh := s.fresh + 2, joined := joined
          destroyed := rsFreeMaster om ++ destroyed }
    else if nl then
      let rd ← om.reqDump
      some
        { info := some { mi with reqDump := some (rsFreeallReqdumpData rd) }, fresh := s.fresh + 2
          joined := joined
          destroyed := rsFreeMaster { om with reqDump := none } ++ (rd.pools ++ destroyed) }
    else
      some
        { info := some { mi with reqDump := om.reqDump }, fresh := s.fresh + 2, joined := joined
          destroyed := rsFreeMaster { om with reqDump := none } ++ destroyed }

inductive MasterAct where
  /-- A reload, or the start; `cancelled` is the answer of `pthread_cancel`. -/
  | init (c : MasterConf) (cancelled : Bool)
  /-- The accept thread takes the slot `i` for a connection. -/
  | connect (i : ℕ)
  /-- `accept` fails, and the accept thread ends. -/
  | acceptFails
  /-- The threads of the slot `i` end. -/
  | close (i : ℕ)

def masterStep (s : RsMaster) : MasterAct → Option RsMaster
  | .init c cancelled => rsInitMaster s c cancelled
  | .connect i => do
    let mi ← s.info
    let rd ← mi.reqDump
    if mi.acceptThreadExit = false ∧ rd.slots[i]? = some none then
      let d : OpenSlot := { pool := s.fresh, binlogIdxFile := mi.idxPool }
      some { s with
        info := some { mi with reqDump := some { rd with slots := rd.slots.set i (some d) } }
        fresh := s.fresh + 1 }
    else none
  | .acceptFails => s.info.map fun mi => { s with info := some { mi with acceptThreadExit := true } }
  | .close i => do
    let mi ← s.info
    let rd ← mi.reqDump
    let d ← (← rd.slots[i]?)
    some { s with
      info := some { mi with reqDump := some { rd with slots := rd.slots.set i none } }
      destroyed := d.pool :: s.destroyed }

/-- Every call was defined, no pool is destroyed twice, and what can be reached from the master is in
pools that are not destroyed. -/
structure RsMaster.Safe (s : RsMaster) : Prop where
  joins : s.joined.Nodup
  once : s.destroyed.Nodup
  info : ∀ mi, s.info = some mi → mi.pool ∉ s.destroyed
  reqDump : ∀ mi rd, s.info = some mi → mi.reqDump = some rd →
    rd.pool ∉ s.destroyed ∧ ∀ p, rd.block = some p → p ∉ s.destroyed
  slots : ∀ mi rd, s.info = some mi → mi.reqDump = some rd → ∀ d ∈ rd.opened,
    d.pool ∉ s.destroyed ∧ ∀ p, d.binlogIdxFile = some p → p ∉ s.destroyed

/-- A reload gets a new table (the name of the index file and the size of the ring both change), and
`pthread_cancel` does not find the accept thread, which has ended. -/
def RsMaster.ReloadOk (s : RsMaster) : MasterAct → Prop
  | .init c cancelled => ∀ om, s.info = some om →
      cancelled = false ∧ c.binlogIndex ≠ om.binlogIdxFile ∧ c.ringbufNum ≠ om.ringbufNum
  | .connect _ | .acceptFails | .close _ => True

instance (s : RsMaster) (a : MasterAct) : Decidable (s.ReloadOk a) :=
  match a with
  | .init _ _ => inferInstanceAs (Decidable (∀ om ∈ s.info, _ ∧ _ ∧ _))
  | .connect _ | .acceptFails | .close _ => isTrue trivial

/-- The table with its slots: it lies in the pool of the master or in none, and the pools of
the open slots are apart. -/
structure MasterInfo.Holds (mi : MasterInfo) (rd : ReqdumpBlock) (fresh : ℕ) (destroyed : List ℕ) :
    Prop where
  reqDump : mi.reqDump = some rd
  pool : rd.pool = mi.pool
  block : ∀ p, rd.block = some p → p = mi.pool
  idxFile : ∀ d ∈ rd.opened, d.binlogIdxFile = mi.idxPool
  fresh : ∀ p ∈ mi.pool :: rd.pools, p < fresh
  nodup : (mi.pool :: rd.pools ++ destroyed).Nodup

structure RsMaster.Inv (s : RsMaster) : Prop where
  joins : s.joined.Nodup
  joined : ∀ p ∈ s.joined, p ∈ s.destroyed
  fresh : ∀ p ∈ s.destroyed, p < s.fresh
  nodup : s.destroyed.Nodup
  info : ∀ mi, s.info = some mi → ∃ rd, mi.Holds rd s.fresh s.destroyed

variable {s t : RsMaster} {c : MasterConf} {cancelled : Bool}

/-- The pools of a master and of its sessions are not destroyed. -/
theorem MasterInfo.Holds.notMem {mi : MasterInfo} {rd : ReqdumpBlock} {fresh : ℕ} {destroyed : List ℕ}
    (h : mi.Holds rd fresh destroyed) {p : ℕ} (hp : p ∈ mi.pool :: rd.pools) : p ∉ destroyed :=
  fun hd => (List.nodup_append.mp h.nodup).2.2 p hp p hd rfl

theorem RsMaster.Inv.holds (h : s.Inv) {mi : MasterInfo} {rd : ReqdumpBlock} (hmi : s.info = some mi)
    (hrd : mi.reqDump = some rd) : mi.Holds rd s.fresh s.destroyed := by
  obtain ⟨rd', hh⟩ := h.info mi hmi
  obtain rfl := Option.some.inj (hrd.symm.trans hh.reqDump)
  exact hh

theorem RsMaster.Inv.safe (h : s.Inv) : s.Safe where
  joins := h.joins
  once := h.nodup
  info mi hmi := by
    obtain ⟨rd, hh⟩ := h.info mi hmi
    exact hh.notMem List.mem_cons_self
  reqDump mi rd hmi hrd := by
    have hh := h.holds hmi hrd
    have hpool := hh.notMem List.mem_cons_self
    exact ⟨hh.pool ▸ hpool, fun p hp => hh.block p hp ▸ hpool⟩
  slots mi rd hmi hrd d hd := by
    have hh := h.holds hmi hrd
    refine ⟨hh.notMem (List.mem_cons_of_mem _ (List.mem_map_of_mem hd)), fun p hp => ?_⟩
    rw [hh.idxFile d hd, MasterInfo.idxPool] at hp
    obtain ⟨w, -, rfl⟩ := Option.map_eq_some_iff.mp hp
    exact hh.notMem List.mem_cons_self

theorem createReqdumpBlock_spec {p : ℕ} {num : UInt32} {rd : ReqdumpBlock}
    (h : createReqdumpBlock p num = some rd) :
    rd.pool = p ∧ (∀ q, rd.block = some q → q = p) ∧ rd.opened = [] := by
  rw [createReqdumpBlock] at h
  obtain ⟨-, h⟩ := Option.ite_none_left_eq_some.mp h
  obtain rfl := Option.some.inj h
  refine ⟨rfl, fun q hq => ?_, by simp [ReqdumpBlock.opened]⟩
  obtain ⟨-, hq⟩ := Option.ite_none_left_eq_some.mp hq
  exact (Option.some.inj hq).symm

theorem MasterInfo.holds_of_create {mi : MasterInfo} {rd : ReqdumpBlock} {num : UInt32} {fresh : ℕ}
    {destroyed : List ℕ} (hcreate : createReqdumpBlock mi.pool num = some rd) (hrd : mi.reqDump = some rd)
    (hlt : mi.pool < fresh) (hnodup : destroyed.Nodup) (hnew : mi.pool ∉ destroyed) :
    mi.Holds rd fresh destroyed := by
  obtain ⟨hpool, hblock, hopened⟩ := createReqdumpBlock_spec hcreate
  have hpools : rd.pools = [] := by rw [ReqdumpBlock.pools, hopened, List.map_nil]
  exact
    { reqDump := hrd
      pool := hpool
      block := hblock
      idxFile := fun d hd => by rw [hopened] at hd; cases hd
      fresh := fun p hp => by
        rw [hpools, List.mem_singleton] at hp
        exact hp ▸ hlt
      nodup := by
        rw [hpools]
        exact List.nodup_cons.mpr ⟨hnew, hnodup⟩ }

theorem RsMaster.Inv.init_start (h : s.Inv) (hinfo : s.info = none) (hs : rsInitMaster s c cancelled = some t) :
    t.Inv := by
  simp only [rsInitMaster, hinfo, Option.bind_eq_bind, Option.bind_eq_some_iff] at hs
  obtain ⟨rd, hrd, hs⟩ := hs
  obtain rfl := Option.some.inj hs
  have hfresh (p : ℕ) (hp : p ∈ s.fresh :: s.destroyed) : p < s.fresh + 1 := by
    rcases List.mem_cons.mp hp with rfl | hp
    · exact Nat.lt_succ_self _
    · exact Nat.lt_succ_of_lt (h.fresh p hp)
  have hnodup : (s.fresh :: s.destroyed).Nodup :=
    List.nodup_cons.mpr ⟨fun hp => lt_irrefl _ (h.fresh _ hp), h.nodup⟩
  exact
    { joins := h.joins
      joined := fun p hp => List.mem_cons_of_mem _ (h.joined p hp)
      fresh := fun p hp => Nat.lt_succ_of_lt (hfresh p hp)
      nodup := hnodup
      info := fun mi hmi => by
        obtain rfl := Option.some.inj hmi
        exact ⟨rd, MasterInfo.holds_of_create hrd rfl (Nat.lt_succ_self _) hnodup
          fun hp => lt_irrefl _ (hfresh _ hp)⟩ }

/-- What a reload destroys: the pool of the settings read first, and of the old object. -/
theorem MasterInfo.Holds.destroyed {om : MasterInfo} {rd : ReqdumpBlock} {fresh : ℕ}
    {destroyed : List ℕ} (h : om.Holds rd fresh destroyed) (hlt : ∀ p ∈ destroyed, p < fresh) :
    (om.pool :: (rd.pools ++ fresh :: destroyed)).Nodup ∧
      ∀ p ∈ om.pool :: (rd.pools ++ fresh :: destroyed), p < fresh + 1 := by
  have hperm : (om.pool :: (rd.pools ++ fresh :: destroyed)).Perm
      (fresh :: (om.pool :: rd.pools ++ destroyed)) :=
    @List.perm_middle _ fresh (om.pool :: rd.pools) destroyed
  have hbelow (p : ℕ) (hp : p ∈ om.pool :: rd.pools ++ destroyed) : p < fresh := by
    rcases List.mem_append.mp hp with hp | hp
    · exact h.fresh p hp
    · exact hlt p hp
  refine ⟨hperm.nodup_iff.mpr (List.nodup_cons.mpr ⟨fun hp => lt_irrefl _ (hbelow _ hp), h.nodup⟩), ?_⟩
  intro p hp
  rcases List.mem_cons.mp (hperm.subset hp) with rfl | hp
  · exact Nat.lt_succ_self _
  · exact Nat.lt_succ_of_lt (hbelow p hp)

/-- What a reload leaves: a new table, and everything of the old object destroyed; or the old table,
whose pool is destroyed. -/
inductive Reloaded (s : RsMaster) (om : MasterInfo) (c : MasterConf) (cancelled : Bool) (t : RsMaster) : Prop
  | created (rd : ReqdumpBlock) (mi : MasterInfo)
      (hnew : c.binlogIndex ≠ om.binlogIdxFile ∧ c.ringbufNum ≠ om.ringbufNum)
      (hcreate : createReqdumpBlock mi.pool c.dumpThread = some rd) (hrd : mi.reqDump = some rd)
      (hpool : mi.pool = s.fresh + 1)
      (ht : t = { info := some mi, fresh := s.fresh + 2, joined := joinsAccept om cancelled ++ s.joined
                  destroyed := rsFreeMaster om ++ s.fresh :: s.destroyed })
  | kept (rd rd' : ReqdumpBlock) (mi : MasterInfo)
      (hnew : ¬ (c.binlogIndex ≠ om.binlogIdxFile ∧ c.ringbufNum ≠ om.ringbufNum))
      (hold : om.reqDump = some rd) (hpool : rd'.pool = rd.pool) (hrd : mi.reqDump = some rd')
      (ht : t.info = some mi) (hdestroyed : om.pool ∈ t.destroyed)

theorem rsInitMaster_spec {om : MasterInfo} (hinfo : s.info = some om) {rd : ReqdumpBlock}
    (hrd : om.reqDump = some rd)
    (hs : rsInitMaster s c cancelled = some t) : Reloaded s om c cancelled t := by
  simp only [rsInitMaster, hinfo, Option.bind_eq_bind, Option.bind_eq_some_iff] at hs
  obtain ⟨-, -, idxFile, hidx, omIdxFile, homIdx, hs⟩ := hs
  have hcmp : (idxFile ≠ omIdxFile ∧ om.ringbufNum ≠ c.ringbufNum) ↔
      (c.binlogIndex ≠ om.binlogIdxFile ∧ c.ringbufNum ≠ om.ringbufNum) := by
    rw [hidx, homIdx, ne_comm (a := om.ringbufNum)]
    simp
  split_ifs at hs with hnd hnl
  · obtain ⟨rd', hrd', hs⟩ := Option.bind_eq_some_iff.mp hs
    exact .created rd' _ (hcmp.mp hnd) hrd' rfl rfl (Option.some.inj hs).symm
  · obtain ⟨rd', hrd', hs⟩ := Option.bind_eq_some_iff.mp hs
    obtain rfl := Option.some.inj (hrd.symm.trans hrd')
    obtain rfl := Option.some.inj hs
    exact .kept rd (rsFreeallReqdumpData rd) _ (mt hcmp.mpr hnd) hrd rfl rfl rfl List.mem_cons_self
  · obtain rfl := Option.some.inj hs
    exact .kept rd rd { om with
      listenAddr := c.listenAddr, listenPort := c.listenPort, binlogIdxFile := c.binlogIndex
      ringbufNum := c.ringbufNum, acceptThreadExit := false, pool := s.fresh + 1 }
      (mt hcmp.mpr hnd) hrd rfl hrd rfl List.mem_cons_self

theorem RsMaster.Inv.reload (h : s.Inv) {om : MasterInfo} (hinfo : s.info = some om)
    (hs : rsInitMaster s c false = some t) (hnew : c.binlogIndex ≠ om.binlogIdxFile ∧ c.ringbufNum ≠ om.ringbufNum) :
    t.Inv := by
  obtain ⟨rd, hh⟩ := h.info om hinfo
  obtain ⟨hnodup, hlt⟩ := hh.destroyed h.fresh
  cases rsInitMaster_spec hinfo hh.reqDump hs with
  | kept _ _ _ hkept => exact absurd hnew hkept
  | created rd' mi _ hcreate hrd' hpool ht =>
    have hfree : rsFreeMaster om ++ s.fresh :: s.destroyed = om.pool :: (rd.pools ++ s.fresh :: s.destroyed) := by
      rw [rsFreeMaster, hh.reqDump]
      rfl
    rw [hfree] at ht
    subst ht
    have hfresh : s.fresh + 1 ∉ om.pool :: (rd.pools ++ s.fresh :: s.destroyed) := fun hp => lt_irrefl _ (hlt _ hp)
    refine ⟨?_, ?_, fun p hp => Nat.lt_succ_of_lt (hlt p hp), hnodup, ?_⟩
    · exact List.nodup_cons.mpr ⟨fun hp => hh.notMem List.mem_cons_self (h.joined _ hp), h.joins⟩
    · intro p hp
      rcases List.mem_cons.mp hp with rfl | hp
      · exact List.mem_cons_self
      · exact List.mem_cons_of_mem _ (List.mem_append_right _ (List.mem_cons_of_mem _ (h.joined p hp)))
    · intro mi' hmi'
      obtain rfl := Option.some.inj hmi'
      exact ⟨rd', MasterInfo.holds_of_create hcreate hrd' (hpool ▸ Nat.lt_succ_self _) hnodup (hpool ▸ hfresh)⟩

/-- A reload after which everything is safe meets the condition. -/
theorem RsMaster.Inv.reloadOk_of_safe (h : s.Inv) {om : MasterInfo} (hinfo : s.info = some om)
    (hs : rsInitMaster s c cancelled = some t) (hsafe : t.Safe) :
    cancelled = false ∧ c.binlogIndex ≠ om.binlogIdxFile ∧ c.ringbufNum ≠ om.ringbufNum := by
  obtain ⟨rd, hh⟩ := h.info om hinfo
  cases rsInitMaster_spec hinfo hh.reqDump hs with
  | created rd' mi hnew hcreate hrd' hpool ht =>
    refine ⟨?_, hnew⟩
    cases cancelled with
    | false => rfl
    | true =>
      have hjoins := hsafe.joins
      rw [ht] at hjoins
      exact absurd List.mem_cons_self (List.nodup_cons.mp hjoins).1
  | kept rd₀ rd' mi _ hold hpool hrd' ht hdestroyed =>
    obtain rfl := Option.some.inj (hold.symm.trans hh.reqDump)
    refine absurd ?_ (hsafe.reqDump mi rd' ht hrd').1
    rwa [hpool, hh.pool]

/-- A reload leaves everything safe exactly if it meets the condition. -/
theorem RsMaster.Inv.init_iff (h : s.Inv) (hs : rsInitMaster s c cancelled = some t) :
    (s.ReloadOk (.init c cancelled) → t.Inv) ∧ (t.Safe → s.ReloadOk (.init c cancelled)) := by
  cases hinfo : s.info with
  | none =>
    refine ⟨fun _ => h.init_start hinfo hs, fun _ om hom => ?_⟩
    rw [hinfo] at hom
    cases hom
  | some om =>
    constructor
    · intro hok
      obtain ⟨rfl, hnew⟩ := hok om hinfo
      exact h.reload hinfo hs hnew
    · intro hsafe om' hom'
      obtain rfl := Option.some.inj (hinfo.symm.trans hom')
      exact h.reloadOk_of_safe hinfo hs hsafe

/-- The open slots of a table after slot `i` was set to `d`. -/
theorem opened_set_some {rd : ReqdumpBlock} {i : ℕ} (hfree : rd.slots[i]? = some none) (d : OpenSlot) :
    (ReqdumpBlock.opened { rd with slots := rd.slots.set i (some d) }).Perm (d :: rd.opened) := by
  obtain ⟨r, hperm, hset⟩ := perm_set hfree
  have hr : rd.opened.Perm (r.filterMap id) := hperm.filterMap id
  exact ((hset (some d)).filterMap id).trans (hr.symm.cons d)

theorem opened_set_none {rd : ReqdumpBlock} {i : ℕ} {d : OpenSlot} (hslot : rd.slots[i]? = some (some d)) :
    rd.opened.Perm (d :: ReqdumpBlock.opened { rd with slots := rd.slots.set i none }) := by
  obtain ⟨r, hperm, hset⟩ := perm_set hslot
  have hr : ((rd.slots.set i none).filterMap id).Perm (r.filterMap id) := (hset none).filterMap id
  exact (hperm.filterMap id).trans (hr.symm.cons d)

theorem RsMaster.Inv.connect (h : s.Inv) {i : ℕ} (hs : masterStep s (.connect i) = some t) : t.Inv := by
  simp only [masterStep, Option.bind_eq_bind, Option.bind_eq_some_iff] at hs
  obtain ⟨mi, hmi, rd, hrd, hs⟩ := hs
  split_ifs at hs with hfree
  obtain rfl := Option.some.inj hs
  have hh := h.holds hmi hrd
  have hopened := opened_set_some hfree.2 { pool := s.fresh, binlogIdxFile := mi.idxPool }
  have hpools := hopened.map OpenSlot.pool
  have hbelow (p : ℕ) (hp : p ∈ mi.pool :: rd.pools ++ s.destroyed) : p < s.fresh := by
    rcases List.mem_append.mp hp with hp | hp
    · exact hh.fresh p hp
    · exact h.fresh p hp
  refine
    { joins := h.joins
      joined := h.joined
      fresh := fun p hp => Nat.lt_succ_of_lt (h.fresh p hp)
      nodup := h.nodup
      info := fun mi' hmi' => ?_ }
  obtain rfl := Option.some.inj hmi'
  refine ⟨_, rfl, hh.pool, hh.block, fun d' hd' => ?_, fun p hp => ?_, ?_⟩
  · rcases List.mem_cons.mp (hopened.subset hd') with rfl | hd'
    · rfl
    · exact hh.idxFile d' hd'
  · rcases List.mem_cons.mp hp with rfl | hp
    · exact Nat.lt_succ_of_lt (hh.fresh _ List.mem_cons_self)
    · rcases List.mem_cons.mp (hpools.subset hp) with rfl | hp
      · exact Nat.lt_succ_self _
      · exact Nat.lt_succ_of_lt (hh.fresh p (List.mem_cons_of_mem _ hp))
  · have hperm := ((hpools.cons mi.pool).append_right s.destroyed).trans (List.Perm.swap _ _ _)
    exact hperm.nodup_iff.mpr (List.nodup_cons.mpr ⟨fun hp => lt_irrefl _ (hbelow _ hp), hh.nodup⟩)

theorem RsMaster.Inv.close (h : s.Inv) {i : ℕ} (hs : masterStep s (.close i) = some t) : t.Inv := by
  simp only [masterStep, Option.bind_eq_bind, Option.bind_eq_some_iff] at hs
  obtain ⟨mi, hmi, rd, hrd, o, hslot, d, rfl, hs⟩ := hs
  obtain rfl := Option.some.inj hs
  have hh := h.holds hmi hrd
  have hopened := opened_set_none hslot
  have hpools := hopened.map OpenSlot.pool
  have hperm : (mi.pool :: rd.pools ++ s.destroyed).Perm
      (mi.pool :: ReqdumpBlock.pools { rd with slots := rd.slots.set i none } ++ (d.pool :: s.destroyed)) :=
    (((hpools.cons mi.pool).append_right s.destroyed).trans (List.Perm.swap _ _ _)).trans
      (@List.perm_middle _ d.pool
        (mi.pool :: ReqdumpBlock.pools { rd with slots := rd.slots.set i none }) s.destroyed).symm
  have hdpool : d.pool ∈ rd.pools := hpools.symm.subset List.mem_cons_self
  have hnodup := hperm.nodup_iff.mp hh.nodup
  refine
    { joins := h.joins
      joined := fun p hp => List.mem_cons_of_mem _ (h.joined p hp)
      fresh := fun p hp => ?_
      nodup := (List.nodup_append.mp hnodup).2.1
      info := fun mi' hmi' => ?_ }
  · rcases List.mem_cons.mp hp with rfl | hp
    · exact hh.fresh _ (List.mem_cons_of_mem _ hdpool)
    · exact h.fresh p hp
  · obtain rfl := Option.some.inj hmi'
    refine ⟨_, rfl, hh.pool, hh.block, fun d' hd' => hh.idxFile d' (hopened.symm.subset (List.mem_cons_of_mem _ hd')),
      fun p hp => ?_, hnodup⟩
    rcases List.mem_cons.mp hp with rfl | hp
    · exact hh.fresh _ List.mem_cons_self
    · exact hh.fresh p (List.mem_cons_of_mem _ (hpools.symm.subset (List.mem_cons_of_mem _ hp)))

theorem RsMaster.Inv.acceptFails (h : s.Inv) (hs : masterStep s .acceptFails = some t) : t.Inv := by
  obtain ⟨mi, hmi, rfl⟩ := Option.map_eq_some_iff.mp hs
  refine ⟨h.joins, h.joined, h.fresh, h.nodup, fun mi' hmi' => ?_⟩
  obtain rfl := Option.some.inj hmi'
  obtain ⟨rd, hh⟩ := h.info mi hmi
  exact ⟨rd, hh.reqDump, hh.pool, hh.block, hh.idxFile, hh.fresh, hh.nodup⟩

theorem RsMaster.inv_start : RsMaster.start.Inv :=
  { joins := List.nodup_nil, joined := nofun, fresh := nofun, nodup := List.nodup_nil, info := nofun }

theorem RsMaster.Inv.step (a : MasterAct) (h : s.Inv) (hs : masterStep s a = some t)
    (hok : s.ReloadOk a) : t.Inv := by
  cases a with
  | init c cancelled => exact (h.init_iff hs).1 hok
  | connect i => exact h.connect hs
  | acceptFails => exact h.acceptFails hs
  | close i => exact h.close hs

/-- Over a run from the start every state is safe exactly if every reload meets the condition. -/
theorem reloads_safe_iff (acts : List MasterAct) (t : RsMaster)
    (hrun : exec masterStep .start acts = some t) :
    (∀ k u, exec masterStep .start (acts.take k) = some u → u.Safe) ↔
      Along masterStep RsMaster.ReloadOk .start acts := by
  refine along_iff_states (fun s hs => RsMaster.Inv.safe hs) (fun s a t hs hstep hok => hs.step a hstep hok)
    (fun s a t hs hstep => ⟨fun hok => (hs.step a hstep hok).safe, fun hsafe => ?_⟩)
    RsMaster.inv_start hrun
  cases a with
  | init c cancelled => exact (hs.init_iff hstep).2 hsafe
  | connect i => trivial
  | acceptFails => trivial
  | close i => trivial

def sampleConf : MasterConf :=
  { listenAddr := [49], listenPort := 1919, binlogIndex := some [105], ringbufNum := 5000
    dumpThread := 36 }

/-- A session, the end of the accept thread, and a reload with a new index file and a new ring. -/
def sampleActs : List MasterAct :=
  [.init sampleConf false, .connect 0, .acceptFails,
    .init { sampleConf with binlogIndex := some [106], ringbufNum := 10 } false]

theorem reloads_safe_sample :
    (∀ k u, exec masterStep .start (sampleActs.take k) = some u → u.Safe) ↔
      Along masterStep RsMaster.ReloadOk .start sampleActs :=
  reloads_safe_iff sampleActs _ rfl

/-- A reload of the same settings behind the end of the accept thread: every call is defined, and the
table lies in a destroyed pool. -/
theorem reload_keeps_freed :
    ∃ t mi rd p, exec masterStep .start [.init sampleConf false, .acceptFails, .init sampleConf false] = some t ∧
      t.joined.Nodup ∧ t.info = some mi ∧ mi.reqDump = some rd ∧ rd.block = some p ∧ p ∈ t.destroyed :=
  ⟨_, _, _, 1, rfl, by decide, rfl, rfl, rfl, by decide⟩

/-- A reload while the accept thread runs joins it twice. -/
example : (exec masterStep .start [.init sampleConf false, .init sampleConf true]).map RsMaster.joined =
    some [1, 1] := rfl

end MySQLSyncer.Master
