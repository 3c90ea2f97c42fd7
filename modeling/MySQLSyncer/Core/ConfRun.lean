import MySQLSyncer.Core.ConfPool
import MySQLSyncer.Core.FailedAlloc

/-! # Runs of a configuration on its pool

Every call of `rs_palloc` and `rs_pfree` in a step of the configuration is a call on the pool, so the
chunks that the configuration and the other users record are live in every state of a run.
-/
namespace MySQLSyncer.Core
open Lib

/-- The length that `rs_palloc` asks `malloc` for, if it calls it. -/
def askedLen (p : RsPool) (size : ℕ) (id : ℤ) : ℕ :=
  if id = RsCode.slabOverflow.toInt then size else ((p.classAt id).map slabLen).getD 0

def pallocCall (libc : Libc) (p : RsPool) (size : ℕ) (id : ℤ) : TryCall :=
  .palloc size id (libc.malloc (askedLen p size id)) libc.realloc

def sizeCall (libc : Libc) (p : RsPool) (size : ℕ) : List TryCall :=
  (rsPallocId p size).toList.map (pallocCall libc p size)

structure ConfRun where
  conf : ConfUse
  run : PoolRun

def ConfRun.calls (w : ConfRun) : ConfOp → List TryCall
  | .register key _ _ entry node =>
    sizeCall entry w.conf.pool confDataSize ++
      match pallocSize entry w.conf.pool confDataSize with
      | some (_, some _, p) => if w.conf.table.hasKey key then [] else sizeCall node p shashNodeSize
      | _ => []
  | .apply key val libc =>
    match (rsShashGet w.conf.table key).2 with
    | some n => if n.val.type = .str then sizeCall libc w.conf.pool (strSize val) else []
    | none => []
  | .palloc size id libc => [pallocCall libc w.conf.pool size id]
  | .pfree x libc => ((w.run.live.find? fun y => y.handle = x).map fun y => .pfree y libc.realloc).toList

def confRunStep (w : ConfRun) (a : ConfOp) : Option ConfRun := do
  let t ← confStep w.conf a
  let r ← exec tryStep w.run (w.calls a)
  some ⟨t, r⟩

def NoLoss (r : PoolRun) (calls : List TryCall) : Prop := Along tryStep (fun s a => ¬ a.LosesSlabs s.pool) r calls

structure PoolRun.Holds (r : PoolRun) (p : RsPool) (hs : List Handle) : Prop where
  kept : r.Kept
  pool : r.pool = p
  live : hs.Subperm (r.live.map Chunk.handle)

variable {libc : Libc} {p q : RsPool} {c d : RsPoolClass} {size : ℕ} {id : ℤ} {t : Option ℕ} {r r' : PoolRun}
  {hs : List Handle} {w v : ConfRun} {a : ConfOp}

theorem slabLen_grow (libc : Libc) (c : RsPoolClass) : slabLen (rsPallocGrow libc c).2 = slabLen c := by
  unfold rsPallocGrow
  split_ifs <;> rfl

theorem rsPallocNew_asked (libc : Libc) (p : RsPool) (id : ℤ) (c : RsPoolClass) :
    rsPallocNew ⟨fun _ => libc.malloc (slabLen c), libc.realloc⟩ p id c = rsPallocNew libc p id c := by
  have hgrow : rsPallocGrow ⟨fun _ => libc.malloc (slabLen c), libc.realloc⟩ c = rsPallocGrow libc c := rfl
  have hlen := slabLen_grow libc c
  rw [rsPallocNew, rsPallocNew, hgrow]
  generalize rsPallocGrow libc c = x at hlen
  obtain ⟨code, d⟩ := x
  cases code <;> simp only [rsPmemalloc, ← hlen]

/-- `rs_palloc` calls `malloc` for one length only. -/
theorem rsPalloc_asked (libc : Libc) (p : RsPool) (size : ℕ) (id : ℤ) :
    rsPalloc ⟨fun _ => libc.malloc (askedLen p size id), libc.realloc⟩ p size id = rsPalloc libc p size id := by
  by_cases ho : id = RsCode.slabOverflow.toInt
  · simp [rsPalloc, askedLen, ho]
  cases hc : p.classAt id with
  | none => simp [rsPalloc, ho, hc]
  | some c =>
    have hasked : askedLen p size id = slabLen c := by
      simp [askedLen, ho, hc]
    rw [hasked, rsPalloc_class ho hc, rsPalloc_class ho hc, rsPallocNew_asked]

theorem PoolRun.Holds.call (h : r.Holds p hs) (hrun : rsPalloc libc p size id = some (t, q))
    (hkeep : ¬ (pallocCall libc p size id).LosesSlabs p) (hstep : tryStep r (pallocCall libc p size id) = some r') :
    r'.Holds q ((t.map fun t => (id, t)).toList ++ hs) := by
  obtain ⟨hkept, rfl, hlive⟩ := h
  rw [← rsPalloc_asked] at hrun
  have hafter := tryStep_palloc (tryStep_admits hstep) hrun
  obtain rfl := Option.some.inj (hafter.symm.trans hstep)
  refine ⟨hkept.step hkeep hstep, rfl, ?_⟩
  cases t with
  | none => exact hlive
  | some t => exact (List.subperm_cons (id, t)).mpr hlive

theorem PoolRun.Holds.pallocSize (h : r.Holds p hs) (hrun : pallocSize libc p size = some (id, t, q))
    (hkeep : NoLoss r (sizeCall libc p size)) (hstep : exec tryStep r (sizeCall libc p size) = some r') :
    r'.Holds q ((t.map fun t => (id, t)).toList ++ hs) := by
  obtain ⟨i, hi, hrun⟩ := Option.bind_eq_some_iff.mp hrun
  obtain ⟨⟨u, p'⟩, hpalloc, hrun⟩ := Option.bind_eq_some_iff.mp hrun
  cases hrun
  have hcall : sizeCall libc p size = [pallocCall libc p size id] := by
    simp [sizeCall, hi]
  rw [hcall] at hkeep hstep
  obtain ⟨v, hv, hlast⟩ := Option.bind_eq_some_iff.mp hstep
  obtain rfl := Option.some.inj hlast
  exact h.call hpalloc (h.pool ▸ hkeep.1) hv

/-- A call of `rs_pfree` for a chunk of another user. The pool may fail to record the chunk. -/
theorem PoolRun.Holds.pfree {others : List Handle} {y : Chunk} (h : r.Holds p (hs ++ others)) (hy : y.handle ∈ others)
    (hrun : rsPfree libc p y.extent.addr y.id = some q) (hstep : tryStep r (.pfree y libc.realloc) = some r') :
    r'.Holds q (hs ++ others.erase y.handle) := by
  obtain ⟨hkept, rfl, hlive⟩ := h
  have hadm := tryStep_admits hstep
  have hkept' : r'.Kept := hkept.step (a := .pfree y libc.realloc) not_false hstep
  have hafter : r' = r.after none q (.pfree y libc.realloc) := by
    rw [tryStep, if_pos hadm, tryPool] at hstep
    have hsame : rsPfree ⟨fun _ => none, libc.realloc⟩ r.pool y.extent.addr y.id = some q := hrun
    rw [hsame] at hstep
    exact (Option.some.inj hstep).symm
  refine ⟨hkept', congrArg (fun s => s.pool) hafter, ?_⟩
  rw [hafter, PoolRun.after]
  dsimp only
  split_ifs
  · exact (List.erase_sublist.append_left hs).subperm.trans hlive
  · have hothers : (y.handle :: (hs ++ others.erase y.handle)).Perm (hs ++ others) :=
      List.perm_middle.symm.trans ((List.perm_cons_erase hy).symm.append_left hs)
    have hchunks : (y.handle :: (r.live.erase y).map Chunk.handle).Perm (r.live.map Chunk.handle) :=
      ((List.perm_cons_erase hadm).map Chunk.handle).symm
    exact (List.subperm_cons y.handle).mp (hothers.subperm.trans (hlive.trans hchunks.symm.subperm))

def ConfRun.Sound (w : ConfRun) : Prop := w.run.Holds w.conf.pool (w.conf.own ++ w.conf.others)

theorem ConfRun.Sound.register {key : ShashKey} {data : ℕ} {type : ConfType} {entry node : Libc} {code : RsCode}
    {t : ConfUse} (h : w.Sound) (hrun : rsConfRegister entry node w.conf key data type = some (code, t))
    (hkeep : NoLoss w.run (w.calls (.register key data type entry node)))
    (hstep : exec tryStep w.run (w.calls (.register key data type entry node)) = some r') :
    ConfRun.Sound ⟨t, r'⟩ := by
  obtain ⟨hkeep, hlater⟩ := along_append.mp hkeep
  obtain ⟨r₁, hr₁, hrest⟩ := exec_append_eq_some.mp hstep
  replace hlater := hlater r₁ hr₁
  cases rsConfRegister_spec hrun with
  | noEntry hentry =>
    simp only [hentry] at hrest
    cases hrest
    exact PoolRun.Holds.pallocSize h hentry hkeep hr₁
  | keyFound hentry hkey =>
    simp only [hentry, hkey] at hrest
    cases hrest
    exact PoolRun.Holds.pallocSize h hentry hkeep hr₁
  | noNode hentry hkey hnode =>
    simp only [hentry, hkey] at hrest hlater
    exact (PoolRun.Holds.pallocSize h hentry hkeep hr₁).pallocSize hnode hlater hrest
  | added hentry hkey hnode =>
    simp only [hentry, hkey] at hrest hlater
    exact (PoolRun.Holds.pallocSize h hentry hkeep hr₁).pallocSize hnode hlater hrest

theorem ConfRun.Sound.apply {key : ShashKey} {val : List UInt8} {code : RsCode} {t : ConfUse} (h : w.Sound)
    (hrun : rsConfApplyIn libc w.conf key val = some (code, t))
    (hkeep : NoLoss w.run (w.calls (.apply key val libc)))
    (hstep : exec tryStep w.run (w.calls (.apply key val libc)) = some r') : ConfRun.Sound ⟨t, r'⟩ := by
  simp only [ConfRun.calls] at hkeep hstep
  cases rsConfApplyIn_spec hrun with
  | refused hnone =>
    cases hget : (rsShashGet w.conf.table key).2 with
    | none =>
      rw [hget] at hstep
      cases hstep
      exact h
    | some n =>
      simp only [hget, hnone n hget] at hstep
      cases hstep
      exact h
  | number hget hstr hnull =>
    simp only [hget, if_neg hstr] at hstep
    cases hstep
    exact h
  | noString hget hstr hpalloc =>
    simp only [hget, if_pos hstr] at hkeep hstep
    exact PoolRun.Holds.pallocSize h hpalloc hkeep hstep
  | stored hget hstr hpalloc =>
    simp only [hget, if_pos hstr] at hkeep hstep
    exact PoolRun.Holds.pallocSize h hpalloc hkeep hstep

theorem ConfRun.Sound.find (h : w.Sound) {x : Handle} (hx : x ∈ w.conf.others) :
    ∃ y, w.run.live.find? (fun y => y.handle = x) = some y ∧ y.handle = x := by
  obtain ⟨y, hy, rfl⟩ := List.mem_map.mp (h.live.subset (List.mem_append_right w.conf.own hx))
  have hsome : (w.run.live.find? fun z => z.handle = y.handle).isSome :=
    List.find?_isSome.mpr ⟨y, hy, decide_eq_true rfl⟩
  obtain ⟨z, hz⟩ := Option.isSome_iff_exists.mp hsome
  have hhandle := List.find?_some hz
  exact ⟨z, hz, of_decide_eq_true hhandle⟩

theorem confRunStep_conf (h : confRunStep w a = some v) : confStep w.conf a = some v.conf := by
  obtain ⟨t, ht, h⟩ := Option.bind_eq_some_iff.mp h
  obtain ⟨r, -, h⟩ := Option.bind_eq_some_iff.mp h
  cases h
  exact ht

theorem ConfRun.Sound.step (h : w.Sound) (hkeep : NoLoss w.run (w.calls a)) (hstep : confRunStep w a = some v) :
    v.Sound := by
  obtain ⟨t, ht, hstep⟩ := Option.bind_eq_some_iff.mp hstep
  obtain ⟨r', hr', hstep⟩ := Option.bind_eq_some_iff.mp hstep
  cases hstep
  cases a with
  | register key data type entry node =>
    obtain ⟨⟨code, t⟩, hrun, rfl⟩ := Option.map_eq_some_iff.mp ht
    exact h.register hrun hkeep hr'
  | apply key val libc =>
    obtain ⟨⟨code, t⟩, hrun, rfl⟩ := Option.map_eq_some_iff.mp ht
    exact h.apply hrun hkeep hr'
  | palloc size id libc =>
    obtain ⟨⟨u, p⟩, hrun, rfl⟩ := Option.map_eq_some_iff.mp ht
    obtain ⟨r₁, hr₁, hlast⟩ := Option.bind_eq_some_iff.mp hr'
    cases hlast
    have hkeep₁ : ¬ (pallocCall libc w.conf.pool size id).LosesSlabs w.conf.pool := h.pool ▸ hkeep.1
    have hholds := PoolRun.Holds.call h hrun hkeep₁ hr₁
    refine { hholds with live := List.Perm.subperm ?_ |>.trans hholds.live }
    rw [← List.append_assoc, ← List.append_assoc]
    exact List.perm_append_comm.append_right w.conf.others
  | pfree x libc =>
    rw [confStep] at ht
    obtain ⟨hx, ht⟩ := Option.ite_none_right_eq_some.mp ht
    obtain ⟨p, hrun, rfl⟩ := Option.map_eq_some_iff.mp ht
    obtain ⟨y, hy, rfl⟩ := h.find hx
    simp only [ConfRun.calls, hy, Option.map_some, Option.toList_some] at hr'
    obtain ⟨r₁, hr₁, hlast⟩ := Option.bind_eq_some_iff.mp hr'
    cases hlast
    exact PoolRun.Holds.pfree h hx hrun hr₁

theorem ConfRun.Sound.onPool (h : w.Sound) : w.conf.OnPool w.run.toPoolUse := ⟨h.pool, h.live, h.kept.inv⟩

theorem rsCreateConf_sound {num : UInt32} {s₀ : ConfUse} (h : r.Holds p hs)
    (hcreate : rsCreateConf libc p num hs = some s₀)
    (hkeep : NoLoss r (sizeCall libc p (shashSize num)))
    (hstep : exec tryStep r (sizeCall libc p (shashSize num)) = some r') : ConfRun.Sound ⟨s₀, r'⟩ := by
  obtain ⟨-, hcreate⟩ := Option.ite_none_left_eq_some.mp hcreate
  obtain ⟨⟨id, u, q⟩, hpalloc, hcreate⟩ := Option.bind_eq_some_iff.mp hcreate
  obtain ⟨c, rfl, rfl⟩ := Option.map_eq_some_iff.mp hcreate
  exact h.pallocSize hpalloc hkeep hstep

/-- In every run on a pool that loses no slabs, with the variables of the owner in other memory, the
configuration is separate from them, and a teardown that is exact gives its chunks back to the pool
and leaves what was live besides. -/
theorem conf_run_teardown {num : UInt32} {s₀ : ConfUse} (h : r.Holds p hs)
    (hcreate : rsCreateConf libc p num hs = some s₀) (hkeep : NoLoss r (sizeCall libc p (shashSize num)))
    (hstep : exec tryStep r (sizeCall libc p (shashSize num)) = some r') (as : List ConfOp)
    (hloss : Along confRunStep (fun w a => NoLoss w.run (w.calls a)) ⟨s₀, r'⟩ as)
    (hrun : exec confRunStep ⟨s₀, r'⟩ as = some w)
    (hvars : ∀ n ∈ w.conf.nodes, w.conf.Foreign w.run.toPoolUse n.val.data) :
    w.conf.Separate ∧ (w.conf.FreesOwn → ∃ (xs : List Chunk) (v : PoolUse),
      rsDestroyConf w.conf = some (xs.map Chunk.handle) ∧
      exec poolStep w.run.toPoolUse (xs.map PoolCall.pfree) = some v ∧ v.Inv ∧
      (w.conf.own ++ v.live.map Chunk.handle).Perm (w.run.live.map Chunk.handle)) := by
  have hsound : w.Sound := exec_invariant_along _ (fun _ _ _ hu hok ht => hu.step hok ht)
    (rsCreateConf_sound h hcreate hkeep hstep) hloss hrun
  have haccounts : w.conf.Accounts := exec_invariant (I := fun u : ConfRun => u.conf.Accounts)
    (fun _ _ _ hu ht => (hu.step (confRunStep_conf ht)).accounts) (rsCreateConf_accounts hcreate).1 hrun
  have hsep := hsound.onPool.separate hvars
  exact ⟨hsep, fun hfrees => hsound.onPool.teardown haccounts ((haccounts.freesOwn_iff hsep).mp hfrees)⟩

/-- Chunks of a region for the table, an entry with its node, and another user. -/
example : let libc : Libc := ⟨fun _ => none, true⟩
    let p := newPool .prealloc 8192 4096 256 [(256, 16)]
    let key : ShashKey := ⟨[112, 105, 100], by decide⟩
    ((rsCreateConf libc p 16 []).bind fun s₀ =>
      (exec tryStep ⟨⟨p, []⟩, []⟩ (sizeCall libc p (shashSize 16))).bind fun r =>
        (exec confRunStep ⟨s₀, r⟩ [.register key 100 .uint32 libc libc, .palloc 40 0 libc]).map fun w =>
          w.run.live.map Chunk.handle) = some [(0, 8960), (0, 8704), (0, 8448), (0, 8192)] := by
  decide +kernel

end MySQLSyncer.Core
