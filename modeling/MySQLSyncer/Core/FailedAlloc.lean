import MySQLSyncer.Core.CreatePool
import MySQLSyncer.Core.Recycle
import MySQLSyncer.Core.SpareRoom

/-! # Allocations that fail

`rs_palloc` fails when `malloc` or `realloc` does or the pool is used up, `rs_pfree` when `realloc`
does. A run keeps the slabs that the pool got from `rs_pmemalloc`, wherever the pool records them.
-/
namespace MySQLSyncer.Core
open Lib

inductive TryCall where
  | palloc (size : ℕ) (id : ℤ) (malloc : Option ℕ) (realloc : Bool)
  | pfree (x : Chunk) (realloc : Bool)
  deriving DecidableEq, Repr

/-- The pointer that a call returns, and the pool behind it. -/
def tryPool (p : RsPool) : TryCall → Option (Option ℕ × RsPool)
  | .palloc size id malloc realloc => rsPalloc ⟨fun _ => malloc, realloc⟩ p size id
  | .pfree x realloc => (rsPfree ⟨fun _ => none, realloc⟩ p x.extent.addr x.id).map (none, ·)

/-- `rs_palloc` returns no chunk, `rs_pfree` does not record its chunk. -/
def TryCall.Fails (p : RsPool) : TryCall → Prop
  | .palloc size id malloc realloc =>
    (rsPalloc ⟨fun _ => malloc, realloc⟩ p size id).map Prod.fst = some none
  | .pfree x realloc => realloc = false ∧ ∃ c ∈ p.classAt x.id, c.freeChunk.length = c.totalFree

instance (p : RsPool) : DecidablePred (TryCall.Fails p)
  | .palloc _ _ _ _ => inferInstanceAs (Decidable (_ = _))
  | .pfree _ _ => inferInstanceAs (Decidable (_ ∧ _))

/-- The slab that `rs_palloc_new` gets in this call. -/
def newSlab (libc : Libc) (p : RsPool) (id : ℤ) : Option ℕ :=
  (p.classAt id).bind fun c =>
    if c.chunk = none ∧ c.freeChunk = [] then
      match rsPallocGrow libc c with
      | (.ok, c) => (rsPmemalloc libc (p.setClass id c) (slabLen c)).1
      | _ => none
    else none

structure PoolRun extends PoolUse where
  got : List ℕ
  deriving DecidableEq, Repr

/-- What `malloc` returns is apart from everything that it returned before. A chunk that
`rs_pfree` could not record is still in use. -/
def PoolRun.Admits (s : PoolRun) : TryCall → Prop
  | .palloc size id malloc _ =>
    (id = RsCode.slabOverflow.toInt ∨ (s.pool.classAt id).isSome) ∧
      ∀ t ∈ malloc, ∀ b ∈ s.blocks, (Extent.mk t (mallocLen s.pool size id)).Apart b
  | .pfree x _ => x ∈ s.live

instance (s : PoolRun) : DecidablePred s.Admits
  | .palloc _ _ _ _ => inferInstanceAs (Decidable (_ ∧ _))
  | .pfree _ _ => inferInstanceAs (Decidable (_ ∈ _))

def PoolRun.after (s : PoolRun) (t : Option ℕ) (p : RsPool) : TryCall → PoolRun
  | .palloc size id malloc realloc =>
    ⟨⟨p, (t.map fun t => ⟨id, t, chunkLen s.pool size id⟩).toList ++ s.live⟩,
      s.got ++ (newSlab ⟨fun _ => malloc, realloc⟩ s.pool id).toList⟩
  | .pfree x realloc =>
    ⟨⟨p, if (TryCall.pfree x realloc).Fails s.pool then s.live else s.live.erase x⟩, s.got⟩

def tryStep (s : PoolRun) (a : TryCall) : Option PoolRun :=
  if s.Admits a then (tryPool s.pool a).map fun x => s.after x.1 x.2 a else none

/-- A call for which neither `malloc` nor `realloc` fails. -/
def TryCall.ofCall : PoolCall → TryCall
  | .palloc size id answer => .palloc size id (some answer) true
  | .pfree x => .pfree x true

/-- The class has no chunk left and a full directory, for which `realloc` fails. -/
def TryCall.LosesSlabs (p : RsPool) : TryCall → Prop
  | .palloc _ id _ realloc => realloc = false ∧ ∃ c ∈ p.classAt id, c.chunk = none ∧
      c.freeChunk = [] ∧ c.usedSlab = c.totalSlab ∧ c.totalSlab ≠ 0
  | .pfree _ _ => False

instance (p : RsPool) : DecidablePred (TryCall.LosesSlabs p)
  | .palloc _ _ _ _ => inferInstanceAs (Decidable (_ ∧ _))
  | .pfree _ _ => inferInstanceAs (Decidable False)

inductive TryCall.Eased : TryCall → TryCall → Prop
  | refl (a : TryCall) : Eased a a
  | palloc (size : ℕ) (id : ℤ) (malloc : Option ℕ) (realloc : Bool) :
    Eased (.palloc size id malloc realloc) (.palloc size id malloc true)

/-- What the users of a pool see of later calls: the pointers returned, and the slabs that are
freed when the pool is destroyed behind them. -/
def laterCalls (p : RsPool) (as : List TryCall) : Option (List (Option ℕ) × List ℕ) :=
  (replies tryPool p as).bind fun x => (rsDestroyPool x.2).map fun l => (x.1, l.filterMap Freed.slab?)

def RsPoolClass.holding (c : RsPoolClass) : List Extent × List ℕ × Option ℕ × ℕ :=
  (c.slabs, c.freeChunk, c.chunk, c.free)

/-- Destroying the pool frees each slab and each array that it has, once, and nothing else; the
slabs of a preallocated pool lie in its block. -/
structure PoolRun.FreesOnce (s : PoolRun) : Prop where
  frees : ∃ l, rsDestroyPool s.pool = some l ∧ l.Nodup ∧ ∀ f, f ∈ l ↔ s.pool.Owns s.got f
  region : s.pool.flag = .prealloc → ∀ a ∈ s.got, s.pool.start ≤ a ∧ a < s.pool.start + s.pool.maxSize

structure PoolRun.UsableAfter (s t : PoolRun) : Prop where
  owns : t.pool.slabClass.map RsPoolClass.holding = s.pool.slabClass.map RsPoolClass.holding
  later : ∀ as, ∃ bs, List.Forall₂ TryCall.Eased as bs ∧ laterCalls t.pool as = laterCalls s.pool bs
  destroys : t.FreesOnce

variable {s t : PoolRun} {p q : RsPool} {c d : RsPoolClass} {i : ℕ} {id : ℤ} {libc : Libc}

theorem poolStep_eq_tryStep (s : PoolRun) (a : PoolCall) :
    poolStep s.toPoolUse a = (tryStep s (.ofCall a)).map PoolRun.toPoolUse := by
  have hadmits : s.toPoolUse.Enabled a ↔ s.Admits (.ofCall a) := by
    cases a <;> simp [PoolUse.Enabled, PoolRun.Admits, TryCall.ofCall]
  rw [poolStep, tryStep, if_congr hadmits rfl rfl]
  split_ifs
  · cases a with
    | palloc size id answer =>
      simp only [poolCall, TryCall.ofCall, tryPool, Option.map_map]
      rfl
    | pfree x =>
      have hfails : ¬ (TryCall.pfree x true).Fails s.pool := fun h => nomatch h.1
      simp only [poolCall, TryCall.ofCall, tryPool, Option.map_map, Function.comp_def, PoolRun.after,
        if_neg hfails]
  · rfl

theorem tryPool_spare (h : p.Spare q) (a : TryCall) :
    ∃ b, a.Eased b ∧ Option.Rel (Agree RsPool.Spare) (tryPool p a) (tryPool q b) := by
  cases a with
  | palloc size id malloc realloc =>
    obtain ⟨r, hr, hrel⟩ := rsPalloc_spare h ⟨fun _ => malloc, realloc⟩ size id
    rcases hr with rfl | rfl
    · exact ⟨_, .refl _, hrel⟩
    · exact ⟨_, .palloc size id malloc realloc, hrel⟩
  | pfree x realloc =>
    exact ⟨_, .refl _, rel_map (rsPfree_spare h _ _ _) fun _ _ hpool => ⟨rfl, hpool⟩⟩

theorem laterCalls_spare (h : p.Spare q) (as : List TryCall) :
    ∃ bs, List.Forall₂ TryCall.Eased as bs ∧ laterCalls p as = laterCalls q bs := by
  obtain ⟨bs, hbs, hrel⟩ := replies_agree TryCall.Eased.refl (fun _ _ a h => tryPool_spare h a) as h
  refine ⟨bs, hbs, eq_of_rel (rel_bind hrel fun x y hxy => ?_)⟩
  exact rel_map (rsDestroyPool_spare hxy.2) fun l m hlm => by rw [hxy.1, hlm]

theorem RsPoolClass.Spare.holding (h : c.Spare d) : c.holding = d.holding := by
  cases h with
  | refl => rfl
  | grown _ hfull hcells hlt =>
    have hgt := growCapacity_gt hlt
    have hslabs : d.grown.slabs = d.slabs :=
      slabs_withSlab (take_resizeSlab (hfull.trans hcells.symm).le (hfull ▸ hgt.le))
    rw [RsPoolClass.holding, hslabs]
    rfl

theorem RsPool.Spare.holding (h : p.Spare q) :
    p.slabClass.map RsPoolClass.holding = q.slabClass.map RsPoolClass.holding := by
  obtain ⟨l, hl, rfl⟩ := h
  change l.map _ = _
  generalize q.slabClass = m at hl ⊢
  induction hl with
  | nil => rfl
  | cons hcd _ ih => rw [List.map_cons, List.map_cons, hcd.holding, ih]

structure PoolRun.Kept (s : PoolRun) : Prop where
  inv : s.toPoolUse.Inv
  filled : ∀ c ∈ s.pool.slabClass, c.Filled
  got : s.got.Perm ((s.pool.slabClass.flatMap RsPoolClass.slabs).map Extent.addr)
  nodup : s.pool.flag = .pagealloc → s.got.Nodup

theorem mem_slabs_len {b : Extent} (hb : b ∈ c.slabs) : b.len = c.size * c.num := by
  obtain ⟨t, -, rfl⟩ := List.mem_map.mp hb
  rfl

theorem PoolRun.Kept.slab_pos (h : s.Kept) (hc : c ∈ s.pool.slabClass) {b : Extent}
    (hb : b ∈ c.slabs) : 0 < b.len := by
  obtain ⟨i, hi⟩ := List.mem_iff_getElem?.mp hc
  have hinv := h.inv.cls i c hi
  rw [mem_slabs_len hb]
  exact Nat.mul_pos hinv.size_pos hinv.num_pos

theorem PoolRun.Kept.mem_got (h : s.Kept) {a : ℕ} :
    a ∈ s.got ↔ ∃ c ∈ s.pool.slabClass, ∃ b ∈ c.slabs, b.addr = a := by
  rw [h.got.mem_iff]
  simp only [List.mem_map, List.mem_flatMap]
  grind

theorem PoolRun.Kept.freesOnce (h : s.Kept) : s.FreesOnce where
  frees := by
    refine rsDestroyPool_frees (fun c hc => ⟨h.filled c hc, ?_⟩) h.got h.nodup
    obtain ⟨i, hi⟩ := List.mem_iff_getElem?.mp hc
    exact h.inv.usedSlab_lt hi
  region := by
    intro hf a ha
    obtain ⟨c, hc, b, hb, rfl⟩ := h.mem_got.mp ha
    have hpos := h.slab_pos hc hb
    obtain ⟨hlow, hhigh⟩ := h.inv.region hf c hc b hb
    dsimp only at hlow hhigh
    omega

/-- One class changes, and what it records more the pool has got. -/
theorem PoolRun.Kept.of_set (new : List Extent) (h : s.Kept) (hc : s.pool.slabClass[i]? = some c)
    (hinv : t.toPoolUse.Inv)
    (htable : t.pool.slabClass = s.pool.slabClass.set i d) (hflag : t.pool.flag = s.pool.flag)
    (hd : d.Filled) (hslabs : d.slabs = c.slabs ++ new)
    (hgot : t.got = s.got ++ new.map Extent.addr)
    (hnew : s.pool.flag = .pagealloc → t.got.Nodup) : t.Kept where
  inv := hinv
  filled := by
    intro x hx
    rw [htable] at hx
    rcases List.mem_or_eq_of_mem_set hx with hx | rfl
    · exact h.filled x hx
    · exact hd
  got := by
    obtain ⟨r, hs, ht⟩ := perm_set hc
    have hold := hs.flatMap_right RsPoolClass.slabs
    have hafter := (ht d).flatMap_right RsPoolClass.slabs
    rw [List.flatMap_cons] at hold hafter
    rw [hgot, htable]
    refine (h.got.append_right _).trans ?_
    rw [← List.map_append]
    refine List.Perm.map _ ((hold.append_right new).trans (List.Perm.trans ?_ hafter.symm))
    rw [hslabs, List.append_assoc, List.append_assoc]
    exact List.perm_append_comm.append_left _
  nodup := fun hf => hnew (hflag ▸ hf)

theorem RsPoolClass.slabs_taken (c : RsPoolClass) : c.taken.slabs = c.slabs := by
  obtain ⟨hslab, hused, -, hsize, hnum⟩ := taken_directory c
  rw [RsPoolClass.slabs, hslab, hused, hsize, hnum]
  rfl

theorem RsPoolClass.Filled.taken (h : c.Filled) : c.taken.Filled := by
  obtain ⟨hslab, hused, htotal, -⟩ := taken_directory c
  exact ⟨by rw [slabs_taken, hused, h.slabs], by rw [hslab, htotal]; exact h.absent⟩

theorem RsPoolClass.Filled.withSlab {cells : List (Option ℕ)} (h : c.Filled) (hlen : c.usedSlab < cells.length)
    (htake : cells.take c.usedSlab = (c.slab.getD []).take c.usedSlab) : (c.withSlab cells).Filled :=
  ⟨by rw [slabs_withSlab htake]; exact h.slabs, fun hzero => by
    change cells.length = 0 at hzero
    omega⟩

theorem RsPoolClass.Filled.withNewSlab {cells : List (Option ℕ)} {a : ℕ} (h : c.Filled)
    (hlen : c.usedSlab < cells.length)
    (htake : cells.take c.usedSlab = (c.slab.getD []).take c.usedSlab) : (c.withNewSlab cells a).Filled :=
  ⟨by rw [slabs_withNewSlab hlen htake, List.length_append, h.slabs]; rfl, fun hzero => by
    change cells.length = 0 at hzero
    omega⟩

/-- The call is defined and keeps the invariant, and if it fails it leaves at most spare room. -/
def PoolRun.Recovers (s : PoolRun) (a : TryCall) : Prop :=
  ∃ t, tryStep s a = some t ∧ t.Kept ∧ (a.Fails s.pool → t.pool.Spare s.pool)

variable {size : ℕ} {malloc : Option ℕ} {realloc : Bool} {r : Option ℕ}

theorem tryStep_palloc (hadm : s.Admits (.palloc size id malloc realloc))
    (hrun : rsPalloc ⟨fun _ => malloc, realloc⟩ s.pool size id = some (r, p)) :
    tryStep s (.palloc size id malloc realloc) = some (s.after r p (.palloc size id malloc realloc)) := by
  rw [tryStep, if_pos hadm]
  change Option.map _ (rsPalloc _ _ _ _) = _
  rw [hrun]
  rfl

theorem not_fails_palloc {a : ℕ} (hrun : rsPalloc ⟨fun _ => malloc, realloc⟩ s.pool size id = some (some a, p)) :
    ¬ (TryCall.palloc size id malloc realloc).Fails s.pool := by
  rw [TryCall.Fails, hrun]
  exact fun h => nomatch h

theorem PoolRun.Kept.same_pool (h : s.Kept) {l : List Chunk} (hinv : (⟨s.pool, l⟩ : PoolUse).Inv) :
    (⟨⟨s.pool, l⟩, s.got⟩ : PoolRun).Kept := { h with inv := hinv }

theorem PoolRun.Kept.palloc_overflow (h : s.Kept)
    (hadm : s.Admits (.palloc size RsCode.slabOverflow.toInt malloc realloc)) :
    s.Recovers (.palloc size RsCode.slabOverflow.toInt malloc realloc) := by
  have hrun : rsPalloc ⟨fun _ => malloc, realloc⟩ s.pool size RsCode.slabOverflow.toInt =
      some (malloc, s.pool) := if_pos rfl
  have hnew (libc : Libc) : newSlab libc s.pool RsCode.slabOverflow.toInt = none := rfl
  refine ⟨_, tryStep_palloc hadm hrun, ?_, fun _ => RsPool.Spare.refl _⟩
  rw [PoolRun.after, hnew, Option.toList_none, List.append_nil]
  cases malloc with
  | none => exact h.same_pool h.inv
  | some a =>
    refine h.same_pool (h.inv.overflow ?_ ?_)
    · exact lt_max_of_lt_left Nat.one_pos
    · intro e he
      simpa [mallocLen, chunkLen] using h.inv.fresh (hadm.2 a rfl) he

theorem classAt_of_getElem? (hc : s.pool.slabClass[i]? = some c) : s.pool.classAt i = some c :=
  (classAt_natCast s.pool i).trans hc

theorem chunkLen_class (hc : s.pool.slabClass[i]? = some c) : chunkLen s.pool size i = c.size := by
  rw [chunkLen, if_neg (natCast_ne_overflow i), classAt_of_getElem? hc]
  rfl

theorem PoolRun.Kept.palloc_take (h : s.Kept) (hc : s.pool.slabClass[i]? = some c)
    (hleft : ¬ (c.chunk = none ∧ c.freeChunk = [])) (hadm : s.Admits (.palloc size i malloc realloc)) :
    s.Recovers (.palloc size i malloc realloc) := by
  have hclass := classAt_of_getElem? hc
  have hsome : c.chunk.isSome ∨ c.freeChunk ≠ [] := by
    rw [Option.isSome_iff_ne_none]
    exact not_and_or.mp hleft
  obtain ⟨a, p, htake, hinv⟩ := h.inv.takeChunk hc hsome
  have hrun : rsPalloc ⟨fun _ => malloc, realloc⟩ s.pool size i = some (some a, p) := by
    rw [rsPalloc_class (natCast_ne_overflow i) hclass, if_neg hleft, htake]
  have hnew (libc : Libc) : newSlab libc s.pool i = none := by
    rw [newSlab, hclass, Option.bind_some, if_neg hleft]
  refine ⟨_, tryStep_palloc hadm hrun, ?_, fun hf => absurd hf (not_fails_palloc hrun)⟩
  rw [takeChunk_eq] at htake
  obtain ⟨-, rfl⟩ := Prod.mk.inj htake
  rw [PoolRun.after, hnew, chunkLen_class hc]
  have hd := (h.filled c (List.mem_of_getElem? hc)).taken
  refine PoolRun.Kept.of_set [] h hc hinv rfl rfl hd ?_ rfl fun hf => ?_
  · rw [RsPoolClass.slabs_taken, List.append_nil]
  · simpa using h.nodup hf

theorem PoolRun.Kept.new_not_mem_got (h : s.Kept) (hf : s.pool.flag = .pagealloc) {a : ℕ}
    (ha : ∀ b ∈ s.blocks, (Extent.mk a (mallocLen s.pool size id)).Apart b) : a ∉ s.got := by
  intro hmem
  obtain ⟨c, hc, b, hb, rfl⟩ := h.mem_got.mp hmem
  have hblock : b ∈ s.blocks := by
    rw [PoolUse.blocks, hf]
    exact List.mem_append_right _ (List.mem_flatMap.mpr ⟨c, hc, hb⟩)
  exact (ha b hblock).ne (lt_max_of_lt_left Nat.one_pos) (h.slab_pos hc hb) rfl

theorem setClass_self (hc : p.slabClass[i]? = some c) : p.setClass i c = p := by
  obtain ⟨hlt, rfl⟩ := List.getElem?_eq_some_iff.mp hc
  rw [RsPool.setClass, Int.toNat_natCast, List.set_getElem_self]

theorem setClass_withSlab_spare (h : s.toPoolUse.Inv) (hc : s.pool.slabClass[i]? = some c)
    {cells : List (Option ℕ)} (hr : c.usedSlab = c.totalSlab → libc.realloc = true)
    (hgrow : rsPallocGrow libc c = (.ok, c.withSlab cells)) :
    (s.pool.setClass i (c.withSlab cells)).Spare s.pool := by
  have hspare : (c.withSlab cells).Spare c := by
    by_cases hfull : c.usedSlab = c.totalSlab
    · have hcells := (h.cls i c hc).cells
      have hlt : c.totalSlab < 2 ^ 31 := hfull ▸ h.usedSlab_lt hc
      rw [rsPallocGrow_full hfull hcells hlt (hr hfull)] at hgrow
      rw [← (Prod.mk.inj hgrow).2]
      exact .grown c hfull hcells hlt
    · rw [rsPallocGrow, if_neg hfull] at hgrow
      rw [← (Prod.mk.inj hgrow).2]
      exact .refl c
  have hset := (RsPool.Spare.refl s.pool).setClass hspare i
  rwa [setClass_self hc] at hset

theorem newSlab_eq (hclass : p.classAt id = some c) (hout : c.chunk = none ∧ c.freeChunk = [])
    (hgrow : rsPallocGrow libc c = (.ok, d)) :
    newSlab libc p id = (rsPmemalloc libc (p.setClass id d) (slabLen d)).1 := by
  rw [newSlab, hclass, Option.bind_some, if_pos hout, hgrow]

/-- A class without a chunk gets a slab, or stays without one. -/
theorem PoolRun.Kept.palloc_slab (h : s.Kept) (hc : s.pool.slabClass[i]? = some c)
    (hout : c.chunk = none ∧ c.freeChunk = []) (hr : c.usedSlab = c.totalSlab → realloc = true)
    (hadm : s.Admits (.palloc size i malloc realloc)) : s.Recovers (.palloc size i malloc realloc) := by
  have hclass := classAt_of_getElem? hc
  have hne := natCast_ne_overflow i
  have hfilled := h.filled c (List.mem_of_getElem? hc)
  have hlen : slabLen c ≤ mallocLen s.pool size i := by simp [mallocLen, hne, hclass]
  obtain ⟨cells, hgrow, hroom, htake, hmem⟩ := PoolUse.Inv.palloc_new ⟨fun _ => malloc, realloc⟩ h.inv hc
    hout.1 hout.2 hr fun a ha e he =>
      (h.inv.fresh (hadm.2 a ha) he).mono ⟨le_rfl, Nat.add_le_add_left hlen _⟩
  have hnew := newSlab_eq hclass hout hgrow
  rcases hmem with ⟨hmem, hinv⟩ | ⟨a, q, hmem, hadd, hinv, hset, hflag, hanswer⟩
  · have hrun : rsPalloc ⟨fun _ => malloc, realloc⟩ s.pool size i =
        some (none, s.pool.setClass i (c.withSlab cells)) := by
      rw [rsPalloc_class hne hclass, if_pos hout, rsPallocNew_full hgrow hmem]
      rfl
    refine ⟨_, tryStep_palloc hadm hrun, ?_, fun _ => setClass_withSlab_spare h.inv hc hr hgrow⟩
    rw [PoolRun.after, hnew.trans (congrArg Prod.fst hmem)]
    refine PoolRun.Kept.of_set [] h hc hinv rfl rfl (hfilled.withSlab hroom htake) ?_ rfl fun hf => ?_
    · rw [slabs_withSlab htake, List.append_nil]
    · simpa using h.nodup hf
  · have hi := (List.getElem?_eq_some_iff.mp hc).1
    have hd : (q.setClass i (c.withNewSlab cells a)).slabClass[i]? = some (c.withNewSlab cells a) := by
      change (q.slabClass.set i _)[i]? = _
      rw [hset, List.getElem?_set_self hi]
    obtain ⟨b, p, htaken, hinv⟩ := hinv.takeChunk hd (Or.inl rfl)
    have hrun : rsPalloc ⟨fun _ => malloc, realloc⟩ s.pool size i = some (some b, p) := by
      rw [rsPalloc_class hne hclass, if_pos hout, rsPallocNew_slab hgrow hmem hadd]
      simp only [Option.bind_some, classAt_natCast, hd, Option.map_some]
      rw [htaken]
    refine ⟨_, tryStep_palloc hadm hrun, ?_, fun hf => absurd hf (not_fails_palloc hrun)⟩
    rw [takeChunk_eq] at htaken
    obtain ⟨-, rfl⟩ := Prod.mk.inj htaken
    rw [PoolRun.after, hnew.trans (congrArg Prod.fst hmem), chunkLen_class hc]
    have hd : (c.withNewSlab cells a).taken.Filled := (hfilled.withNewSlab hroom htake).taken
    refine PoolRun.Kept.of_set [⟨a, c.size * c.num⟩] h hc hinv ?_ hflag hd ?_ rfl fun hf => ?_
    · change (q.slabClass.set i _).set i _ = _
      rw [hset, List.set_set]
    · rw [RsPoolClass.slabs_taken, slabs_withNewSlab hroom htake]
    · have hmalloc : malloc = some a := hanswer (hflag.trans hf)
      refine List.nodup_append.mpr ⟨h.nodup hf, List.nodup_singleton a, fun x hx y hy => ?_⟩
      obtain rfl := List.mem_singleton.mp hy
      rintro rfl
      exact h.new_not_mem_got hf (hadm.2 x hmalloc) hx

/-- A class that has no directory yet and gets none stays as it is. -/
theorem PoolRun.Kept.palloc_first (h : s.Kept) (hc : s.pool.slabClass[i]? = some c)
    (hout : c.chunk = none ∧ c.freeChunk = []) (hfull : c.usedSlab = c.totalSlab)
    (hzero : c.totalSlab = 0) (hadm : s.Admits (.palloc size i malloc false)) :
    s.Recovers (.palloc size i malloc false) := by
  have hclass := classAt_of_getElem? hc
  have hne := natCast_ne_overflow i
  have hslab : ({ c with slab := none } : RsPoolClass) = c := by
    rw [← (h.filled c (List.mem_of_getElem? hc)).absent hzero]
  have hgrow : rsPallocGrow ⟨fun _ => malloc, false⟩ c = (.err, c) := by
    rw [rsPallocGrow, if_pos hfull, hslab]
    rfl
  have hrun : rsPalloc ⟨fun _ => malloc, false⟩ s.pool size i = some (none, s.pool) := by
    rw [rsPalloc_class hne hclass, if_pos hout, rsPallocNew, hgrow]
    simp only [setClass_self hc, Option.bind_some]
  have hnew : newSlab ⟨fun _ => malloc, false⟩ s.pool i = none := by
    rw [newSlab, hclass, Option.bind_some, if_pos hout, hgrow]
  refine ⟨_, tryStep_palloc hadm hrun, ?_, fun _ => RsPool.Spare.refl _⟩
  rw [PoolRun.after, hnew, Option.toList_none, List.append_nil]
  exact h.same_pool h.inv

theorem PoolRun.Kept.palloc (h : s.Kept) (hadm : s.Admits (.palloc size id malloc realloc))
    (hkeep : ¬ (TryCall.palloc size id malloc realloc).LosesSlabs s.pool) :
    s.Recovers (.palloc size id malloc realloc) := by
  by_cases ho : id = RsCode.slabOverflow.toInt
  · subst ho
    exact h.palloc_overflow hadm
  obtain ⟨c, hclass⟩ := Option.isSome_iff_exists.mp (hadm.1.resolve_left ho)
  obtain ⟨hpos, hc⟩ := classAt_eq_some.mp hclass
  obtain ⟨i, rfl⟩ := Int.eq_ofNat_of_zero_le hpos
  rw [Int.toNat_natCast] at hc
  by_cases hout : c.chunk = none ∧ c.freeChunk = []
  · by_cases hgrow : c.usedSlab = c.totalSlab → realloc = true
    · exact h.palloc_slab hc hout hgrow hadm
    · obtain ⟨hfull, hr⟩ := Classical.not_imp.mp hgrow
      obtain rfl := Bool.eq_false_iff.mpr hr
      have hzero : c.totalSlab = 0 := by
        by_contra hne
        exact hkeep ⟨rfl, c, hclass, hout.1, hout.2, hfull, hne⟩
      exact h.palloc_first hc hout hfull hzero hadm
  · exact h.palloc_take hc hout hadm

theorem PoolRun.Kept.pfree {x : Chunk} (h : s.Kept) (hx : x ∈ s.live) : s.Recovers (.pfree x realloc) := by
  have hadm : s.Admits (.pfree x realloc) := hx
  by_cases ho : x.IsOverflow
  · have hrun : rsPfree ⟨fun _ => none, realloc⟩ s.pool x.extent.addr x.id = some s.pool := if_pos ho
    have hfails : ¬ (TryCall.pfree x realloc).Fails s.pool := by
      rintro ⟨-, c, hc, -⟩
      exact not_overflow_of_nonneg (classAt_eq_some.mp hc).1 ho
    refine ⟨⟨⟨s.pool, s.live.erase x⟩, s.got⟩, ?_, h.same_pool (h.inv.release ho), fun _ => RsPool.Spare.refl _⟩
    rw [tryStep, if_pos hadm, tryPool, hrun]
    simp only [Option.map_some, PoolRun.after, if_neg hfails]
  obtain ⟨i, c, a, hc, rfl⟩ := h.inv.owned_class hx ho
  have hclass := classAt_of_getElem? hc
  by_cases hfull : c.freeChunk.length = c.totalFree → realloc = true
  · obtain ⟨tf, hrun, hinv⟩ := PoolUse.Inv.pfree_class ⟨fun _ => none, realloc⟩ h.inv hc hx hfull
    have hfails : ¬ (TryCall.pfree ⟨i, a, c.size⟩ realloc).Fails s.pool := by
      rintro ⟨hr, d, hd, hlen⟩
      obtain rfl := Option.some.inj (hclass.symm.trans hd)
      exact absurd (hfull hlen) (by rw [hr]; decide)
    refine ⟨⟨⟨s.pool.setClass i (c.withFree tf a), s.live.erase ⟨i, a, c.size⟩⟩, s.got⟩, ?_, ?_,
      fun hf => absurd hf hfails⟩
    · rw [tryStep, if_pos hadm, tryPool, hrun]
      simp only [Option.map_some, PoolRun.after, if_neg hfails]
    · have hfilled := h.filled c (List.mem_of_getElem? hc)
      have hd : (c.withFree tf a).Filled := ⟨hfilled.slabs, hfilled.absent⟩
      exact PoolRun.Kept.of_set [] h hc hinv rfl rfl hd (List.append_nil _).symm
        (List.append_nil _).symm h.nodup
  · -- the chunk is not recorded, and nothing else happens
    obtain ⟨hlen, hr⟩ := Classical.not_imp.mp hfull
    have hfails : (TryCall.pfree ⟨i, a, c.size⟩ realloc).Fails s.pool :=
      ⟨Bool.eq_false_iff.mpr hr, c, hclass, hlen⟩
    have hrun : rsPfree ⟨fun _ => none, realloc⟩ s.pool a i = some s.pool := by
      rw [rsPfree_class (natCast_ne_overflow i) hclass, if_pos hlen, if_neg hr]
    refine ⟨s, ?_, h, fun _ => RsPool.Spare.refl _⟩
    rw [tryStep, if_pos hadm, tryPool, hrun]
    simp only [Option.map_some, PoolRun.after, if_pos hfails]

theorem PoolRun.Kept.recovers (h : s.Kept) {a : TryCall} (hadm : s.Admits a)
    (hkeep : ¬ a.LosesSlabs s.pool) : s.Recovers a := by
  cases a with
  | palloc size id malloc realloc => exact h.palloc hadm hkeep
  | pfree x realloc => exact h.pfree hadm

/-- A call that loses slabs fails, and behind it the class has none. -/
theorem PoolRun.Kept.loses (h : s.Kept) {a : TryCall} (hadm : s.Admits a) (hloses : a.LosesSlabs s.pool) :
    ∃ t, tryStep s a = some t ∧
      t.pool.slabClass.map RsPoolClass.holding ≠ s.pool.slabClass.map RsPoolClass.holding := by
  cases a with
  | pfree x realloc => exact absurd hloses not_false
  | palloc size id malloc realloc =>
    obtain ⟨rfl, c, hclass, hchunk, hfree, hfull, hne⟩ := hloses
    obtain ⟨hpos, hc⟩ := classAt_eq_some.mp hclass
    have hgrow : rsPallocGrow ⟨fun _ => malloc, false⟩ c = (.err, { c with slab := none }) := by
      rw [rsPallocGrow, if_pos hfull]
      rfl
    have hrun : rsPalloc ⟨fun _ => malloc, false⟩ s.pool size id =
        some (none, s.pool.setClass id { c with slab := none }) := by
      rw [rsPalloc_class (not_overflow_of_nonneg hpos) hclass, if_pos ⟨hchunk, hfree⟩, rsPallocNew, hgrow]
      rfl
    refine ⟨_, tryStep_palloc hadm hrun, fun heq => hne ?_⟩
    have hslabs := congrArg (fun l => (l[id.toNat]?).map Prod.fst) heq
    have hlt := (List.getElem?_eq_some_iff.mp hc).1
    simp only [PoolRun.after, RsPool.setClass, List.getElem?_map, List.getElem?_set_self hlt, hc,
      Option.map_some, Option.some.injEq, RsPoolClass.holding] at hslabs
    rw [← hfull, ← (h.filled c (List.mem_of_getElem? hc)).slabs, ← hslabs]
    simp [RsPoolClass.slabs]

theorem tryStep_admits {a : TryCall} (h : tryStep s a = some t) : s.Admits a := by
  by_contra hnot
  rw [tryStep, if_neg hnot] at h
  exact nomatch h

theorem PoolRun.Kept.step (h : s.Kept) {a : TryCall} (hkeep : ¬ a.LosesSlabs s.pool)
    (hstep : tryStep s a = some t) : t.Kept := by
  obtain ⟨u, hu, hkept, -⟩ := h.recovers (tryStep_admits hstep) hkeep
  exact Option.some.inj (hu.symm.trans hstep) ▸ hkept

theorem PoolRun.Kept.defined (h : s.Kept) {a : TryCall} (hadm : s.Admits a) : (tryStep s a).isSome := by
  by_cases hloses : a.LosesSlabs s.pool
  · obtain ⟨t, ht, -⟩ := h.loses hadm hloses
    exact Option.isSome_iff_exists.mpr ⟨t, ht⟩
  · obtain ⟨t, ht, -⟩ := h.recovers hadm hloses
    exact Option.isSome_iff_exists.mpr ⟨t, ht⟩

/-- A call that fails leaves the pool usable exactly if it loses no slabs. -/
theorem PoolRun.Kept.usable_iff (h : s.Kept) {a : TryCall} (hstep : tryStep s a = some t)
    (hfails : a.Fails s.pool) : s.UsableAfter t ↔ ¬ a.LosesSlabs s.pool := by
  constructor
  · intro husable hloses
    obtain ⟨u, hu, hne⟩ := h.loses (tryStep_admits hstep) hloses
    obtain rfl := Option.some.inj (hu.symm.trans hstep)
    exact hne husable.owns
  · intro hkeep
    obtain ⟨u, hu, hkept, hspare⟩ := h.recovers (tryStep_admits hstep) hkeep
    obtain rfl := Option.some.inj (hu.symm.trans hstep)
    have hroom := hspare hfails
    exact ⟨hroom.holding, laterCalls_spare hroom, hkept.freesOnce⟩

section run
variable {grow : UInt32 → UInt32} {start maxIdx : ℕ} {initSize memSize chunkSize : UInt32}
  {flag : RsPoolFlag}

theorem PoolRun.kept_init (hchunk : 1 < chunkSize.toNat)
    (hp : rsCreatePool grow start initSize memSize chunkSize maxIdx flag = some p) :
    (⟨⟨p, []⟩, []⟩ : PoolRun).Kept where
  inv := rsCreatePool_inv hchunk hp
  filled := by
    obtain ⟨table, -, rfl⟩ := Option.map_eq_some_iff.mp hp
    intro c hc
    obtain ⟨x, -, rfl⟩ := List.mem_map.mp hc
    exact ⟨rfl, fun _ => rfl⟩
  got := by
    obtain ⟨table, -, rfl⟩ := Option.map_eq_some_iff.mp hp
    have hnil : (newPool flag start (rsAlign memSize) chunkSize table).slabClass.flatMap
        RsPoolClass.slabs = [] := by
      refine List.flatMap_eq_nil_iff.mpr fun c hc => ?_
      obtain ⟨x, -, rfl⟩ := List.mem_map.mp hc
      rfl
    exact hnil ▸ List.Perm.nil
  nodup := fun _ => List.nodup_nil

/-- In every run from the creation of a pool in which no call loses slabs, the pool frees what it
got, each once, every call that the users may make is defined, and a call that fails leaves the
pool usable if and only if it loses no slabs. -/
theorem failed_alloc_usable_iff (hchunk : 1 < chunkSize.toNat)
    (hp : rsCreatePool grow start initSize memSize chunkSize maxIdx flag = some p) (as : List TryCall)
    (hkeep : Along tryStep (fun s a => ¬ a.LosesSlabs s.pool) ⟨⟨p, []⟩, []⟩ as)
    (hrun : exec tryStep ⟨⟨p, []⟩, []⟩ as = some s) :
    s.FreesOnce ∧ (∀ a, s.Admits a → (tryStep s a).isSome) ∧
      ∀ a t, tryStep s a = some t → a.Fails s.pool → (s.UsableAfter t ↔ ¬ a.LosesSlabs s.pool) := by
  have hkept : s.Kept := exec_invariant_along _ (fun _ _ _ hu hok hv => hu.step hok hv)
    (PoolRun.kept_init hchunk hp) hkeep hrun
  exact ⟨hkept.freesOnce, fun _ => hkept.defined, fun _ _ => hkept.usable_iff⟩

end run

/-- Two classes: no memory for a slab, a chunk carved, and a chunk that `rs_pfree` cannot record. -/
theorem failed_alloc_usable_sample :
    ∃ s, exec tryStep ⟨⟨newPool .pagealloc 4096 4096 64 [(16, 4), (64, 1)], []⟩, []⟩
        [.palloc 10 0 none true, .palloc 10 0 (some 8192) false, .palloc 60 1 (some 9000) true,
          .pfree ⟨0, 8192, 16⟩ false] = some s ∧
      s.FreesOnce ∧ (∀ a, s.Admits a → (tryStep s a).isSome) ∧
      ∀ a t, tryStep s a = some t → a.Fails s.pool → (s.UsableAfter t ↔ ¬ a.LosesSlabs s.pool) := by
  have hsome : (exec tryStep ⟨⟨newPool .pagealloc 4096 4096 64 [(16, 4), (64, 1)], []⟩, []⟩
        [.palloc 10 0 none true, .palloc 10 0 (some 8192) false, .palloc 60 1 (some 9000) true,
          .pfree ⟨0, 8192, 16⟩ false]).isSome := by decide +kernel
  obtain ⟨s, hs⟩ := Option.isSome_iff_exists.mp hsome
  have hp : rsCreatePool (fun _ => 64) 4096 16 4096 64 200 .pagealloc =
      some (newPool .pagealloc 4096 4096 64 [(16, 4), (64, 1)]) := by decide +kernel
  exact ⟨s, hs, failed_alloc_usable_iff (by decide) hp _ (by decide +kernel) hs⟩

/-- Sixteen slabs of one chunk fill the directory, which is lost when it should grow. -/
theorem not_failed_alloc_usable : ¬ ∀ (grow : UInt32 → UInt32) (start : ℕ)
    (initSize memSize chunkSize : UInt32) (maxIdx : ℕ) (flag : RsPoolFlag) (p : RsPool),
    1 < chunkSize.toNat → rsCreatePool grow start initSize memSize chunkSize maxIdx flag = some p →
    ∀ as s, exec tryStep ⟨⟨p, []⟩, []⟩ as = some s →
      ∀ a t, tryStep s a = some t → a.Fails s.pool → s.UsableAfter t := by
  intro h
  have hp : rsCreatePool (fun _ => 64) 4096 64 4096 64 200 .pagealloc =
      some (newPool .pagealloc 4096 4096 64 [(64, 1)]) := by decide +kernel
  have hsome : ((exec tryStep ⟨⟨newPool .pagealloc 4096 4096 64 [(64, 1)], []⟩, []⟩
      ((List.range 16).map fun i => .palloc 60 0 (some (8192 + 64 * i)) true)).bind fun s =>
        (tryStep s (.palloc 60 0 (some 16384) false)).map fun t =>
          decide ((TryCall.palloc 60 0 (some 16384) false).Fails s.pool ∧
            t.pool.slabClass.map RsPoolClass.holding ≠ s.pool.slabClass.map RsPoolClass.holding)) =
      some true := by decide +kernel
  obtain ⟨s, hs, hstep⟩ := Option.bind_eq_some_iff.mp hsome
  obtain ⟨t, ht, hdec⟩ := Option.map_eq_some_iff.mp hstep
  obtain ⟨hfails, hne⟩ := of_decide_eq_true hdec
  exact hne (h _ _ _ _ _ _ _ _ (by decide) hp _ s hs _ t ht hfails).owns

end MySQLSyncer.Core
