import MySQLSyncer.Core.PallocInvariant

/-! # Destroying a pool

`rs_destroy_pool` frees for each class the slabs in its directory, the directory and the array of
free chunks, and last the pool. A preallocated region is part of the block of the pool. To free
what a cell holds that was never written is undefined.
-/
namespace MySQLSyncer.Core
open Lib

/-- What `free` gets: a slab, an array of the class with this index, or the pool. -/
inductive Freed where
  | slab (addr : ℕ)
  | directory (i : ℕ)
  | freeChunk (i : ℕ)
  | pool
  deriving DecidableEq, Repr

def Freed.slab? : Freed → Option ℕ
  | .slab addr => some addr
  | _ => none

def destroySlabs (cells : List (Option ℕ)) : ℕ → Option (List Freed)
  | 0 => some []
  | j + 1 => (destroySlabs cells j).bind fun l => cells[j]?.join.map fun t => l ++ [.slab t]

/-- The cast of `used_slab` to `int`, as the bound of a loop. -/
def intBound (n : ℕ) : ℕ := if n < 2 ^ 31 then n else 0

/-- The array of free chunks is there once `total_free` is not zero. -/
def destroyClass (flag : RsPoolFlag) (i : ℕ) (c : RsPoolClass) : Option (List Freed) :=
  (match c.slab with
    | none => some []
    | some cells =>
      (match flag with
        | .pagealloc => destroySlabs cells (intBound c.usedSlab)
        | .prealloc => some []).map (· ++ [Freed.directory i])).map
    (· ++ if c.totalFree = 0 then [] else [Freed.freeChunk i])

def destroyClasses (flag : RsPoolFlag) : ℕ → List RsPoolClass → Option (List Freed)
  | _, [] => some []
  | i, c :: cs => (destroyClass flag i c).bind fun l => (destroyClasses flag (i + 1) cs).map (l ++ ·)

def rsDestroyPool (p : RsPool) : Option (List Freed) :=
  (destroyClasses p.flag 0 p.slabClass).map (· ++ [.pool])

/-- Every cell below `used_slab` holds a slab, and no array is there before the first. -/
structure RsPoolClass.Filled (c : RsPoolClass) : Prop where
  slabs : c.slabs.length = c.usedSlab
  absent : c.totalSlab = 0 → c.slab = none

def RsPoolClass.slabFrees (flag : RsPoolFlag) (c : RsPoolClass) : List Freed :=
  match flag with
  | .pagealloc => c.slabs.map fun b => .slab b.addr
  | .prealloc => []

def RsPoolClass.arrayFrees (i : ℕ) (c : RsPoolClass) : List Freed :=
  (if c.slab.isSome then [.directory i] else []) ++ if c.totalFree = 0 then [] else [.freeChunk i]

variable {c : RsPoolClass} {flag : RsPoolFlag} {cells : List (Option ℕ)} {i n : ℕ}

theorem destroySlabs_eq (h : (cells.take n).reduceOption.length = n) :
    destroySlabs cells n = some ((cells.take n).reduceOption.map .slab) := by
  induction n with
  | zero => rfl
  | succ n ih =>
    have hle := List.reduceOption_length_le (cells.take n)
    have hlen := List.length_take_le n cells
    rw [List.take_add_one, List.reduceOption_append] at h ⊢
    rw [List.length_append] at h
    cases hj : cells[n]? with
    | none =>
      rw [hj] at h
      simp at h
      omega
    | some t =>
      cases t with
      | none =>
        rw [hj] at h
        simp at h
        omega
      | some t =>
        rw [hj] at h
        simp only [Option.toList_some, List.reduceOption_singleton, List.length_singleton] at h
        rw [destroySlabs, ih (by simpa using h), hj]
        simp

theorem slabs_addr (c : RsPoolClass) :
    c.slabs.map Extent.addr = ((c.slab.getD []).take c.usedSlab).reduceOption := by
  simp [RsPoolClass.slabs, Function.comp_def]

theorem destroyClass_eq (h : c.Filled) (hlt : c.usedSlab < 2 ^ 31) :
    destroyClass flag i c = some (c.slabFrees flag ++ c.arrayFrees i) := by
  have haddr := slabs_addr c
  have hlen := h.slabs
  rw [← List.length_map (f := Extent.addr), haddr] at hlen
  cases hslab : c.slab with
  | none =>
    have hnil : c.slabs = [] := by simp [RsPoolClass.slabs, hslab]
    cases flag <;> simp [destroyClass, RsPoolClass.slabFrees, RsPoolClass.arrayFrees, hslab, hnil]
  | some cells =>
    rw [hslab, Option.getD_some] at haddr hlen
    cases flag with
    | prealloc => simp [destroyClass, RsPoolClass.slabFrees, RsPoolClass.arrayFrees, hslab]
    | pagealloc =>
      have hfrees : c.slabFrees .pagealloc = (cells.take c.usedSlab).reduceOption.map .slab := by
        change c.slabs.map (Freed.slab ∘ Extent.addr) = _
        rw [← List.map_map, haddr]
      have hloop : destroySlabs cells (intBound c.usedSlab) = some (c.slabFrees .pagealloc) := by
        rw [intBound, if_pos hlt, destroySlabs_eq hlen, hfrees]
      simp [destroyClass, RsPoolClass.arrayFrees, hslab, hloop]

theorem destroyClasses_eq {cs : List RsPoolClass} (h : ∀ c ∈ cs, c.Filled ∧ c.usedSlab < 2 ^ 31) :
    destroyClasses flag i cs =
      some ((cs.zipIdx i).flatMap fun x => x.1.slabFrees flag ++ x.1.arrayFrees x.2) := by
  induction cs generalizing i with
  | nil => rfl
  | cons c cs ih =>
    obtain ⟨hfilled, hlt⟩ := h c List.mem_cons_self
    rw [destroyClasses, destroyClass_eq hfilled hlt, ih fun d hd => h d (List.mem_cons_of_mem c hd)]
    simp

/-- The slabs that a pool frees one by one, at the addresses of `got`, its arrays and its block. -/
def RsPool.Owns (p : RsPool) (got : List ℕ) : Freed → Prop
  | .slab a => p.flag = .pagealloc ∧ a ∈ got
  | .directory i => ∃ c, p.slabClass[i]? = some c ∧ c.slab.isSome
  | .freeChunk i => ∃ c, p.slabClass[i]? = some c ∧ c.totalFree ≠ 0
  | .pool => True

variable {p : RsPool} {got : List ℕ}

theorem mem_arrayFrees {f : Freed} : f ∈ c.arrayFrees i ↔
    f = .directory i ∧ c.slab.isSome ∨ f = .freeChunk i ∧ c.totalFree ≠ 0 := by
  unfold RsPoolClass.arrayFrees
  split_ifs <;> simp [*]

theorem nodup_arrayFrees (cs : List RsPoolClass) :
    (cs.zipIdx.flatMap fun x => x.1.arrayFrees x.2).Nodup := by
  have hsnd : (cs.zipIdx.map Prod.snd).Nodup := by
    rw [List.zipIdx_map_snd]
    exact List.nodup_range'
  refine List.nodup_flatMap.mpr ⟨fun x _ => ?_, (List.pairwise_map.mp hsnd).imp ?_⟩
  · unfold RsPoolClass.arrayFrees
    split_ifs <;> simp
  · intro x y hne f hx hy
    rcases mem_arrayFrees.mp hx with ⟨rfl, -⟩ | ⟨rfl, -⟩ <;>
      simp [mem_arrayFrees, hne] at hy

theorem classFrees_perm (p : RsPool) :
    (p.slabClass.zipIdx.flatMap fun x => x.1.slabFrees p.flag ++ x.1.arrayFrees x.2).Perm
      (p.slabClass.flatMap (RsPoolClass.slabFrees p.flag) ++
        p.slabClass.zipIdx.flatMap fun x => x.1.arrayFrees x.2) := by
  refine (List.flatMap_append_perm _ _ _).symm.trans (List.Perm.append_right _ ?_)
  have hfst : p.slabClass.zipIdx.map Prod.fst = p.slabClass := List.zipIdx_map_fst _ _
  conv_rhs => rw [← hfst, List.flatMap_map]

theorem slabFrees_pagealloc (cs : List RsPoolClass) :
    cs.flatMap (RsPoolClass.slabFrees .pagealloc) =
      ((cs.flatMap RsPoolClass.slabs).map Extent.addr).map .slab := by
  rw [List.map_map, List.map_flatMap]
  rfl

theorem slabFrees_prealloc (cs : List RsPoolClass) :
    cs.flatMap (RsPoolClass.slabFrees .prealloc) = [] :=
  List.flatMap_eq_nil_iff.mpr fun _ _ => rfl

/-- A pool whose directories record the slabs at `got` frees what it owns, each once. -/
theorem rsDestroyPool_frees (hfilled : ∀ c ∈ p.slabClass, c.Filled ∧ c.usedSlab < 2 ^ 31)
    (hgot : got.Perm ((p.slabClass.flatMap RsPoolClass.slabs).map Extent.addr))
    (hnodup : p.flag = .pagealloc → got.Nodup) :
    ∃ l, rsDestroyPool p = some l ∧ l.Nodup ∧ ∀ f, f ∈ l ↔ p.Owns got f := by
  refine ⟨_, by rw [rsDestroyPool, destroyClasses_eq hfilled]; rfl, ?_⟩
  have hperm := (classFrees_perm p).append_right [Freed.pool]
  have harrays {f : Freed} : (f ∈ p.slabClass.zipIdx.flatMap fun x => x.1.arrayFrees x.2) ↔
      ∃ (c : RsPoolClass) (i : ℕ), p.slabClass[i]? = some c ∧ f ∈ c.arrayFrees i := by
    simp [List.mem_flatMap, List.mk_mem_zipIdx_iff_getElem?]
  have hslabs {f : Freed} : f ∈ p.slabClass.flatMap (RsPoolClass.slabFrees p.flag) ↔
      p.flag = .pagealloc ∧ ∃ a ∈ got, f = .slab a := by
    cases hf : p.flag with
    | prealloc => simp [slabFrees_prealloc]
    | pagealloc =>
      rw [slabFrees_pagealloc, List.mem_map]
      simp only [← hgot.mem_iff, true_and, eq_comm]
  have hslabs_nodup : (p.slabClass.flatMap (RsPoolClass.slabFrees p.flag)).Nodup := by
    cases hf : p.flag with
    | prealloc => simp [slabFrees_prealloc]
    | pagealloc =>
      rw [slabFrees_pagealloc]
      exact (hgot.nodup_iff.mp (hnodup hf)).map fun _ _ h => Freed.slab.inj h
  constructor
  · refine hperm.nodup_iff.mpr ?_
    simp only [List.nodup_append, nodup_arrayFrees, hslabs_nodup, List.mem_append, hslabs, harrays,
      mem_arrayFrees, List.nodup_singleton, List.mem_singleton, true_and]
    refine ⟨?_, ?_⟩
    · rintro _ ⟨-, a, -, rfl⟩ _ ⟨c, i, -, ⟨rfl, -⟩ | ⟨rfl, -⟩⟩ <;> simp
    · rintro _ (⟨-, a, -, rfl⟩ | ⟨c, i, -, ⟨rfl, -⟩ | ⟨rfl, -⟩⟩) _ rfl <;> simp
  · intro f
    rw [hperm.mem_iff, List.mem_append, List.mem_append, hslabs, harrays]
    cases f with
    | slab a => simp [mem_arrayFrees, RsPool.Owns]
    | directory i => simp [mem_arrayFrees, RsPool.Owns]
    | freeChunk i => simp [mem_arrayFrees, RsPool.Owns]
    | pool => simp [RsPool.Owns]

end MySQLSyncer.Core
