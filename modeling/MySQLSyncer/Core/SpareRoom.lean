import MySQLSyncer.Core.DestroyPool
import MySQLSyncer.Lib.Replies

/-! # A directory with spare room

A directory that `rs_palloc_grow` enlarged before the slab could be had keeps its room. The pool
then differs from what it was only in a call of `realloc` that it does not need any more.
-/
namespace MySQLSyncer.Core
open Lib

/-- The class behind `rs_palloc_grow` with a full directory. -/
def RsPoolClass.grown (c : RsPoolClass) : RsPoolClass :=
  c.withSlab (resizeSlab c.slab (growCapacity c.totalSlab))

/-- The first class is the second, or has room where the directory of the second is full. -/
inductive RsPoolClass.Spare : RsPoolClass → RsPoolClass → Prop
  | refl (c : RsPoolClass) : Spare c c
  | grown (c : RsPoolClass) (hfull : c.usedSlab = c.totalSlab)
      (hcells : (c.slab.getD []).length = c.totalSlab) (hlt : c.totalSlab < 2 ^ 31) : Spare c.grown c

def RsPool.Spare (p q : RsPool) : Prop :=
  ∃ l, List.Forall₂ RsPoolClass.Spare l q.slabClass ∧ p = { q with slabClass := l }

variable {p q : RsPool} {c d e : RsPoolClass} {libc libc' : Libc} {id : ℤ} {size : ℕ}

theorem RsPool.Spare.refl (p : RsPool) : p.Spare p :=
  ⟨p.slabClass, List.forall₂_same.mpr fun c _ => .refl c, rfl⟩

theorem RsPool.Spare.classAt (h : p.Spare q) (id : ℤ) :
    Option.Rel RsPoolClass.Spare (p.classAt id) (q.classAt id) := by
  obtain ⟨l, hl, rfl⟩ := h
  unfold RsPool.classAt
  split_ifs
  · exact rel_getElem? hl _
  · exact .none

theorem RsPool.Spare.setClass (h : p.Spare q) (hc : c.Spare d) (id : ℤ) :
    (p.setClass id c).Spare (q.setClass id d) := by
  obtain ⟨l, hl, rfl⟩ := h
  exact ⟨l.set id.toNat c, forall₂_set hl hc _, rfl⟩

theorem rsPallocGrow_full (hfull : c.usedSlab = c.totalSlab)
    (hcells : (c.slab.getD []).length = c.totalSlab) (hlt : c.totalSlab < 2 ^ 31)
    (hr : libc.realloc = true) : rsPallocGrow libc c = (.ok, c.grown) := by
  have hgt := growCapacity_gt hlt
  have hlen : (resizeSlab c.slab (growCapacity c.totalSlab)).length = growCapacity c.totalSlab :=
    length_resizeSlab (by omega)
  rw [rsPallocGrow, if_pos hfull, if_pos hr, RsPoolClass.grown, RsPoolClass.withSlab, hlen]

theorem rsPallocGrow_grown (hfull : c.usedSlab = c.totalSlab)
    (hcells : (c.slab.getD []).length = c.totalSlab) (hlt : c.totalSlab < 2 ^ 31) :
    rsPallocGrow libc c.grown = (.ok, c.grown) := by
  have hgt := growCapacity_gt hlt
  have hlen : (resizeSlab c.slab (growCapacity c.totalSlab)).length = growCapacity c.totalSlab :=
    length_resizeSlab (by omega)
  refine if_neg ?_
  change ¬ c.usedSlab = (resizeSlab c.slab (growCapacity c.totalSlab)).length
  omega

theorem rsPmemalloc_spare (h : p.Spare q) (hm : libc.malloc = libc'.malloc) (n : ℕ) :
    Agree RsPool.Spare (rsPmemalloc libc p n) (rsPmemalloc libc' q n) := by
  obtain ⟨l, hl, rfl⟩ := h
  obtain ⟨cs, start, cur, maxSize, usedSize, freeSize, chunkSize, flag⟩ := q
  unfold rsPmemalloc
  rw [hm]
  dsimp only
  split_ifs
  · exact ⟨rfl, l, hl, rfl⟩
  · cases flag with
    | pagealloc => cases libc'.malloc n <;> exact ⟨rfl, l, hl, rfl⟩
    | prealloc => exact ⟨rfl, l, hl, rfl⟩

/-- The class behind the last two branches of `rs_palloc`. -/
def RsPoolClass.taken (c : RsPoolClass) : RsPoolClass :=
  match c.freeChunk with
  | _ :: rest => { c with freeChunk := rest }
  | [] =>
    let free := (c.free + (2 ^ 32 - 1)) % 2 ^ 32
    { c with free := free, chunk := if 0 < free then c.chunk.map (· + c.size) else none }

theorem takeChunk_eq (p : RsPool) (id : ℤ) (c : RsPoolClass) :
    takeChunk p id c = (c.freeChunk.head?.or c.chunk, p.setClass id c.taken) := by
  unfold takeChunk RsPoolClass.taken
  cases c.freeChunk <;> rfl

theorem taken_grown (c : RsPoolClass) : c.grown.taken = c.taken.grown := by
  have hfree : c.grown.freeChunk = c.freeChunk := rfl
  have hcount : c.grown.free = c.free := rfl
  unfold RsPoolClass.taken
  rw [hfree]
  cases c.freeChunk with
  | cons t rest => rfl
  | nil =>
    simp only [hcount]
    generalize (c.free + (2 ^ 32 - 1)) % 2 ^ 32 = free
    rfl

theorem taken_directory (c : RsPoolClass) :
    c.taken.slab = c.slab ∧ c.taken.usedSlab = c.usedSlab ∧ c.taken.totalSlab = c.totalSlab ∧
      c.taken.size = c.size ∧ c.taken.num = c.num := by
  unfold RsPoolClass.taken
  cases c.freeChunk <;> exact ⟨rfl, rfl, rfl, rfl, rfl⟩

theorem takeChunk_spare (h : p.Spare q) (hc : c.Spare d) :
    Agree RsPool.Spare (takeChunk p id c) (takeChunk q id d) := by
  rw [takeChunk_eq, takeChunk_eq]
  cases hc with
  | refl => exact ⟨rfl, h.setClass (.refl _) id⟩
  | grown _ hfull hcells hlt =>
    obtain ⟨hslab, hused, htotal, -⟩ := taken_directory d
    refine ⟨rfl, h.setClass ?_ id⟩
    rw [taken_grown]
    exact .grown d.taken (by rw [hused, htotal, hfull]) (by rw [hslab, htotal, hcells]) (htotal ▸ hlt)

theorem rsPallocNew_spare (h : p.Spare q) (hm : libc.malloc = libc'.malloc)
    (hp : rsPallocGrow libc c = (.ok, e)) (hq : rsPallocGrow libc' d = (.ok, e)) :
    Option.Rel (Agree RsPool.Spare) (rsPallocNew libc p id c) (rsPallocNew libc' q id d) := by
  have hmem := rsPmemalloc_spare (h.setClass (.refl e) id) hm (slabLen e)
  rcases hx : rsPmemalloc libc (p.setClass id e) (slabLen e) with ⟨t, p'⟩
  rcases hy : rsPmemalloc libc' (q.setClass id e) (slabLen e) with ⟨u, q'⟩
  rw [hx, hy] at hmem
  obtain ⟨rfl, hpool⟩ := hmem
  simp only [rsPallocNew, hp, hq, hx, hy]
  cases t with
  | none => exact .some ⟨rfl, hpool⟩
  | some t =>
    dsimp only
    cases addSlab e t with
    | none => exact .none
    | some e' => exact .some ⟨rfl, hpool.setClass (.refl e') id⟩

/-- Where the directory of the second pool is full, its `realloc` succeeds. -/
theorem rsPallocNew_eased (h : p.Spare q) (hcd : c.Spare d) (libc : Libc) (id : ℤ) :
    ∃ r, (r = libc.realloc ∨ r = true) ∧ Option.Rel (Agree RsPool.Spare) (rsPallocNew libc p id c)
      (rsPallocNew ⟨libc.malloc, r⟩ q id d) := by
  cases hcd with
  | refl =>
    refine ⟨libc.realloc, Or.inl rfl, ?_⟩
    rcases hg : rsPallocGrow libc c with ⟨g, e⟩
    by_cases hok : g = .ok
    · subst hok
      exact rsPallocNew_spare h rfl hg hg
    · have herr {p : RsPool} : rsPallocNew libc p id c = some (.err, p.setClass id e) := by
        rw [rsPallocNew, hg]
        cases g <;> first | exact absurd rfl hok | rfl
      rw [herr, herr]
      exact .some ⟨rfl, h.setClass (.refl e) id⟩
  | grown _ hfull hcells hlt =>
    exact ⟨true, Or.inr rfl, rsPallocNew_spare h rfl (rsPallocGrow_grown hfull hcells hlt)
      (rsPallocGrow_full hfull hcells hlt rfl)⟩

theorem RsPoolClass.Spare.chunks (h : c.Spare d) : c.chunk = d.chunk ∧ c.freeChunk = d.freeChunk := by
  cases h <;> exact ⟨rfl, rfl⟩

theorem rsPalloc_spare (h : p.Spare q) (libc : Libc) (size : ℕ) (id : ℤ) :
    ∃ r, (r = libc.realloc ∨ r = true) ∧
      Option.Rel (Agree RsPool.Spare) (rsPalloc libc p size id) (rsPalloc ⟨libc.malloc, r⟩ q size id) := by
  by_cases ho : id = RsCode.slabOverflow.toInt
  · refine ⟨libc.realloc, Or.inl rfl, ?_⟩
    rw [rsPalloc, if_pos ho, rsPalloc, if_pos ho]
    exact .some ⟨rfl, h⟩
  have hclass := h.classAt id
  cases hc : p.classAt id with
  | none =>
    have hd := rel_eq_none hclass hc
    refine ⟨libc.realloc, Or.inl rfl, ?_⟩
    rw [rsPalloc, if_neg ho, hc, rsPalloc, if_neg ho, hd]
    exact .none
  | some c =>
    rw [hc] at hclass
    generalize hd : q.classAt id = y at hclass
    cases hclass with
    | @some _ d hcd =>
      obtain ⟨r, hr, hnew⟩ := rsPallocNew_eased h hcd libc id
      refine ⟨r, hr, ?_⟩
      obtain ⟨hchunk, hfree⟩ := hcd.chunks
      rw [rsPalloc_class ho hc, rsPalloc_class ho hd, hchunk, hfree]
      split_ifs
      · refine rel_bind hnew fun x y hxy => ?_
        obtain ⟨code, p'⟩ := x
        obtain ⟨_, q'⟩ := y
        obtain ⟨rfl, hpool⟩ := hxy
        cases code with
        | ok => exact rel_map (hpool.classAt id) fun _ _ hcd => takeChunk_spare hpool hcd
        | _ => exact .some ⟨rfl, hpool⟩
      · exact .some (takeChunk_spare h hcd)

theorem pushFree_spare (h : p.Spare q) (hc : c.Spare d) (a : ℕ) (id : ℤ) :
    Option.Rel RsPool.Spare ((pushFree c a).map (p.setClass id)) ((pushFree d a).map (q.setClass id)) := by
  cases hc with
  | refl =>
    cases pushFree c a with
    | none => exact .none
    | some e => exact .some (h.setClass (.refl e) id)
  | grown _ hfull hcells hlt =>
    unfold pushFree
    change Option.Rel _ (Option.map _ (if d.freeChunk.length < d.totalFree then _ else none)) _
    split_ifs
    · exact .some (h.setClass (.grown { d with freeChunk := a :: d.freeChunk } hfull hcells hlt) id)
    · exact .none

theorem rsPfree_spare (h : p.Spare q) (libc : Libc) (a : ℕ) (id : ℤ) :
    Option.Rel RsPool.Spare (rsPfree libc p a id) (rsPfree libc q a id) := by
  by_cases ho : id = RsCode.slabOverflow.toInt
  · rw [rsPfree, if_pos ho, rsPfree, if_pos ho]
    exact .some h
  · rw [rsPfree, if_neg ho, rsPfree, if_neg ho]
    refine rel_bind (h.classAt id) fun c d hcd => ?_
    cases hcd with
    | refl =>
      split_ifs
      · exact pushFree_spare h (.refl _) a id
      · exact .some h
      · exact pushFree_spare h (.refl _) a id
    | grown _ hfull hcells hlt =>
      change Option.Rel _ (if d.freeChunk.length = d.totalFree then _ else _) _
      split_ifs
      · exact pushFree_spare h (.grown { d with totalFree := growCapacity d.totalFree } hfull hcells hlt)
          a id
      · exact .some h
      · exact pushFree_spare h (.grown d hfull hcells hlt) a id

theorem destroySlabs_congr {cells cells' : List (Option ℕ)} {n : ℕ} (h : ∀ j < n, cells[j]? = cells'[j]?) :
    destroySlabs cells n = destroySlabs cells' n := by
  induction n with
  | zero => rfl
  | succ n ih =>
    rw [destroySlabs, destroySlabs, ih fun j hj => h j (Nat.lt_succ_of_lt hj), h n (Nat.lt_succ_self n)]

def SameSlabs (l m : List Freed) : Prop := l.filterMap Freed.slab? = m.filterMap Freed.slab?

theorem sameSlabs_refl (x : Option (List Freed)) : Option.Rel SameSlabs x x := by
  cases x with
  | none => exact .none
  | some l => exact .some rfl

theorem destroySlabs_grown (hfull : d.usedSlab = d.totalSlab)
    (hcells : (d.slab.getD []).length = d.totalSlab) (hlt : d.totalSlab < 2 ^ 31) :
    destroySlabs (resizeSlab d.slab (growCapacity d.totalSlab)) (intBound d.usedSlab) =
      destroySlabs (d.slab.getD []) (intBound d.usedSlab) := by
  have hgt := growCapacity_gt hlt
  have htake : (resizeSlab d.slab (growCapacity d.totalSlab)).take d.totalSlab =
      (d.slab.getD []).take d.totalSlab := take_resizeSlab hcells.ge hgt.le
  rw [intBound, if_pos (hfull ▸ hlt), hfull]
  refine destroySlabs_congr fun j hj => ?_
  rw [← List.getElem?_take_of_lt hj, htake, List.getElem?_take_of_lt hj]

theorem destroyClass_spare (hc : c.Spare d) (flag : RsPoolFlag) (i : ℕ) :
    Option.Rel SameSlabs (destroyClass flag i c) (destroyClass flag i d) := by
  cases hc with
  | refl => exact sameSlabs_refl _
  | grown _ hfull hcells hlt =>
    have hloop := destroySlabs_grown hfull hcells hlt
    have hdirectory : d.grown.slab = some (resizeSlab d.slab (growCapacity d.totalSlab)) := rfl
    have hused : d.grown.usedSlab = d.usedSlab := rfl
    unfold destroyClass
    rw [hdirectory, hused]
    dsimp only
    rw [hloop]
    refine rel_map (r := SameSlabs) ?_ fun a b hab => ?_
    · cases hslab : d.slab with
      | some cells =>
        -- the directory itself is freed in both
        exact sameSlabs_refl _
      | none =>
        rw [hslab, Option.getD_none, List.length_nil] at hcells
        have hzero : intBound d.usedSlab = 0 := by rw [hfull, ← hcells]; rfl
        rw [Option.getD_none, hzero]
        cases flag <;> exact .some rfl
    · exact (List.filterMap_append ..).trans ((congrArg (· ++ _) hab).trans (List.filterMap_append ..).symm)

theorem destroyClasses_spare {l m : List RsPoolClass} (h : List.Forall₂ RsPoolClass.Spare l m)
    (flag : RsPoolFlag) (i : ℕ) : Option.Rel SameSlabs (destroyClasses flag i l) (destroyClasses flag i m) := by
  induction h generalizing i with
  | nil => exact .some rfl
  | cons hcd _ ih =>
    refine rel_bind (destroyClass_spare hcd flag i) fun a b hab => rel_map (ih (i + 1)) fun x y hxy => ?_
    rw [SameSlabs, List.filterMap_append, List.filterMap_append, hab, hxy]

theorem rsDestroyPool_spare (h : p.Spare q) : Option.Rel SameSlabs (rsDestroyPool p) (rsDestroyPool q) := by
  obtain ⟨l, hl, rfl⟩ := h
  refine rel_map (destroyClasses_spare hl _ 0) fun x y hxy => ?_
  rw [SameSlabs, List.filterMap_append, List.filterMap_append, hxy]

end MySQLSyncer.Core
