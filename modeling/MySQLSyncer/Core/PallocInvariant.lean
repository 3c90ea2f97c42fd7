import Mathlib.Data.List.ReduceOption
import MySQLSyncer.Core.Palloc

/-! # Live chunks never overlap

The invariant accounts for every address of the pool once: as part of a live chunk, of a
recorded free chunk, of the uncarved rest of a current slab, or of the unused region.
-/
namespace MySQLSyncer.Core
open Lib

def RsPoolClass.rest (c : RsPoolClass) : List Extent :=
  (c.chunk.map fun t => ⟨t, c.free * c.size⟩).toList

def RsPoolClass.extents (c : RsPoolClass) : List Extent :=
  c.freeChunk.map (⟨·, c.size⟩) ++ c.rest

def RsPool.reserve (p : RsPool) : List Extent :=
  match p.flag with
  | .pagealloc => []
  | .prealloc => [⟨p.cur, p.freeSize⟩]

def PoolUse.extents (s : PoolUse) : List Extent :=
  s.pool.slabClass.flatMap RsPoolClass.extents ++ (s.pool.reserve ++ s.live.map Chunk.extent)

structure RsPoolClass.Inv (maxSize live : ℕ) (c : RsPoolClass) : Prop where
  num_pos : 1 ≤ c.num
  size_num : c.size * c.num < 2 ^ 32
  big : maxSize < 2 ^ 31 * c.size
  free_lt : c.free ≤ c.num
  chunk_free : c.chunk.isSome ↔ 0 < c.free
  capacity : c.freeChunk.length ≤ c.totalFree
  cells : (c.slab.getD []).length = c.totalSlab
  used : c.usedSlab ≤ c.totalSlab
  count : live + c.freeChunk.length + c.free = c.usedSlab * c.num
  inside : ∀ e ∈ c.extents, ∃ b ∈ c.slabs, e.Within b

def RsPoolClass.held (c : RsPoolClass) : ℕ := c.usedSlab * (c.size * c.num)

def PoolUse.liveOf (s : PoolUse) (i : ℕ) : ℕ := s.live.countP (·.id = (i : ℤ))

structure PoolUse.Inv (s : PoolUse) : Prop where
  max_lt : s.pool.maxSize < 2 ^ 32
  balance : s.pool.usedSize + s.pool.freeSize = s.pool.maxSize
  held : (s.pool.slabClass.map RsPoolClass.held).sum = s.pool.usedSize
  cur : s.pool.flag = .prealloc → s.pool.cur = s.pool.start + s.pool.usedSize
  region : s.pool.flag = .prealloc → ∀ c ∈ s.pool.slabClass, ∀ b ∈ c.slabs,
    b.Within ⟨s.pool.start, s.pool.maxSize⟩
  cls : ∀ (i : ℕ) (c : RsPoolClass), s.pool.slabClass[i]? = some c → c.Inv s.pool.maxSize (s.liveOf i)
  apart : s.extents.Pairwise Extent.Apart
  owned : ∀ x ∈ s.live, ¬ x.IsOverflow → ∃ c, s.pool.classAt x.id = some c ∧
    x.extent.len = c.size ∧ ∃ b ∈ c.slabs, x.extent.Within b
  overflow_len : ∀ x ∈ s.live, x.IsOverflow → 0 < x.extent.len

theorem RsPoolClass.Inv.size_pos {m l : ℕ} {c : RsPoolClass} (h : c.Inv m l) : 0 < c.size := by
  have hbig := h.big
  rcases Nat.eq_zero_or_pos c.size with h0 | h0
  · rw [h0] at hbig
    omega
  · exact h0

theorem classAt_eq_some {p : RsPool} {id : ℤ} {c : RsPoolClass} :
    p.classAt id = some c ↔ 0 ≤ id ∧ p.slabClass[id.toNat]? = some c := by
  unfold RsPool.classAt
  split_ifs with h <;> simp [h]

theorem not_overflow_of_nonneg {id : ℤ} (h : 0 ≤ id) : id ≠ RsCode.slabOverflow.toInt := by
  intro h'
  rw [h'] at h
  exact absurd h (by decide)

/-- Every range of the pool lies in a block that the pool or a user got from `malloc`. -/
theorem PoolUse.Inv.in_block {s : PoolUse} (h : s.Inv) {e : Extent} (he : e ∈ s.extents) :
    ∃ b ∈ s.blocks, e.Within b := by
  have hslab : ∀ c ∈ s.pool.slabClass, ∀ b ∈ c.slabs, ∃ d ∈ s.blocks, b.Within d := by
    intro c hc b hb
    unfold PoolUse.blocks
    cases hf : s.pool.flag with
    | pagealloc => exact ⟨b, List.mem_append_right _ (List.mem_flatMap.mpr ⟨c, hc, hb⟩), Extent.Within.refl b⟩
    | prealloc => exact ⟨_, List.mem_append_right _ (List.mem_singleton_self _), h.region hf c hc b hb⟩
  rcases List.mem_append.mp he with he | he
  · obtain ⟨c, hc, hec⟩ := List.mem_flatMap.mp he
    obtain ⟨i, hi⟩ := List.mem_iff_getElem?.mp hc
    obtain ⟨b, hb, heb⟩ := (h.cls i c hi).inside e hec
    obtain ⟨d, hd, hbd⟩ := hslab c hc b hb
    exact ⟨d, hd, heb.trans hbd⟩
  rcases List.mem_append.mp he with he | he
  · cases hf : s.pool.flag with
    | pagealloc => simp [RsPool.reserve, hf] at he
    | prealloc =>
      obtain rfl : e = ⟨s.pool.cur, s.pool.freeSize⟩ := by simpa [RsPool.reserve, hf] using he
      refine ⟨⟨s.pool.start, s.pool.maxSize⟩, ?_, ?_⟩
      · simp [PoolUse.blocks, hf]
      · have hcur := h.cur hf
        have hbal := h.balance
        constructor <;> dsimp only <;> omega
  · obtain ⟨x, hx, rfl⟩ := List.mem_map.mp he
    by_cases ho : x.IsOverflow
    · refine ⟨x.extent, List.mem_append_left _ (List.mem_map_of_mem ?_), Extent.Within.refl _⟩
      exact List.mem_filter.mpr ⟨hx, decide_eq_true ho⟩
    · obtain ⟨c, hc, -, b, hb, hxb⟩ := h.owned x hx ho
      have hmem := List.mem_of_getElem? (classAt_eq_some.mp hc).2
      obtain ⟨d, hd, hbd⟩ := hslab c hmem b hb
      exact ⟨d, hd, hxb.trans hbd⟩

theorem PoolUse.Inv.fresh {s : PoolUse} (h : s.Inv) {a : Extent} (ha : ∀ b ∈ s.blocks, a.Apart b)
    {e : Extent} (he : e ∈ s.extents) : a.Apart e := by
  obtain ⟨b, hb, heb⟩ := h.in_block he
  exact ((ha b hb).symm.mono heb).symm

theorem PoolUse.Inv.len_pos {s : PoolUse} {x : Chunk} (h : s.Inv) (hx : x ∈ s.live) : 0 < x.extent.len := by
  by_cases ho : x.IsOverflow
  · exact h.overflow_len x hx ho
  · obtain ⟨c, hc, hlen, -⟩ := h.owned x hx ho
    rw [hlen]
    exact (h.cls _ c (classAt_eq_some.mp hc).2).size_pos

theorem PoolUse.Inv.safe {s : PoolUse} (h : s.Inv) : s.Safe where
  disjoint := by
    have hl := (List.pairwise_append.mp (List.pairwise_append.mp h.apart).2.1).2.1
    exact (List.pairwise_map.mp hl).imp fun hxy => hxy.disjoint
  owned := h.owned
  notFree := by
    intro x hx c hc hfree
    obtain ⟨i, hi⟩ := List.mem_iff_getElem?.mp hc
    have hpos := (h.cls i c hi).size_pos
    have hmem : (⟨x.extent.addr, c.size⟩ : Extent) ∈ s.pool.slabClass.flatMap RsPoolClass.extents :=
      List.mem_flatMap.mpr ⟨c, hc, List.mem_append_left _ (List.mem_map.mpr ⟨_, hfree, rfl⟩)⟩
    have hlive : x.extent ∈ s.pool.reserve ++ s.live.map Chunk.extent :=
      List.mem_append_right _ (List.mem_map_of_mem hx)
    exact ((List.pairwise_append.mp h.apart).2.2 _ hmem _ hlive).ne hpos (h.len_pos hx) rfl
  balance := h.balance
  bounded := by
    intro hf
    have hcur := h.cur hf
    have hbal := h.balance
    omega

/-- From `s` to `t` class `i` goes from `c` to `d`: it keeps its slabs, and new live chunks
are its own. -/
structure PoolUse.Changes (s t : PoolUse) (i : ℕ) (c d : RsPoolClass) : Prop where
  found : s.pool.slabClass[i]? = some c
  table : t.pool.slabClass = s.pool.slabClass.set i d
  flag : t.pool.flag = s.pool.flag
  start : t.pool.start = s.pool.start
  maxSize : t.pool.maxSize = s.pool.maxSize
  size : d.size = c.size
  slabs : ∀ b ∈ c.slabs, b ∈ d.slabs
  live : ∀ x ∈ t.live, x ∈ s.live ∨
    (x.id = i ∧ x.extent.len = d.size ∧ ∃ b ∈ d.slabs, x.extent.Within b)
  others : ∀ j, j ≠ i → t.liveOf j = s.liveOf j

def PoolUse.around (s : PoolUse) (c : RsPoolClass) : List Extent :=
  c.extents ++ (s.pool.reserve ++ s.live.map Chunk.extent)

variable {s t : PoolUse} {i : ℕ} {c d : RsPoolClass}

theorem PoolUse.Changes.getElem? (h : s.Changes t i c d) (j : ℕ) :
    t.pool.slabClass[j]? = if i = j then some d else s.pool.slabClass[j]? := by
  rw [h.table, List.getElem?_set]
  split_ifs with hij hlt
  · rfl
  · exact absurd (List.getElem?_eq_some_iff.mp h.found).1 hlt
  · rfl

theorem PoolUse.Changes.mem (h : s.Changes t i c d) {x : RsPoolClass}
    (hx : x ∈ t.pool.slabClass) : x = d ∨ x ∈ s.pool.slabClass := by
  rw [h.table] at hx
  exact (List.mem_or_eq_of_mem_set hx).symm

theorem flatMap_extents_perm {l r : List RsPoolClass} (h : l.Perm (c :: r)) (x : List Extent) :
    (l.flatMap RsPoolClass.extents ++ x).Perm
      (r.flatMap RsPoolClass.extents ++ (c.extents ++ x)) := by
  refine ((h.flatMap_right _).append_right x).trans ?_
  rw [List.flatMap_cons, ← List.append_assoc]
  exact List.perm_append_comm.append_right x

theorem PoolUse.Changes.extents_perm (h : s.Changes t i c d) :
    ∃ r : List Extent, s.extents.Perm (r ++ s.around c) ∧ t.extents.Perm (r ++ t.around d) := by
  obtain ⟨r, hs, ht⟩ := perm_set h.found
  have htd := ht d
  rw [← h.table] at htd
  exact ⟨r.flatMap RsPoolClass.extents, flatMap_extents_perm hs _, flatMap_extents_perm htd _⟩

theorem PoolUse.Changes.held_sum (h : s.Changes t i c d) :
    (t.pool.slabClass.map RsPoolClass.held).sum + c.held =
      (s.pool.slabClass.map RsPoolClass.held).sum + d.held := by
  obtain ⟨r, hs, ht⟩ := perm_set h.found
  rw [h.table, ((ht d).map _).sum_eq, (hs.map _).sum_eq]
  simp only [List.map_cons, List.sum_cons]
  omega

theorem PoolUse.Inv.of_changes (h : s.Inv) (hch : s.Changes t i c d)
    (hbal : t.pool.usedSize + t.pool.freeSize = t.pool.maxSize)
    (hheld : d.held + s.pool.usedSize = c.held + t.pool.usedSize)
    (hcur : s.pool.flag = .prealloc → t.pool.cur = t.pool.start + t.pool.usedSize)
    (hreg : s.pool.flag = .prealloc → ∀ b ∈ d.slabs, b.Within ⟨s.pool.start, s.pool.maxSize⟩)
    (hcls : d.Inv s.pool.maxSize (t.liveOf i))
    (hapart : ∀ r, (r ++ s.around c).Pairwise Extent.Apart → (∀ e ∈ r, e ∈ s.extents) →
      (r ++ t.around d).Pairwise Extent.Apart) : t.Inv where
  max_lt := hch.maxSize ▸ h.max_lt
  balance := hbal
  held := by
    have h1 := hch.held_sum
    have h2 := h.held
    omega
  cur := fun hf => hcur (hch.flag ▸ hf)
  region := by
    intro hf x hx
    rw [hch.start, hch.maxSize]
    rw [hch.flag] at hf
    rcases hch.mem hx with rfl | hx
    · exact hreg hf
    · exact h.region hf x hx
  cls := by
    intro j x hx
    rw [hch.maxSize]
    rw [hch.getElem?] at hx
    split_ifs at hx with hij
    · obtain rfl := Option.some.inj hx
      exact hij ▸ hcls
    · rw [hch.others j (Ne.symm hij)]
      exact h.cls j x hx
  apart := by
    obtain ⟨r, hs, ht⟩ := hch.extents_perm
    refine (Extent.pairwise_perm ht).mpr (hapart r ((Extent.pairwise_perm hs).mp h.apart) ?_)
    exact fun e he => hs.mem_iff.mpr (List.mem_append_left _ he)
  owned := by
    intro x hx ho
    rcases hch.live x hx with hx | ⟨hid, hlen, hb⟩
    · obtain ⟨y, hy, hlen, b, hb, hxb⟩ := h.owned x hx ho
      obtain ⟨hpos, hy⟩ := classAt_eq_some.mp hy
      by_cases hij : i = x.id.toNat
      · obtain rfl : c = y := Option.some.inj (hch.found.symm.trans (hij ▸ hy))
        refine ⟨d, classAt_eq_some.mpr ⟨hpos, ?_⟩, hlen.trans hch.size.symm, b, hch.slabs b hb, hxb⟩
        rw [hch.getElem?, if_pos hij]
      · refine ⟨y, classAt_eq_some.mpr ⟨hpos, ?_⟩, hlen, b, hb, hxb⟩
        rw [hch.getElem?, if_neg hij, hy]
    · refine ⟨d, classAt_eq_some.mpr ⟨by omega, ?_⟩, hlen, hb⟩
      rw [hch.getElem?, if_pos (by omega)]
  overflow_len := by
    intro x hx ho
    rcases hch.live x hx with hx | ⟨hid, -⟩
    · exact h.overflow_len x hx ho
    · exact absurd ho (not_overflow_of_nonneg (by omega))

theorem growCapacity_gt {n : ℕ} (h : n < 2 ^ 31) : n < growCapacity n := by
  unfold growCapacity
  split_ifs <;> omega

theorem PoolUse.Inv.class_held (h : s.Inv) (hc : s.pool.slabClass[i]? = some c) :
    c.held ≤ s.pool.usedSize := by
  rw [← h.held]
  exact List.le_sum_of_mem (List.mem_map_of_mem (List.mem_of_getElem? hc))

/-- The slots of a class are fewer than the 32-bit capacities can count. -/
theorem PoolUse.Inv.slots_lt (h : s.Inv) (hc : s.pool.slabClass[i]? = some c) :
    c.usedSlab * c.num < 2 ^ 31 := by
  have hheld := h.class_held hc
  have hbal := h.balance
  have hbig := (h.cls i c hc).big
  rw [RsPoolClass.held, Nat.mul_left_comm, Nat.mul_comm] at hheld
  exact Nat.lt_of_mul_lt_mul_right (by omega : c.usedSlab * c.num * c.size < 2 ^ 31 * c.size)

theorem PoolUse.Inv.usedSlab_lt (h : s.Inv) (hc : s.pool.slabClass[i]? = some c) :
    c.usedSlab < 2 ^ 31 :=
  (Nat.le_mul_of_pos_right _ (h.cls i c hc).num_pos).trans_lt (h.slots_lt hc)

theorem slabLen_eq (h : s.Inv) (hc : s.pool.slabClass[i]? = some c) :
    slabLen c = c.size * c.num := Nat.mod_eq_of_lt (h.cls i c hc).size_num

def RsPoolClass.withSlab (c : RsPoolClass) (cells : List (Option ℕ)) : RsPoolClass :=
  { c with slab := some cells, totalSlab := cells.length }

theorem length_resizeSlab {slab : Option (List (Option ℕ))} {n : ℕ} (h : (slab.getD []).length ≤ n) :
    (resizeSlab slab n).length = n := by
  rw [resizeSlab, List.length_append, List.length_take, List.length_replicate]
  omega

theorem take_resizeSlab {slab : Option (List (Option ℕ))} {m n : ℕ} (hm : m ≤ (slab.getD []).length)
    (hn : m ≤ n) : (resizeSlab slab n).take m = (slab.getD []).take m := by
  rw [resizeSlab, List.take_append_of_le_length (by rw [List.length_take]; omega), List.take_take,
    min_eq_left hn]

/-- `rs_palloc_grow` keeps the recorded slabs and makes room for one more, unless it needs
`realloc` and that fails. -/
theorem rsPallocGrow_ok (libc : Libc) (h : s.Inv) (hc : s.pool.slabClass[i]? = some c)
    (hr : c.usedSlab = c.totalSlab → libc.realloc = true) :
    ∃ cells, rsPallocGrow libc c = (.ok, c.withSlab cells) ∧
      c.usedSlab < cells.length ∧ cells.take c.usedSlab = (c.slab.getD []).take c.usedSlab := by
  have hinv := h.cls i c hc
  have hgt := growCapacity_gt (h.usedSlab_lt hc)
  have hlen := hinv.cells
  have hused := hinv.used
  by_cases heq : c.usedSlab = c.totalSlab
  · rw [heq] at hgt
    have hsize : (resizeSlab c.slab (growCapacity c.totalSlab)).length = growCapacity c.totalSlab :=
      length_resizeSlab (by omega)
    refine ⟨resizeSlab c.slab (growCapacity c.totalSlab), ?_, by omega, ?_⟩
    · rw [rsPallocGrow, if_pos heq, if_pos (hr heq), RsPoolClass.withSlab, hsize]
    · exact take_resizeSlab (by omega) (by omega)
  · cases hslab : c.slab with
    | none =>
      rw [hslab] at hlen
      change 0 = c.totalSlab at hlen
      omega
    | some cells =>
      rw [hslab] at hlen
      change cells.length = c.totalSlab at hlen
      refine ⟨cells, ?_, by omega, rfl⟩
      rw [rsPallocGrow, if_neg heq, RsPoolClass.withSlab, hlen, ← hslab]

theorem slabs_withSlab {cells : List (Option ℕ)}
    (h : cells.take c.usedSlab = (c.slab.getD []).take c.usedSlab) :
    (c.withSlab cells).slabs = c.slabs := by
  change (cells.take c.usedSlab).reduceOption.map _ = _
  rw [h]
  rfl

/-- The class after `rs_palloc_new` recorded the slab at `a`. -/
def RsPoolClass.withNewSlab (c : RsPoolClass) (cells : List (Option ℕ)) (a : ℕ) : RsPoolClass :=
  { c with chunk := some a, free := c.num, usedSlab := c.usedSlab + 1,
           slab := some (cells.set c.usedSlab (some a)), totalSlab := cells.length }

theorem addSlab_ok {cells : List (Option ℕ)} (hlen : c.usedSlab < cells.length)
    (hlt : c.usedSlab < 2 ^ 31) (a : ℕ) :
    addSlab (c.withSlab cells) a = some (c.withNewSlab cells a) := by
  have hmod : (c.usedSlab + 1) % 2 ^ 32 = c.usedSlab + 1 := Nat.mod_eq_of_lt (by omega)
  simp only [addSlab, RsPoolClass.withSlab, RsPoolClass.withNewSlab, if_pos hlen, hmod]

theorem slabs_withNewSlab {cells : List (Option ℕ)} (hlen : c.usedSlab < cells.length)
    (h : cells.take c.usedSlab = (c.slab.getD []).take c.usedSlab) (a : ℕ) :
    (c.withNewSlab cells a).slabs = c.slabs ++ [⟨a, c.size * c.num⟩] := by
  have htake : (cells.set c.usedSlab (some a)).take (c.usedSlab + 1) =
      (c.slab.getD []).take c.usedSlab ++ [some a] := by
    rw [List.take_add_one, List.take_set_of_le le_rfl, h, List.getElem?_set_self hlen]
    rfl
  change (((cells.set c.usedSlab (some a)).take (c.usedSlab + 1)).reduceOption).map _ = _
  rw [htake, List.reduceOption_append, List.map_append]
  rfl

theorem PoolUse.Inv.withSlab (h : s.Inv) (hc : s.pool.slabClass[i]? = some c)
    {cells : List (Option ℕ)} (hlen : c.usedSlab < cells.length)
    (htake : cells.take c.usedSlab = (c.slab.getD []).take c.usedSlab) :
    (⟨s.pool.setClass i (c.withSlab cells), s.live⟩ : PoolUse).Inv := by
  have hinv := h.cls i c hc
  have hslabs := slabs_withSlab htake
  refine h.of_changes (c := c) (d := c.withSlab cells) (i := i) ?_ h.balance rfl h.cur ?_ ?_ ?_
  · exact { found := hc, table := rfl, flag := rfl, start := rfl, maxSize := rfl, size := rfl,
            slabs := fun b hb => hslabs ▸ hb, live := fun x hx => Or.inl hx,
            others := fun _ _ => rfl }
  · intro hf b hb
    exact h.region hf c (List.mem_of_getElem? hc) b (hslabs ▸ hb)
  · exact { hinv with cells := rfl, used := hlen.le, inside := hslabs ▸ hinv.inside }
  · exact fun r hr _ => hr

/-- A class whose current slab is used up and that records a new slab at `a`. -/
theorem RsPoolClass.Inv.withNewSlab {m l a : ℕ} {cells : List (Option ℕ)} (hinv : c.Inv m l)
    (hchunk : c.chunk = none) (hfree : c.freeChunk = []) (hlen : c.usedSlab < cells.length)
    (htake : cells.take c.usedSlab = (c.slab.getD []).take c.usedSlab) :
    (c.withNewSlab cells a).Inv m l := by
  have hnum := hinv.num_pos
  have hcount := hinv.count
  have hfree0 : c.free = 0 := by
    by_contra h0
    have hsome := hinv.chunk_free.mpr (Nat.pos_of_ne_zero h0)
    rw [hchunk] at hsome
    exact absurd hsome (by decide)
  exact { hinv with
    free_lt := le_rfl
    chunk_free := ⟨fun _ => hnum, fun _ => rfl⟩
    cells := List.length_set
    used := hlen
    count := by
      change l + c.freeChunk.length + c.num = (c.usedSlab + 1) * c.num
      rw [Nat.add_mul]
      omega
    inside := by
      intro e he
      obtain rfl : e = ⟨a, c.num * c.size⟩ := by
        simpa [RsPoolClass.extents, RsPoolClass.rest, RsPoolClass.withNewSlab, hfree] using he
      refine ⟨⟨a, c.size * c.num⟩, ?_, ?_⟩
      · rw [slabs_withNewSlab hlen htake]
        exact List.mem_append_right _ (List.mem_singleton_self _)
      · rw [Nat.mul_comm] }

theorem around_of_empty (hchunk : c.chunk = none) (hfree : c.freeChunk = []) :
    s.around c = s.pool.reserve ++ s.live.map Chunk.extent := by
  simp [PoolUse.around, RsPoolClass.extents, RsPoolClass.rest, hchunk, hfree]

theorem around_withNewSlab {a : ℕ} {cells : List (Option ℕ)} (hfree : c.freeChunk = []) :
    t.around (c.withNewSlab cells a) =
      ⟨a, c.size * c.num⟩ :: (t.pool.reserve ++ t.live.map Chunk.extent) := by
  simp [PoolUse.around, RsPoolClass.extents, RsPoolClass.rest, RsPoolClass.withNewSlab, hfree,
    Nat.mul_comm]

theorem PoolUse.Inv.newSlab (h : s.Inv) (hc : s.pool.slabClass[i]? = some c)
    (hchunk : c.chunk = none) (hfree : c.freeChunk = []) {cells : List (Option ℕ)} {a : ℕ}
    (hlen : c.usedSlab < cells.length)
    (htake : cells.take c.usedSlab = (c.slab.getD []).take c.usedSlab)
    (hch : s.Changes t i c (c.withNewSlab cells a)) (hlive : t.live = s.live)
    (hfit : slabLen c ≤ s.pool.freeSize)
    (hused : t.pool.usedSize = s.pool.usedSize + slabLen c)
    (hleft : t.pool.freeSize = s.pool.freeSize - slabLen c)
    (hpre : s.pool.flag = .prealloc → a = s.pool.cur ∧ t.pool.cur = s.pool.cur + slabLen c)
    (hpage : s.pool.flag = .pagealloc → ∀ e ∈ s.extents, (Extent.mk a (slabLen c)).Apart e) :
    t.Inv := by
  have hslab := slabLen_eq h hc
  have hbal := h.balance
  rw [hslab] at hfit hused hleft hpre hpage
  refine h.of_changes hch (by rw [hch.maxSize]; omega) ?_ ?_ ?_ ?_ ?_
  · change (c.usedSlab + 1) * (c.size * c.num) + _ = c.usedSlab * (c.size * c.num) + _
    rw [hused, Nat.add_mul]
    omega
  · intro hf
    rw [(hpre hf).2, h.cur hf, hch.start, hused, Nat.add_assoc]
  · intro hf b hb
    rw [slabs_withNewSlab hlen htake] at hb
    rcases List.mem_append.mp hb with hb | hb
    · exact h.region hf c (List.mem_of_getElem? hc) b hb
    · obtain rfl := List.mem_singleton.mp hb
      have hcur := h.cur hf
      rw [(hpre hf).1]
      constructor <;> dsimp only <;> omega
  · rw [PoolUse.liveOf, hlive]
    exact (h.cls i c hc).withNewSlab hchunk hfree hlen htake
  · intro r hr hrs
    rw [around_of_empty hchunk hfree] at hr
    rw [around_withNewSlab hfree, hlive, Extent.pairwise_perm List.perm_middle]
    cases hf : s.pool.flag with
    | pagealloc =>
      have hft : t.pool.flag = .pagealloc := hch.flag.trans hf
      rw [RsPool.reserve, hf, List.nil_append] at hr
      rw [RsPool.reserve, hft, List.nil_append]
      refine Extent.pairwise_cons_of_fresh hr fun e he => hpage hf e ?_
      rcases List.mem_append.mp he with he | he
      · exact hrs e he
      · exact List.mem_append_right _ (List.mem_append_right _ he)
    | prealloc =>
      have hft : t.pool.flag = .prealloc := hch.flag.trans hf
      obtain ⟨rfl, hcur⟩ := hpre hf
      rw [RsPool.reserve, hf, List.singleton_append, Extent.pairwise_perm List.perm_middle] at hr
      rw [RsPool.reserve, hft, List.singleton_append,
        Extent.pairwise_perm (List.perm_middle.cons _), hcur, hleft]
      refine Extent.pairwise_split hr ⟨le_rfl, ?_⟩ ⟨?_, ?_⟩ (Or.inl le_rfl) <;>
        dsimp only <;> omega

def answers (a : ℕ) : Libc := ⟨fun _ => some a, true⟩

section equations
variable {libc : Libc} {p q : RsPool} {size a : ℕ} {id : ℤ} {e : RsPoolClass}

theorem rsPmemalloc_full (h : p.freeSize < size) : rsPmemalloc libc p size = (none, p) := if_pos h

theorem rsPmemalloc_pagealloc (h : ¬ p.freeSize < size) (hf : p.flag = .pagealloc) :
    rsPmemalloc libc p size =
      (libc.malloc size, ((libc.malloc size).map fun _ => p.take size).getD p) := by
  rw [rsPmemalloc, if_neg h, hf]
  cases libc.malloc size <;> rfl

theorem rsPmemalloc_prealloc (h : ¬ p.freeSize < size) (hf : p.flag = .prealloc) :
    rsPmemalloc libc p size = (some p.cur, { p.take size with cur := p.cur + size }) := by
  rw [rsPmemalloc, if_neg h, hf]

theorem rsPallocNew_full (hg : rsPallocGrow libc c = (.ok, d))
    (hm : rsPmemalloc libc (p.setClass id d) (slabLen d) = (none, q)) :
    rsPallocNew libc p id c = some (.err, q) := by
  simp only [rsPallocNew, hg, hm]

theorem rsPallocNew_slab (hg : rsPallocGrow libc c = (.ok, d))
    (hm : rsPmemalloc libc (p.setClass id d) (slabLen d) = (some a, q))
    (he : addSlab d a = some e) : rsPallocNew libc p id c = some (.ok, q.setClass id e) := by
  simp only [rsPallocNew, hg, hm, he, Option.map_some]

theorem rsPalloc_class (ho : id ≠ RsCode.slabOverflow.toInt) (hc : p.classAt id = some c) :
    rsPalloc libc p size id = if c.chunk = none ∧ c.freeChunk = [] then
      (rsPallocNew libc p id c).bind fun
        | (.ok, p) => (p.classAt id).map fun c => takeChunk p id c
        | (_, p) => some (none, p)
    else some (takeChunk p id c) := by
  rw [rsPalloc, if_neg ho, hc]
  rfl

theorem rsPfree_class (ho : id ≠ RsCode.slabOverflow.toInt) (hc : p.classAt id = some c) :
    rsPfree libc p a id = if c.freeChunk.length = c.totalFree then
      if libc.realloc then
        (pushFree { c with totalFree := growCapacity c.totalFree } a).map (p.setClass id)
      else some p
    else (pushFree c a).map (p.setClass id) := by
  rw [rsPfree, if_neg ho, hc, Option.bind_some]

theorem take_usedSize (h : p.usedSize + size < 2 ^ 32) :
    (p.take size).usedSize = p.usedSize + size := Nat.mod_eq_of_lt h

theorem rsPmemalloc_keeps (libc : Libc) (p : RsPool) (size : ℕ) :
    (rsPmemalloc libc p size).2.slabClass = p.slabClass ∧ (rsPmemalloc libc p size).2.chunkSize = p.chunkSize := by
  rw [rsPmemalloc]
  split_ifs
  · exact ⟨rfl, rfl⟩
  · cases p.flag with
    | pagealloc => cases libc.malloc size <;> exact ⟨rfl, rfl⟩
    | prealloc => exact ⟨rfl, rfl⟩

/-- `rs_palloc_new` changes its class only: by room in the directory, or by a slab as well. -/
theorem rsPallocNew_cases {code : RsCode} (h : rsPallocNew libc p id c = some (code, q)) :
    ∃ d, q.slabClass = p.slabClass.set id.toNat d ∧
      (d = (rsPallocGrow libc c).2 ∨ ∃ t, addSlab (rsPallocGrow libc c).2 t = some d) := by
  rw [rsPallocNew] at h
  rcases hg : rsPallocGrow libc c with ⟨g, c'⟩
  rw [hg] at h
  have hmem := (rsPmemalloc_keeps libc (p.setClass id c') (slabLen c')).1
  cases g with
  | ok =>
    rcases hm : rsPmemalloc libc (p.setClass id c') (slabLen c') with ⟨m, p'⟩
    rw [hm] at hmem
    simp only [hm] at h
    cases m with
    | none =>
      obtain ⟨-, rfl⟩ := Prod.mk.inj (Option.some.inj h)
      exact ⟨c', hmem, Or.inl rfl⟩
    | some t =>
      obtain ⟨d, hd, heq⟩ := Option.map_eq_some_iff.mp h
      obtain ⟨-, rfl⟩ := Prod.mk.inj heq
      refine ⟨d, ?_, Or.inr ⟨t, hd⟩⟩
      change p'.slabClass.set id.toNat d = _
      rw [hmem]
      exact List.set_set ..
  | _ =>
    obtain ⟨-, rfl⟩ := Prod.mk.inj (Option.some.inj h)
    exact ⟨c', rfl, Or.inl rfl⟩

/-- `rs_palloc` asks `malloc`, fails to get a slab, or takes a chunk of its class, in which there
may be a new slab. -/
theorem rsPalloc_cases {t : Option ℕ} (h : rsPalloc libc p size id = some (t, q)) : q = p ∨
    ∃ c, p.classAt id = some c ∧ ((∃ code, rsPallocNew libc p id c = some (code, q)) ∨
      ∃ p' d, (p' = p ∨ ∃ code, rsPallocNew libc p id c = some (code, p')) ∧
        p'.classAt id = some d ∧ takeChunk p' id d = (t, q)) := by
  rw [rsPalloc] at h
  split_ifs at h
  · exact Or.inl (Prod.mk.inj (Option.some.inj h)).2.symm
  · obtain ⟨c, hc, h⟩ := Option.bind_eq_some_iff.mp h
    refine Or.inr ⟨c, hc, ?_⟩
    split_ifs at h
    · obtain ⟨⟨code, p'⟩, hnew, h⟩ := Option.bind_eq_some_iff.mp h
      cases code with
      | ok =>
        obtain ⟨d, hd, htake⟩ := Option.map_eq_some_iff.mp h
        exact Or.inr ⟨p', d, Or.inr ⟨_, hnew⟩, hd, htake⟩
      | _ =>
        obtain ⟨-, rfl⟩ := Prod.mk.inj (Option.some.inj h)
        exact Or.inl ⟨_, hnew⟩
    · exact Or.inr ⟨p, c, Or.inl rfl, hc, Option.some.inj h⟩

end equations

/-- `rs_palloc_new` leaves room in the directory when it gets no memory, or a slab to carve. -/
theorem PoolUse.Inv.palloc_new (libc : Libc) (h : s.Inv) (hc : s.pool.slabClass[i]? = some c)
    (hchunk : c.chunk = none) (hfree : c.freeChunk = [])
    (hr : c.usedSlab = c.totalSlab → libc.realloc = true)
    (ha : ∀ a ∈ libc.malloc (slabLen c), ∀ e ∈ s.extents, (Extent.mk a (slabLen c)).Apart e) :
    ∃ cells, rsPallocGrow libc c = (.ok, c.withSlab cells) ∧ c.usedSlab < cells.length ∧
      cells.take c.usedSlab = (c.slab.getD []).take c.usedSlab ∧
      let p := s.pool.setClass i (c.withSlab cells)
      (rsPmemalloc libc p (slabLen c) = (none, p) ∧ (⟨p, s.live⟩ : PoolUse).Inv ∨
        ∃ t q, rsPmemalloc libc p (slabLen c) = (some t, q) ∧
          addSlab (c.withSlab cells) t = some (c.withNewSlab cells t) ∧
          (⟨q.setClass i (c.withNewSlab cells t), s.live⟩ : PoolUse).Inv ∧
          q.slabClass.set i (c.withNewSlab cells t) = s.pool.slabClass.set i (c.withNewSlab cells t) ∧
          q.flag = s.pool.flag ∧ (q.flag = .pagealloc → libc.malloc (slabLen c) = some t)) := by
  obtain ⟨cells, hgrow, hlen, htake⟩ := rsPallocGrow_ok libc h hc hr
  have hbal := h.balance
  have hmax := h.max_lt
  let p := s.pool.setClass i (c.withSlab cells)
  have hset (x : RsPoolClass) : (s.pool.slabClass.set i (c.withSlab cells)).set i x =
      s.pool.slabClass.set i x := List.set_set ..
  refine ⟨cells, hgrow, hlen, htake, ?_⟩
  by_cases hfit : s.pool.freeSize < slabLen c
  · exact Or.inl ⟨rsPmemalloc_full hfit, h.withSlab hc hlen htake⟩
  have hused : (p.take (slabLen c)).usedSize = s.pool.usedSize + slabLen c :=
    take_usedSize (by change s.pool.usedSize + slabLen c < _; omega)
  have hch (x : ℕ) (t : PoolUse) (htable : t.pool.slabClass = (p.slabClass.set i (c.withNewSlab cells x)))
      (hflag : t.pool.flag = s.pool.flag) (hstart : t.pool.start = s.pool.start)
      (hmaxSize : t.pool.maxSize = s.pool.maxSize) (hlive : t.live = s.live) :
      s.Changes t i c (c.withNewSlab cells x) :=
    { found := hc, table := htable.trans (hset _), flag := hflag, start := hstart,
      maxSize := hmaxSize, size := rfl,
      slabs := fun b hb => by
        rw [slabs_withNewSlab hlen htake]
        exact List.mem_append_left _ hb
      live := fun y hy => Or.inl (hlive ▸ hy)
      others := fun j _ => by rw [PoolUse.liveOf, hlive]; rfl }
  cases hf : s.pool.flag with
  | pagealloc =>
    have hmem : rsPmemalloc libc p (slabLen c) = _ := rsPmemalloc_pagealloc hfit hf
    cases hmalloc : libc.malloc (slabLen c) with
    | none =>
      rw [hmalloc] at hmem
      exact Or.inl ⟨hmem, h.withSlab hc hlen htake⟩
    | some a =>
      rw [hmalloc] at hmem
      refine Or.inr ⟨a, _, hmem, addSlab_ok hlen (h.usedSlab_lt hc) a, ?_, hset _, hf, fun _ => rfl⟩
      refine h.newSlab hc hchunk hfree hlen htake (hch a _ rfl rfl rfl rfl rfl) rfl (by omega) hused
        rfl ?_ (fun _ => ha a hmalloc)
      rw [hf]
      exact fun h => nomatch h
  | prealloc =>
    refine Or.inr ⟨s.pool.cur, _, rsPmemalloc_prealloc hfit hf,
      addSlab_ok hlen (h.usedSlab_lt hc) _, ?_, hset _, hf, ?_⟩
    · refine h.newSlab hc hchunk hfree hlen htake (hch s.pool.cur _ rfl rfl rfl rfl rfl) rfl
        (by omega) hused rfl (fun _ => ⟨rfl, rfl⟩) ?_
      rw [hf]
      exact fun h => nomatch h
    · change s.pool.flag = .pagealloc → _
      rw [hf]
      exact fun h => nomatch h

theorem liveOf_cons (p q : RsPool) (l : List Chunk) (e : Extent) (i j : ℕ) :
    (⟨q, ⟨i, e⟩ :: l⟩ : PoolUse).liveOf j = (⟨p, l⟩ : PoolUse).liveOf j + if j = i then 1 else 0 := by
  rw [PoolUse.liveOf, List.countP_cons]
  simp only [decide_eq_true_eq, Nat.cast_inj, eq_comm (a := i)]
  rfl

theorem changes_handOut (hc : s.pool.slabClass[i]? = some c) {a : ℕ} (hsize : d.size = c.size)
    (hslabs : d.slabs = c.slabs) (hin : ∃ b ∈ c.slabs, (Extent.mk a c.size).Within b) :
    s.Changes ⟨s.pool.setClass i d, ⟨i, a, c.size⟩ :: s.live⟩ i c d := by
  refine { found := hc, table := rfl, flag := rfl, start := rfl, maxSize := rfl, size := hsize,
           slabs := fun _ h => hslabs ▸ h, live := ?_, others := ?_ }
  · intro x hx
    rcases List.mem_cons.mp hx with rfl | hx
    · exact Or.inr ⟨rfl, hsize.symm, hslabs ▸ hin⟩
    · exact Or.inl hx
  · intro j hj
    rw [liveOf_cons s.pool, if_neg hj]
    rfl

theorem PoolUse.Inv.recycle (h : s.Inv) (hc : s.pool.slabClass[i]? = some c) {a : ℕ} {rest : List ℕ}
    (hfree : c.freeChunk = a :: rest) :
    (⟨s.pool.setClass i { c with freeChunk := rest }, ⟨i, a, c.size⟩ :: s.live⟩ : PoolUse).Inv := by
  have hinv := h.cls i c hc
  have hext : c.extents = ⟨a, c.size⟩ :: ({ c with freeChunk := rest } : RsPoolClass).extents := by
    rw [RsPoolClass.extents, hfree]
    rfl
  obtain ⟨b, hb, hab⟩ := hinv.inside ⟨a, c.size⟩ (hext ▸ List.mem_cons_self)
  have hcount := hinv.count
  have hcap := hinv.capacity
  rw [hfree, List.length_cons] at hcount hcap
  refine h.of_changes (changes_handOut (d := { c with freeChunk := rest }) hc rfl rfl ⟨b, hb, hab⟩)
    h.balance rfl h.cur (fun hf => h.region hf c (List.mem_of_getElem? hc)) ?_ ?_
  · refine { hinv with capacity := Nat.le_of_succ_le hcap, count := ?_, inside := ?_ }
    · rw [liveOf_cons s.pool, if_pos rfl]
      change s.liveOf i + 1 + rest.length + c.free = c.usedSlab * c.num
      omega
    · exact fun e he => hinv.inside e (hext ▸ List.mem_cons_of_mem _ he)
  · intro r hr _
    refine (Extent.pairwise_perm ?_).mp hr
    rw [PoolUse.around, hext]
    exact (List.perm_iff_count.mpr fun e => by
      simp only [PoolUse.around, List.count_append, List.count_cons, List.map_cons,
        RsPool.reserve, RsPool.setClass]
      omega)

def RsPoolClass.carved (c : RsPoolClass) : RsPoolClass :=
  { c with free := c.free - 1, chunk := if 0 < c.free - 1 then c.chunk.map (· + c.size) else none }

theorem RsPoolClass.carved_rest {a : ℕ} (hchunk : c.chunk = some a) :
    c.carved.rest = if 0 < c.free - 1 then [⟨a + c.size, (c.free - 1) * c.size⟩] else [] := by
  rw [RsPoolClass.rest, RsPoolClass.carved, hchunk]
  split_ifs <;> rfl

theorem carve_within {n m a : ℕ} (hn : 0 < n) :
    (Extent.mk a m).Within ⟨a, n * m⟩ ∧ (Extent.mk (a + m) ((n - 1) * m)).Within ⟨a, n * m⟩ := by
  obtain ⟨k, rfl⟩ : ∃ k, n = k + 1 := ⟨n - 1, by omega⟩
  rw [Nat.add_sub_cancel, Nat.add_mul, Nat.one_mul]
  refine ⟨⟨le_rfl, ?_⟩, ⟨Nat.le_add_right _ _, ?_⟩⟩ <;> dsimp only <;> omega

/-- A class that carves the first chunk of its current slab. -/
theorem PoolUse.Inv.carve (h : s.Inv) (hc : s.pool.slabClass[i]? = some c) {a : ℕ}
    (hchunk : c.chunk = some a) (hfree : c.freeChunk = []) :
    (⟨s.pool.setClass i c.carved, ⟨i, a, c.size⟩ :: s.live⟩ : PoolUse).Inv := by
  have hinv := h.cls i c hc
  have hpos : 0 < c.free := hinv.chunk_free.mp (by rw [hchunk]; rfl)
  obtain ⟨hfst, hsnd⟩ := carve_within (m := c.size) (a := a) hpos
  have hext : c.extents = [⟨a, c.free * c.size⟩] := by
    rw [RsPoolClass.extents, hfree, RsPoolClass.rest, hchunk]
    rfl
  have hext' : c.carved.extents = c.carved.rest := by
    change c.freeChunk.map _ ++ _ = _
    rw [hfree]
    rfl
  obtain ⟨b, hb, hab⟩ := hinv.inside ⟨a, c.free * c.size⟩ (hext ▸ List.mem_singleton_self _)
  have hcount := hinv.count
  refine h.of_changes (changes_handOut (d := c.carved) hc rfl rfl ⟨b, hb, hfst.trans hab⟩)
    h.balance rfl h.cur (fun hf => h.region hf c (List.mem_of_getElem? hc)) ?_ ?_
  · refine { hinv with free_lt := ?_, chunk_free := ?_, count := ?_, inside := ?_ }
    · exact (Nat.sub_le _ _).trans hinv.free_lt
    · change (if 0 < c.free - 1 then c.chunk.map (· + c.size) else none).isSome ↔ 0 < c.free - 1
      rw [hchunk]
      split_ifs with h0 <;> simp [h0]
    · rw [liveOf_cons s.pool, if_pos rfl]
      change s.liveOf i + 1 + c.freeChunk.length + (c.free - 1) = c.usedSlab * c.num
      change s.liveOf i + _ + _ = _ at hcount
      omega
    · intro e he
      rw [hext', RsPoolClass.carved_rest hchunk] at he
      split_ifs at he with h0
      · obtain rfl := List.mem_singleton.mp he
        exact ⟨b, hb, hsnd.trans hab⟩
      · exact absurd he List.not_mem_nil
  · intro r hr _
    rw [PoolUse.around, hext, List.singleton_append, Extent.pairwise_perm List.perm_middle] at hr
    rw [PoolUse.around, hext', RsPoolClass.carved_rest hchunk]
    split_ifs with h0
    · refine (Extent.pairwise_perm ?_).mp (Extent.pairwise_split hr hfst hsnd (Or.inl le_rfl))
      exact List.perm_iff_count.mpr fun e => by
        simp only [List.count_append, List.count_cons, List.map_cons, List.count_nil,
          RsPool.reserve, RsPool.setClass]
        omega
    · refine (Extent.pairwise_perm ?_).mp (Extent.pairwise_shrink hr hfst)
      exact List.perm_iff_count.mpr fun e => by
        simp only [List.count_append, List.count_cons, List.map_cons, List.count_nil,
          RsPool.reserve, RsPool.setClass]
        omega

theorem PoolUse.Inv.takeChunk (h : s.Inv) (hc : s.pool.slabClass[i]? = some c)
    (hsome : c.chunk.isSome ∨ c.freeChunk ≠ []) :
    ∃ a p, takeChunk s.pool i c = (some a, p) ∧
      (⟨p, ⟨i, a, c.size⟩ :: s.live⟩ : PoolUse).Inv := by
  cases hfree : c.freeChunk with
  | cons a rest =>
    refine ⟨a, _, ?_, h.recycle hc hfree⟩
    simp only [Core.takeChunk, hfree]
  | nil =>
    obtain ⟨a, ha⟩ := Option.isSome_iff_exists.mp (hsome.resolve_right (· hfree))
    refine ⟨a, _, ?_, h.carve hc ha hfree⟩
    have hinv := h.cls i c hc
    have hpos : 0 < c.free := hinv.chunk_free.mp (by rw [ha]; rfl)
    have hlt := h.slots_lt hc
    have hcount := hinv.count
    have hwrap : (c.free + (2 ^ 32 - 1)) % 2 ^ 32 = c.free - 1 := by omega
    simp only [Core.takeChunk, hfree, hwrap, ha, RsPoolClass.carved]

def RsPoolClass.withFree (c : RsPoolClass) (tf a : ℕ) : RsPoolClass :=
  { c with totalFree := tf, freeChunk := a :: c.freeChunk }

theorem liveOf_erase {x : Chunk} (hx : x ∈ s.live) (p : RsPool) (j : ℕ) :
    s.liveOf j = (⟨p, s.live.erase x⟩ : PoolUse).liveOf j + if x.id = (j : ℤ) then 1 else 0 := by
  rw [PoolUse.liveOf, (List.perm_cons_erase hx).countP_eq, List.countP_cons]
  simp only [decide_eq_true_eq]
  rfl

theorem PoolUse.Inv.giveBack (h : s.Inv) (hc : s.pool.slabClass[i]? = some c) {a tf : ℕ}
    (hx : ⟨i, a, c.size⟩ ∈ s.live) (htf : c.freeChunk.length < tf) :
    (⟨s.pool.setClass i (c.withFree tf a), s.live.erase ⟨i, a, c.size⟩⟩ : PoolUse).Inv := by
  have hinv := h.cls i c hc
  have hcount := hinv.count
  have hlive := liveOf_erase hx (s.pool.setClass i (c.withFree tf a))
  have hi := (List.getElem?_eq_some_iff.mp hc).1
  obtain ⟨d, hd, -, b, hb, hab⟩ := h.owned _ hx (not_overflow_of_nonneg (Int.natCast_nonneg i))
  obtain rfl : c = d := Option.some.inj (hc.symm.trans (classAt_eq_some.mp hd).2)
  refine h.of_changes (i := i) (c := c) (d := c.withFree tf a) ?_ h.balance rfl h.cur
    (fun hf => h.region hf c (List.mem_of_getElem? hc)) ?_ ?_
  · refine { found := hc, table := rfl, flag := rfl, start := rfl, maxSize := rfl, size := rfl,
             slabs := fun _ h => h, live := fun x hx => Or.inl (List.mem_of_mem_erase hx),
             others := ?_ }
    intro j hj
    rw [hlive j, if_neg (by simpa using Ne.symm hj)]
    rfl
  · refine { hinv with capacity := htf, count := ?_, inside := ?_ }
    · change _ + (c.freeChunk.length + 1) + c.free = c.usedSlab * c.num
      rw [hlive i, if_pos rfl] at hcount
      omega
    · intro e he
      rcases List.mem_cons.mp he with rfl | he
      · exact ⟨b, hb, hab⟩
      · exact hinv.inside e he
  · intro r hr _
    refine (Extent.pairwise_perm ?_).mp hr
    have hperm := (List.perm_cons_erase hx).map Chunk.extent
    refine List.Perm.append_left r ?_
    refine ((hperm.append_left _).append_left _).trans (List.perm_iff_count.mpr fun e => ?_)
    simp only [PoolUse.around, RsPoolClass.extents, RsPoolClass.rest, RsPoolClass.withFree,
      List.count_append, List.count_cons, List.map_cons, RsPool.reserve, RsPool.setClass]
    omega

theorem PoolUse.Inv.overflow (h : s.Inv) {e : Extent} (he : 0 < e.len)
    (hfresh : ∀ x ∈ s.extents, e.Apart x) :
    (⟨s.pool, ⟨RsCode.slabOverflow.toInt, e⟩ :: s.live⟩ : PoolUse).Inv where
  max_lt := h.max_lt
  balance := h.balance
  held := h.held
  cur := h.cur
  region := h.region
  cls := by
    intro i c hc
    have hlive : (⟨s.pool, ⟨RsCode.slabOverflow.toInt, e⟩ :: s.live⟩ : PoolUse).liveOf i =
        s.liveOf i := by
      refine List.countP_cons_of_neg ?_
      simpa using (not_overflow_of_nonneg (Int.natCast_nonneg i)).symm
    rw [hlive]
    exact h.cls i c hc
  apart := by
    refine (Extent.pairwise_perm ?_).mp (Extent.pairwise_cons_of_fresh h.apart hfresh)
    exact List.perm_iff_count.mpr fun x => by
      simp only [PoolUse.extents, List.count_append, List.count_cons, List.map_cons]
      omega
  owned := by
    intro x hx ho
    rcases List.mem_cons.mp hx with rfl | hx
    · exact absurd rfl ho
    · exact h.owned x hx ho
  overflow_len := by
    intro x hx ho
    rcases List.mem_cons.mp hx with rfl | hx
    · exact he
    · exact h.overflow_len x hx ho

theorem PoolUse.Inv.release (h : s.Inv) {x : Chunk} (ho : x.IsOverflow) :
    (⟨s.pool, s.live.erase x⟩ : PoolUse).Inv where
  max_lt := h.max_lt
  balance := h.balance
  held := h.held
  cur := h.cur
  region := h.region
  cls := by
    intro i c hc
    have hlive : (⟨s.pool, s.live.erase x⟩ : PoolUse).liveOf i = s.liveOf i := by
      by_cases hx : x ∈ s.live
      · have hid : ¬ x.id = (i : ℤ) := fun hid =>
          not_overflow_of_nonneg (Int.natCast_nonneg i) (hid.symm.trans ho)
        rw [liveOf_erase hx s.pool i, if_neg hid]
        rfl
      · rw [List.erase_of_not_mem hx]
    rw [hlive]
    exact h.cls i c hc
  apart := by
    refine h.apart.sublist ?_
    exact List.Sublist.append_left (List.Sublist.append_left (List.erase_sublist.map _) _) _
  owned := fun y hy => h.owned y (List.mem_of_mem_erase hy)
  overflow_len := fun y hy => h.overflow_len y (List.mem_of_mem_erase hy)

theorem PoolUse.Inv.palloc (h : s.Inv) {size answer : ℕ} {id : ℤ}
    (hen : s.Enabled (.palloc size id answer)) :
    ∃ t, poolCall s (.palloc size id answer) = some t ∧ t.Inv := by
  obtain ⟨hid, hblocks⟩ := hen
  have hfresh : ∀ e ∈ s.extents, (Extent.mk answer (mallocLen s.pool size id)).Apart e :=
    fun e he => h.fresh hblocks he
  by_cases ho : id = RsCode.slabOverflow.toInt
  · subst ho
    refine ⟨_, rfl, h.overflow ?_ ?_⟩
    · exact lt_max_of_lt_left Nat.one_pos
    · simpa only [mallocLen, chunkLen, if_pos] using hfresh
  obtain ⟨c, hclass⟩ := Option.isSome_iff_exists.mp (hid.resolve_left ho)
  obtain ⟨hpos, hc⟩ := classAt_eq_some.mp hclass
  obtain ⟨i, rfl⟩ := Int.eq_ofNat_of_zero_le hpos
  rw [Int.toNat_natCast] at hc
  have hlen : chunkLen s.pool size i = c.size := by simp [chunkLen, ho, hclass]
  have hcall : poolCall s (.palloc size i answer) =
      (rsPalloc (answers answer) s.pool size i).map fun r =>
        ⟨r.2, (r.1.map fun t => ⟨i, t, c.size⟩).toList ++ s.live⟩ := by rw [← hlen]; rfl
  rw [hcall, rsPalloc_class ho hclass]
  split_ifs with hnew
  · have ha : ∀ e ∈ s.extents, (Extent.mk answer (slabLen c)).Apart e := by
      intro e he
      have hle : slabLen c ≤ mallocLen s.pool size i := by simp [mallocLen, ho, hclass]
      exact (hfresh e he).mono ⟨le_rfl, Nat.add_le_add_left hle _⟩
    obtain ⟨cells, hgrow, -, -, hmem⟩ := PoolUse.Inv.palloc_new (answers answer) h hc
      hnew.1 hnew.2 (fun _ => rfl) (fun a hans => Option.some.inj hans ▸ ha)
    rcases hmem with ⟨hmem, hinv⟩ | ⟨a, q, hmem, hadd, hinv, hset, -, -⟩
    · rw [rsPallocNew_full hgrow hmem]
      exact ⟨_, rfl, hinv⟩
    · have hi := (List.getElem?_eq_some_iff.mp hc).1
      have hd : (q.setClass i (c.withNewSlab cells a)).slabClass[i]? =
          some (c.withNewSlab cells a) := by
        change (q.slabClass.set i _)[i]? = _
        rw [hset, List.getElem?_set_self hi]
      obtain ⟨b, r, htake, hinv⟩ := hinv.takeChunk hd (Or.inl rfl)
      refine ⟨⟨r, ⟨i, b, c.size⟩ :: s.live⟩, ?_, hinv⟩
      rw [rsPallocNew_slab hgrow hmem hadd]
      simp only [Option.bind_some, classAt_eq_some.mpr ⟨hpos, hd⟩, Option.map_some]
      rw [htake]
      rfl
  · have hsome : c.chunk.isSome ∨ c.freeChunk ≠ [] := by
      rw [Option.isSome_iff_ne_none]
      exact not_and_or.mp hnew
    obtain ⟨a, q, htake, hinv⟩ := h.takeChunk hc hsome
    refine ⟨⟨q, ⟨i, a, c.size⟩ :: s.live⟩, ?_, hinv⟩
    rw [htake]
    rfl

theorem pushFree_ok {tf a : ℕ} (h : c.freeChunk.length < tf) :
    pushFree { c with totalFree := tf } a = some (c.withFree tf a) := if_pos h

/-- `rs_pfree` records a chunk of a class, unless it needs `realloc` and that fails. -/
theorem PoolUse.Inv.pfree_class (libc : Libc) (h : s.Inv) {a : ℕ} (hc : s.pool.slabClass[i]? = some c)
    (hx : ⟨i, a, c.size⟩ ∈ s.live) (hr : c.freeChunk.length = c.totalFree → libc.realloc = true) :
    ∃ tf, rsPfree libc s.pool a i = some (s.pool.setClass i (c.withFree tf a)) ∧
      (⟨s.pool.setClass i (c.withFree tf a), s.live.erase ⟨i, a, c.size⟩⟩ : PoolUse).Inv := by
  have hpos := Int.natCast_nonneg i
  rw [rsPfree_class (not_overflow_of_nonneg hpos) (classAt_eq_some.mpr ⟨hpos, hc⟩)]
  by_cases hfull : c.freeChunk.length = c.totalFree
  · have hcount := (h.cls i c hc).count
    have hlt := h.slots_lt hc
    have hgt : c.totalFree < growCapacity c.totalFree := growCapacity_gt (by omega)
    have hroom : c.freeChunk.length < growCapacity c.totalFree := by omega
    refine ⟨_, ?_, h.giveBack hc hx hroom⟩
    rw [if_pos hfull, if_pos (hr hfull), pushFree_ok hroom]
    rfl
  · have hroom := lt_of_le_of_ne (h.cls i c hc).capacity hfull
    have hpush : pushFree c a = some (c.withFree c.totalFree a) := pushFree_ok hroom
    refine ⟨_, ?_, h.giveBack hc hx hroom⟩
    rw [if_neg hfull, hpush]
    rfl

theorem PoolUse.Inv.owned_class (h : s.Inv) {x : Chunk} (hx : x ∈ s.live) (ho : ¬ x.IsOverflow) :
    ∃ (i : ℕ) (c : RsPoolClass) (a : ℕ), s.pool.slabClass[i]? = some c ∧ x = ⟨i, a, c.size⟩ := by
  obtain ⟨c, hclass, hlen, -⟩ := h.owned x hx ho
  obtain ⟨hpos, hc⟩ := classAt_eq_some.mp hclass
  obtain ⟨id, a, len⟩ := x
  obtain rfl : len = c.size := hlen
  obtain ⟨i, rfl⟩ : ∃ i : ℕ, id = i := Int.eq_ofNat_of_zero_le hpos
  exact ⟨i, c, a, by simpa using hc, rfl⟩

theorem PoolUse.Inv.pfree (h : s.Inv) {x : Chunk} (hx : x ∈ s.live) :
    ∃ t, poolCall s (.pfree x) = some t ∧ t.Inv := by
  by_cases ho : x.IsOverflow
  · refine ⟨⟨s.pool, s.live.erase x⟩, ?_, h.release ho⟩
    exact congrArg (Option.map _) (if_pos ho)
  · obtain ⟨i, c, a, hc, rfl⟩ := h.owned_class hx ho
    obtain ⟨tf, hrun, hinv⟩ := PoolUse.Inv.pfree_class ⟨fun _ => none, true⟩ h hc hx fun _ => rfl
    exact ⟨_, congrArg (Option.map _) hrun, hinv⟩

/-- A call in a good state is defined and leads to a good state. -/
theorem PoolUse.Inv.call (h : s.Inv) {a : PoolCall} (hen : s.Enabled a) :
    ∃ t, poolStep s a = some t ∧ t.Inv := by
  rw [poolStep, if_pos hen]
  cases a with
  | palloc size id answer => exact h.palloc hen
  | pfree x => exact h.pfree hen

theorem PoolUse.Inv.step {t : PoolUse} (h : s.Inv) {a : PoolCall} (hs : poolStep s a = some t) :
    t.Inv := by
  by_cases hen : s.Enabled a
  · obtain ⟨u, hu, hinv⟩ := h.call hen
    exact Option.some.inj (hu.symm.trans hs) ▸ hinv
  · rw [poolStep, if_neg hen] at hs
    exact nomatch hs

/-- Each class holds at least one chunk in at most `chunk_size` bytes, and so few that the
32-bit capacities of its arrays can count them. -/
def GoodClass (maxSize chunkSize : UInt32) (x : UInt32 × UInt32) : Prop :=
  1 ≤ x.2.toNat ∧ x.2.toNat * x.1.toNat ≤ chunkSize.toNat ∧ maxSize.toNat < 2 ^ 31 * x.1.toNat

variable {flag : RsPoolFlag} {start : ℕ} {maxSize chunkSize : UInt32}
  {table : List (UInt32 × UInt32)}

theorem PoolUse.init_inv (htable : ∀ x ∈ table, GoodClass maxSize chunkSize x) :
    (PoolUse.init flag start maxSize chunkSize table).Inv where
  max_lt := maxSize.toNat_lt
  balance := Nat.zero_add _
  held := by
    refine List.sum_eq_zero fun n hn => ?_
    simp only [PoolUse.init, newPool, List.map_map, List.mem_map] at hn
    obtain ⟨x, -, rfl⟩ := hn
    exact Nat.zero_mul _
  cur := fun _ => rfl
  region := by
    intro _ c hc b hb
    obtain ⟨x, -, rfl⟩ := List.mem_map.mp hc
    exact absurd hb List.not_mem_nil
  cls := by
    intro i c hc
    obtain ⟨x, hx, rfl⟩ := List.mem_map.mp (List.mem_of_getElem? hc)
    obtain ⟨hnum, hsize, hbig⟩ := htable x hx
    have hlt := chunkSize.toNat_lt
    refine ⟨hnum, ?_, hbig, Nat.zero_le _, by simp [rsPoolClassTInit], le_rfl, rfl, le_rfl, ?_, ?_⟩
    · rw [Nat.mul_comm]
      exact hsize.trans_lt hlt
    · exact (Nat.zero_mul _).symm
    · exact fun e he => absurd he List.not_mem_nil
  apart := by
    have hnil : (newPool flag start maxSize chunkSize table).slabClass.flatMap
        RsPoolClass.extents = [] := by
      refine List.flatMap_eq_nil_iff.mpr fun c hc => ?_
      obtain ⟨x, -, rfl⟩ := List.mem_map.mp hc
      rfl
    rw [PoolUse.extents, PoolUse.init, hnil]
    cases flag
    · exact List.Pairwise.nil
    · exact List.pairwise_singleton _ _
  owned := fun x hx => absurd hx List.not_mem_nil
  overflow_len := fun x hx => absurd hx List.not_mem_nil

/-- Live chunks never overlap, in every run of allocations and frees, and every call that
the callers may make is defined. -/
theorem palloc_safe (htable : ∀ x ∈ table, GoodClass maxSize chunkSize x) (as : List PoolCall)
    (hrun : exec poolStep (PoolUse.init flag start maxSize chunkSize table) as = some s) :
    s.Safe ∧ ∀ a, s.Enabled a → (poolStep s a).isSome := by
  have hinv : s.Inv := exec_invariant (fun _ _ _ hu hs => hu.step hs) (PoolUse.init_inv htable) hrun
  refine ⟨hinv.safe, fun a ha => ?_⟩
  obtain ⟨t, ht, -⟩ := hinv.call ha
  exact Option.isSome_iff_exists.mpr ⟨t, ht⟩

/-- Two classes in a region of 1024 bytes: a chunk carved, freed and handed out again. -/
theorem palloc_safe_region : (∀ x ∈ [(16, 8), (128, 1)], GoodClass 1024 128 x) ∧
    ∃ s, exec poolStep (PoolUse.init .prealloc 4096 1024 128 [(16, 8), (128, 1)])
        [.palloc 10 0 0, .palloc 100 1 0, .pfree ⟨0, 4096, 16⟩, .palloc 12 0 0] = some s ∧
      s.Safe ∧ ∀ a, s.Enabled a → (poolStep s a).isSome := by
  have htable : ∀ x ∈ [(16, 8), (128, 1)], GoodClass 1024 128 x := by
    simp [GoodClass]
  have hsome : (exec poolStep (PoolUse.init .prealloc 4096 1024 128 [(16, 8), (128, 1)])
      [.palloc 10 0 0, .palloc 100 1 0, .pfree ⟨0, 4096, 16⟩, .palloc 12 0 0]).isSome := by decide
  obtain ⟨s, hs⟩ := Option.isSome_iff_exists.mp hsome
  exact ⟨htable, s, hs, palloc_safe htable _ hs⟩

/-- Chunks of no bytes: two of them share their address, so one is live and recorded free. -/
theorem palloc_shares_empty_chunk : ¬ ∀ (flag : RsPoolFlag) (start : ℕ) (maxSize chunkSize : UInt32)
    (table : List (UInt32 × UInt32)),
    (∀ x ∈ table, 1 ≤ x.2.toNat ∧ x.2.toNat * x.1.toNat ≤ chunkSize.toNat) →
    ∀ as s, exec poolStep (PoolUse.init flag start maxSize chunkSize table) as = some s →
      s.Safe := by
  intro h
  have hsafe := h .prealloc 4096 64 0 [(0, 1)] (by simp)
    [.palloc 1 0 0, .palloc 1 0 0, .pfree ⟨0, 4096, 0⟩] _ rfl
  exact hsafe.notFree ⟨0, 4096, 0⟩ (by decide) _ (List.mem_singleton_self _) (by decide)

end MySQLSyncer.Core
