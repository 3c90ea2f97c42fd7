import MySQLSyncer.Core.Palloc

/-! # The class for a size

`rs_palloc_id` halves the range of classes. When it meets a class of exactly the size it
returns the low end of the range, which need not be that class.
-/
namespace MySQLSyncer.Core

def RsPool.curIdx (p : RsPool) : ℤ := p.slabClass.length - 1

/-- The loop of `rs_palloc_id` and the test behind it. -/
def pallocIdLoop (p : RsPool) (size : ℕ) (low high : ℤ) : Option ℤ :=
  if low ≤ high then
    let mid := low + (high - low) / 2
    (p.classAt mid).bind fun c =>
      if size < c.size then pallocIdLoop p size low (mid - 1)
      else if c.size < size then pallocIdLoop p size (mid + 1) high
      else some low
  else if -1 < low ∧ low ≤ p.curIdx then some low
  else some RsCode.slabOverflow.toInt
termination_by (high + 1 - low).toNat

def rsPallocId (p : RsPool) (size : ℕ) : Option ℤ :=
  if size = 0 then some RsCode.err.toInt
  else if p.chunkSize < size then some RsCode.slabOverflow.toInt
  else pallocIdLoop p size 0 p.curIdx

/-- A class table with increasing sizes, the last of which is `chunk_size`. -/
structure RsPool.Table (p : RsPool) : Prop where
  sorted : p.slabClass.Pairwise fun c d => c.size < d.size
  last : ∃ c, p.slabClass.getLast? = some c ∧ c.size = p.chunkSize

structure RsPool.LeastFit (p : RsPool) (size i : ℕ) : Prop where
  fits : ∃ c, p.slabClass[i]? = some c ∧ size ≤ c.size
  least : ∀ j < i, ∀ c, p.slabClass[j]? = some c → c.size < size

/-- What the allocator needs of the id. -/
structure RsPool.PicksLeast (p : RsPool) (size : ℕ) : Prop where
  least : size ≤ p.chunkSize → ∃ i : ℕ, rsPallocId p size = some (i : ℤ) ∧ p.LeastFit size i ∧
    size ≤ chunkLen p size i
  overflow : p.chunkSize < size → rsPallocId p size = some RsCode.slabOverflow.toInt

/-- Halving a range of `n` indices comes to the index `i` when it is the first of what is left. -/
def metAtLow (n i : ℕ) : Bool :=
  if n = 0 then false
  else
    let m := (n - 1) / 2
    if i < m then metAtLow m i
    else if m < i then metAtLow (n - 1 - m) (i - m - 1)
    else m = 0

/-- No class has exactly this size, or the halving meets that class at the low end of its range. -/
def RsPool.MetAtLow (p : RsPool) (size : ℕ) : Prop :=
  ∀ i c, p.slabClass[i]? = some c → c.size = size → metAtLow p.slabClass.length i = true

variable {p : RsPool} {size k : ℕ} {c : RsPoolClass}

theorem classAt_natCast (p : RsPool) (i : ℕ) : p.classAt (i : ℤ) = p.slabClass[i]? := by
  rw [RsPool.classAt, if_pos (Int.natCast_nonneg i), Int.toNat_natCast]

theorem pallocIdLoop_succ {low n : ℕ} (hc : p.slabClass[low + n / 2]? = some c) :
    pallocIdLoop p size low (low + (n + 1 : ℕ) - 1) =
      if size < c.size then pallocIdLoop p size low (low + (n / 2 : ℕ) - 1)
      else if c.size < size then
        pallocIdLoop p size (low + n / 2 + 1 : ℕ) ((low + n / 2 + 1 : ℕ) + (n - n / 2 : ℕ) - 1)
      else some (low : ℤ) := by
  have hmid : (low : ℤ) + ((low + (n + 1 : ℕ) - 1) - low) / 2 = (low + n / 2 : ℕ) := by omega
  have hhigh : ((low + n / 2 + 1 : ℕ) : ℤ) + (n - n / 2 : ℕ) - 1 = low + (n + 1 : ℕ) - 1 := by omega
  rw [pallocIdLoop, if_pos (by omega)]
  simp only [hmid, classAt_natCast, hc, Option.bind_some]
  rw [hhigh]
  norm_cast

theorem RsPool.Table.size_lt_iff (h : p.Table) {i j : ℕ} {c d : RsPoolClass}
    (hi : p.slabClass[i]? = some c) (hj : p.slabClass[j]? = some d) : c.size < d.size ↔ i < j := by
  have hmono {i j : ℕ} {c d : RsPoolClass} (hi : p.slabClass[i]? = some c)
      (hj : p.slabClass[j]? = some d) (hij : i < j) : c.size < d.size := by
    obtain ⟨hilt, rfl⟩ := List.getElem?_eq_some_iff.mp hi
    obtain ⟨hjlt, rfl⟩ := List.getElem?_eq_some_iff.mp hj
    exact List.pairwise_iff_getElem.mp h.sorted i j hilt hjlt hij
  refine ⟨fun hlt => ?_, hmono hi hj⟩
  rcases Nat.lt_trichotomy i j with hij | rfl | hji
  · exact hij
  · obtain rfl := Option.some.inj (hi.symm.trans hj)
    exact absurd hlt (Nat.lt_irrefl _)
  · exact absurd (hlt.trans (hmono hj hi hji)) (Nat.lt_irrefl _)

/-- The first class that fits, and how the others compare with the size. -/
theorem RsPool.Table.exists_leastFit (h : p.Table) (hsize : size ≤ p.chunkSize) :
    ∃ k, p.LeastFit size k ∧ k < p.slabClass.length ∧
      ∀ i c, p.slabClass[i]? = some c → (c.size < size ↔ i < k) := by
  obtain ⟨c, hc, hlast⟩ := h.last
  have hex : ∃ i : ℕ, ∃ c : RsPoolClass, p.slabClass[i]? = some c ∧ size ≤ c.size := by
    rw [List.getLast?_eq_getElem?] at hc
    exact ⟨_, c, hc, hlast ▸ hsize⟩
  classical
  obtain ⟨d, hd, hfit⟩ := Nat.find_spec hex
  have hbelow (j : ℕ) (hj : j < Nat.find hex) (c : RsPoolClass) (hc : p.slabClass[j]? = some c) :
      c.size < size := by
    by_contra hnot
    exact Nat.find_min hex hj ⟨c, hc, Nat.le_of_not_lt hnot⟩
  refine ⟨Nat.find hex, ⟨⟨d, hd, hfit⟩, hbelow⟩, (List.getElem?_eq_some_iff.mp hd).1, fun i c hc => ?_⟩
  refine ⟨fun hlt => ?_, fun hlt => hbelow i hlt c hc⟩
  exact (h.size_lt_iff hc hd).mp (hlt.trans_le hfit)

theorem natCast_ne_overflow (k : ℕ) : (k : ℤ) ≠ RsCode.slabOverflow.toInt := fun h => by
  have hnonneg := Int.natCast_nonneg k
  rw [h] at hnonneg
  exact absurd hnonneg (by decide)

theorem exists_class {i : ℕ} (h : i < p.slabClass.length) : ∃ c, p.slabClass[i]? = some c :=
  ⟨_, List.getElem?_eq_getElem h⟩

/-- Without a class of exactly this size the range closes in on the first that fits. -/
theorem pallocIdLoop_unmet (hk : k < p.slabClass.length)
    (hcmp : ∀ (i : ℕ) (c : RsPoolClass), p.slabClass[i]? = some c → (c.size < size ↔ i < k))
    (hne : ∀ (i : ℕ) (c : RsPoolClass), p.slabClass[i]? = some c → c.size ≠ size) {n low : ℕ}
    (hlow : low ≤ k) (hhigh : k ≤ low + n) (hn : low + n ≤ p.slabClass.length) :
    pallocIdLoop p size low (low + n - 1) = some (k : ℤ) := by
  induction n using Nat.strong_induction_on generalizing low with
  | _ n ih =>
    cases n with
    | zero =>
      obtain rfl : low = k := by omega
      rw [pallocIdLoop, if_neg (by omega), if_pos ⟨by omega, by rw [RsPool.curIdx]; omega⟩]
    | succ n =>
      obtain ⟨c, hc⟩ := exists_class (p := p) (i := low + n / 2) (by omega)
      rw [pallocIdLoop_succ hc]
      have hlt := hcmp _ c hc
      have hcne := hne _ c hc
      split_ifs with h₁ h₂
      · exact ih (n / 2) (by omega) hlow (by omega) (by omega)
      · exact ih (n - n / 2) (by omega) (by omega) (by omega) (by omega)
      · omega

/-- When the range comes to the class of exactly this size, the low end is at most that class. -/
theorem pallocIdLoop_met (hcmp : ∀ (i : ℕ) (c : RsPoolClass), p.slabClass[i]? = some c → (c.size < size ↔ i < k))
    (heq : ∀ (i : ℕ) (c : RsPoolClass), p.slabClass[i]? = some c →
      (c.size = size ↔ i = k)) {n low : ℕ} (hlow : low ≤ k)
    (hhigh : k < low + n) (hn : low + n ≤ p.slabClass.length) :
    ∃ r : ℕ, pallocIdLoop p size low (low + n - 1) = some (r : ℤ) ∧
      (r = k ↔ metAtLow n (k - low) = true) := by
  induction n using Nat.strong_induction_on generalizing low with
  | _ n ih =>
    cases n with
    | zero => omega
    | succ n =>
      obtain ⟨c, hc⟩ := exists_class (p := p) (i := low + n / 2) (by omega)
      rw [pallocIdLoop_succ hc, metAtLow, if_neg (Nat.succ_ne_zero n)]
      have hlt := hcmp _ c hc
      have heq' := heq _ c hc
      simp only [Nat.add_sub_cancel]
      rcases Nat.lt_trichotomy k (low + n / 2) with hk | hk | hk
      · obtain ⟨r, hr, hiff⟩ := ih (n / 2) (by omega) hlow hk (by omega)
        refine ⟨r, ?_, ?_⟩
        · rw [if_pos (by omega), hr]
        · rw [if_pos (by omega), hiff]
      · refine ⟨low, ?_, ?_⟩
        · rw [if_neg (by omega), if_neg (by omega)]
        · rw [if_neg (by omega), if_neg (by omega), decide_eq_true_iff]
          omega
      · obtain ⟨r, hr, hiff⟩ := @ih (n - n / 2) (by omega) (low + n / 2 + 1) (by omega) (by omega)
          (by omega)
        refine ⟨r, ?_, ?_⟩
        · rw [if_neg (by omega), if_pos (by omega), hr]
        · rw [if_neg (by omega), if_pos (by omega), hiff]
          congr! 2
          omega

theorem RsPool.LeastFit.unique {i : ℕ} (hi : p.LeastFit size i) (hk : p.LeastFit size k) : i = k := by
  obtain ⟨c, hc, hcfit⟩ := hi.fits
  obtain ⟨d, hd, hdfit⟩ := hk.fits
  rcases lt_trichotomy i k with hlt | heq | hlt
  · exact absurd (hk.least i hlt c hc) (by omega)
  · exact heq
  · exact absurd (hi.least k hlt d hd) (by omega)

/-- Of the sizes that a class has room for, only the id of the first such class will do. -/
theorem picksLeast_iff_of_fit (hle : size ≤ p.chunkSize) (hk : p.LeastFit size k) :
    p.PicksLeast size ↔ rsPallocId p size = some (k : ℤ) := by
  constructor
  · rintro ⟨hpick, -⟩
    obtain ⟨i, hi, hfit, -⟩ := hpick hle
    rw [hi, hfit.unique hk]
  · intro hres
    obtain ⟨c, hc, hfit⟩ := hk.fits
    have hlen : chunkLen p size (k : ℤ) = c.size := by
      rw [chunkLen, if_neg (natCast_ne_overflow k), classAt_natCast, hc]
      rfl
    exact ⟨fun _ => ⟨k, hres, hk, hlen ▸ hfit⟩, fun hlt => absurd hle (by omega)⟩

/-- No class has the size of a chunk that is too large for all of them. -/
theorem RsPool.Table.metAtLow_of_over (h : p.Table) (hover : p.chunkSize < size) : p.MetAtLow size := by
  intro i c hc heq
  obtain ⟨d, hd, hlast⟩ := h.last
  rw [List.getLast?_eq_getElem?] at hd
  have hi := (List.getElem?_eq_some_iff.mp hc).1
  have hle := (h.size_lt_iff hd hc).mp (by omega)
  omega

/-- The id is that of the first class that fits, if and only if the size is not that of a class
which the halving meets inside a wider range. -/
theorem rsPallocId_picksLeast_iff (h : p.Table) (hsize : 1 ≤ size) :
    p.PicksLeast size ↔ p.MetAtLow size := by
  have hid : size ≤ p.chunkSize → rsPallocId p size = pallocIdLoop p size 0 p.curIdx := fun hle => by
    rw [rsPallocId, if_neg (by omega), if_neg (by omega)]
  by_cases hover : p.chunkSize < size
  · refine ⟨fun _ => h.metAtLow_of_over hover,
      fun _ => ⟨fun hle => absurd hover (by omega), fun _ => ?_⟩⟩
    rw [rsPallocId, if_neg (by omega), if_pos hover]
  · replace hover := Nat.le_of_not_lt hover
    obtain ⟨k, hleast, hk, hcmp⟩ := h.exists_leastFit hover
    obtain ⟨c, hc, hfit⟩ := hleast.fits
    have hrange : p.curIdx = ((0 : ℕ) : ℤ) + (p.slabClass.length : ℕ) - 1 := by
      rw [RsPool.curIdx]
      omega
    rw [picksLeast_iff_of_fit hover hleast, hid hover, hrange]
    by_cases hmet : c.size = size
    · have heq (i : ℕ) (d : RsPoolClass) (hd : p.slabClass[i]? = some d) : d.size = size ↔ i = k := by
        have hlt := hcmp i d hd
        have hgt := h.size_lt_iff hc hd
        constructor
        · intro hdsize
          omega
        · rintro rfl
          obtain rfl := Option.some.inj (hc.symm.trans hd)
          exact hmet
      obtain ⟨r, hr, hiff⟩ := pallocIdLoop_met hcmp heq (Nat.zero_le k) (by omega : k < 0 + p.slabClass.length)
        (by omega)
      rw [show ((0 : ℕ) : ℤ) = 0 from rfl] at hr ⊢
      rw [hr, Option.some.injEq, Int.natCast_inj, hiff, Nat.sub_zero]
      constructor
      · intro hlow i d hd hdsize
        obtain rfl := (heq i d hd).mp hdsize
        exact hlow
      · exact fun hlow => hlow k c hc hmet
    · have hne (i : ℕ) (d : RsPoolClass) (hd : p.slabClass[i]? = some d) : d.size ≠ size := fun heq => by
        have hlt := hcmp i d hd
        have hgt := h.size_lt_iff hd hc
        have hik : i = k ∨ k < i := by omega
        rcases hik with rfl | hki
        · obtain rfl := Option.some.inj (hc.symm.trans hd)
          exact hmet heq
        · have := (h.size_lt_iff hc hd).mpr hki
          omega
      have hres := pallocIdLoop_unmet hk hcmp hne (Nat.zero_le k) (by omega : k ≤ 0 + p.slabClass.length)
        (by omega)
      exact ⟨fun _ i d hd heq => absurd heq (hne i d hd), fun _ => hres⟩

def samplePool : RsPool := newPool .prealloc 0 1024 64 [(16, 4), (32, 2), (64, 1)]

theorem samplePool_table : samplePool.Table := ⟨by decide, _, rfl, rfl⟩

theorem rsPallocId_picksLeast_sample : samplePool.Table ∧
    (samplePool.PicksLeast 64 ↔ samplePool.MetAtLow 64) :=
  ⟨samplePool_table, rsPallocId_picksLeast_iff samplePool_table (by decide)⟩

/-- For 32 bytes the id is that of the class of 16 bytes. -/
theorem rsPallocId_picks_smaller : ¬ ∀ (p : RsPool) (size : ℕ), p.Table → 1 ≤ size → p.PicksLeast size := by
  intro h
  have hid : rsPallocId samplePool 32 = some ((0 : ℕ) : ℤ) := by
    rw [rsPallocId, if_neg (by decide), if_neg (by decide), pallocIdLoop]
    rfl
  obtain ⟨i, hi, hfit, -⟩ := (h samplePool 32 samplePool_table (by decide)).least (by decide)
  obtain rfl := Int.natCast_inj.mp (Option.some.inj (hid.symm.trans hi))
  obtain ⟨c, hc, hle⟩ := hfit.fits
  obtain rfl := Option.some.inj hc
  exact absurd hle (by decide)

end MySQLSyncer.Core
