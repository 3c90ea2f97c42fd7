import Mathlib.Data.NNRat.Floor
import MySQLSyncer.Core.CreatePool
import MySQLSyncer.Lib.Scaling

/-! # Which settings give a usable class table

The factor is a rational number, and its products stay within 32 bits. Rounding one of them up may
still leave the 32 bits, and comes to zero.
-/
namespace MySQLSyncer.Core
open Lib

/-- The conversion of `init_size * factor` back to `uint32_t`. -/
def growBy (factor : ℚ≥0) (initSize : UInt32) : UInt32 := UInt32.ofNat ⌊(initSize.toNat : ℚ≥0) * factor⌋₊

def classSize (factor : ℚ≥0) (s k : ℕ) : ℕ := (scaled 8 factor)^[k] s

def sizeProduct (factor : ℚ≥0) (s k : ℕ) : ℕ := ⌊(classSize factor s k : ℚ≥0) * factor⌋₊

/-- The loop over at most `n` classes comes to class `k`, whose size it multiplies. -/
def FormsProduct (factor : ℚ≥0) (chunkSize : UInt32) (n s k : ℕ) : Prop :=
  k < n ∧ ∀ j ≤ k, classSize factor s j < chunkSize.toNat

structure RsPool.UsableTable (p : RsPool) : Prop where
  num_pos : ∀ c ∈ p.slabClass, 1 ≤ c.num
  fits : ∀ c ∈ p.slabClass, c.num * c.size ≤ p.chunkSize
  sorted : p.slabClass.Pairwise fun c d => c.size ≤ d.size
  aligned : ∀ c ∈ p.slabClass.dropLast, 8 ∣ c.size
  last : ∃ c, p.slabClass.getLast? = some c ∧ c.size = p.chunkSize

/-- The aligned size is not zero, and no size is smaller than the one before it: with a factor below
one the first size has to come back to itself, and with a larger one no product that another class
follows may be too large to be rounded up. -/
def GrowsUp (factor : ℚ≥0) (initSize chunkSize : UInt32) (maxIdx : ℕ) : Prop :=
  maxIdx = 0 ∨ (0 < initSize.toNat ∧ initSize.toNat ≤ 2 ^ 32 - 8) ∧
    let s := roundUp 8 initSize.toNat
    chunkSize.toNat ≤ s ∨ maxIdx = 1 ∨ (factor < 1 ∧ s ≤ sizeProduct factor s 0 + 7) ∨
      (1 ≤ factor ∧ ∀ k, FormsProduct factor chunkSize (maxIdx - 1) s k →
        sizeProduct factor s k ≤ 2 ^ 32 - 8)

variable {factor : ℚ≥0} {grow : UInt32 → UInt32} {chunkSize initSize memSize s : UInt32}
  {maxIdx start n : ℕ} {flag : RsPoolFlag} {table : List (UInt32 × UInt32)}

theorem and_words {x : ℕ} (h : x < 2 ^ 32) : x &&& 4294967288 = x / 8 * 8 := by
  have hmask : 4294967288 = (2 ^ 29 - 1) * 2 ^ 3 := by norm_num
  have height : x / 8 * 8 = x / 2 ^ 3 * 2 ^ 3 := by norm_num
  apply Nat.eq_of_testBit_eq
  intro i
  rw [Nat.testBit_and, hmask, height, Nat.testBit_mul_two_pow, Nat.testBit_mul_two_pow,
    Nat.testBit_two_pow_sub_one, Nat.testBit_div_two_pow]
  by_cases hi : 3 ≤ i
  · have hback : i - 3 + 3 = i := by omega
    by_cases hword : i < 32
    · simp [hi, hback, (by omega : i - 3 < 29)]
    · have hbit : x.testBit i = false := by
        apply Nat.testBit_lt_two_pow
        exact h.trans_le (Nat.pow_le_pow_right (by norm_num) (by omega))
      simp [hi, hback, hbit]
  · simp [hi]

theorem toNat_rsAlign (d : UInt32) :
    (rsAlign d).toNat = if d.toNat ≤ 2 ^ 32 - 8 then roundUp 8 d.toNat else 0 := by
  have hd := d.toNat_lt
  have hmask : (~~~7 : UInt32).toNat = 4294967288 := by decide
  have hseven : (7 : UInt32).toNat = 7 := by decide
  rw [rsAlign, UInt32.toNat_and, hmask, UInt32.toNat_add, hseven, and_words (Nat.mod_lt _ (by norm_num)),
    roundUp]
  split_ifs with h
  · rw [Nat.mod_eq_of_lt (by omega)]
  · omega

theorem toNat_rsAlign_pos_iff (d : UInt32) :
    0 < (rsAlign d).toNat ↔ 0 < d.toNat ∧ d.toNat ≤ 2 ^ 32 - 8 := by
  rw [toNat_rsAlign]
  split_ifs with h
  · have hone : 8 ≤ roundUp 8 d.toNat ↔ 8 ≤ d.toNat + 7 := le_roundUp_iff (by norm_num) (dvd_refl 8)
    have height := Nat.eq_zero_of_dvd_of_lt (dvd_roundUp 8 d.toNat)
    omega
  · omega

theorem toNat_next (h : sizeProduct factor s.toNat 0 < 2 ^ 32) : (rsAlign (growBy factor s)).toNat =
    if sizeProduct factor s.toNat 0 ≤ 2 ^ 32 - 8 then scaled 8 factor s.toNat else 0 := by
  have hgrow : (growBy factor s).toNat = sizeProduct factor s.toNat 0 := UInt32.toNat_ofNat_of_lt' h
  rw [toNat_rsAlign, hgrow]
  rfl

theorem formsProduct_succ {s k : ℕ} : FormsProduct factor chunkSize (n + 1) s (k + 1) ↔
    s < chunkSize.toNat ∧ FormsProduct factor chunkSize n (scaled 8 factor s) k := by
  unfold FormsProduct
  rw [Nat.add_lt_add_iff_right, and_left_comm]
  refine and_congr_right fun _ => ⟨fun h => ⟨h 0 (Nat.zero_le _), fun j hj => h (j + 1) (by omega)⟩, ?_⟩
  rintro ⟨hs, h⟩ j hj
  cases j with
  | zero => exact hs
  | succ j => exact h j (by omega)

theorem formsProduct_zero {s : ℕ} (hs : s < chunkSize.toNat) : FormsProduct factor chunkSize (n + 1) s 0 := by
  refine ⟨Nat.succ_pos n, fun j hj => ?_⟩
  obtain rfl := Nat.le_zero.mp hj
  exact hs

theorem FormsProduct.mono {m s k : ℕ} (h : FormsProduct factor chunkSize n s k) (hle : n ≤ m) :
    FormsProduct factor chunkSize m s k := ⟨h.1.trans_le hle, h.2⟩

/-- Every table ends with the class of the chunk size, behind classes of whole words. -/
theorem poolClasses_ends (hs : 8 ∣ s.toNat) (h : poolClasses grow chunkSize n s = some table) :
    (∀ x ∈ table.dropLast, 8 ∣ x.1.toNat) ∧ table.getLast? = some (chunkSize, 1) := by
  induction n generalizing s table with
  | zero =>
    obtain rfl := Option.some.inj h
    simp
  | succ n ih =>
    rw [poolClasses] at h
    split_ifs at h with hlt hzero
    · obtain ⟨rest, hrest, rfl⟩ := Option.map_eq_some_iff.mp h
      obtain ⟨hwords, hlast⟩ := ih (eight_dvd_rsAlign _) hrest
      have hne : rest ≠ [] := by
        rintro rfl
        cases hlast
      refine ⟨fun x hx => ?_, ?_⟩
      · rw [List.dropLast_cons_of_ne_nil hne] at hx
        rcases List.mem_cons.mp hx with rfl | hx
        · exact hs
        · exact hwords x hx
      · rw [List.getLast?_cons, hlast, Option.getD_some]
    · obtain rfl := Option.some.inj h
      simp

/-- The first size is the one that the loop begins with, or that of the last class. -/
theorem poolClasses_head (h : poolClasses grow chunkSize n s = some table) :
    ∃ x ∈ table, x.1 = if n ≠ 0 ∧ s < chunkSize then s else chunkSize := by
  cases n with
  | zero =>
    obtain rfl := Option.some.inj h
    exact ⟨_, List.mem_singleton_self _, rfl⟩
  | succ n =>
    rw [poolClasses] at h
    split_ifs at h with hlt hzero
    · obtain ⟨rest, hrest, rfl⟩ := Option.map_eq_some_iff.mp h
      exact ⟨_, List.mem_cons_self, (if_pos ⟨Nat.succ_ne_zero n, hlt⟩).symm⟩
    · obtain rfl := Option.some.inj h
      exact ⟨_, List.mem_singleton_self _, (if_neg fun hn => hlt hn.2).symm⟩

/-- While no size is smaller than the one before it, the loop makes a sorted table. -/
theorem poolClasses_sorted (hs : 0 < s.toNat) (hdvd : 8 ∣ s.toNat)
    (hsafe : ∀ k, FormsProduct factor chunkSize (n - 1) s.toNat k →
      sizeProduct factor s.toNat k ≤ 2 ^ 32 - 8)
    (hback : ∀ k, FormsProduct factor chunkSize (n - 1) s.toNat k →
      classSize factor s.toNat k ≤ sizeProduct factor s.toNat k + 7) :
    ∃ table, poolClasses (growBy factor) chunkSize n s = some table ∧
      (table.Pairwise fun x y => x.1.toNat ≤ y.1.toNat) ∧
      ∀ x ∈ table, min s.toNat chunkSize.toNat ≤ x.1.toNat := by
  induction n generalizing s with
  | zero => exact ⟨_, rfl, List.pairwise_singleton _ _, by simp⟩
  | succ n ih =>
    rw [poolClasses]
    by_cases hlt : s < chunkSize
    · have hlt' := UInt32.lt_iff_toNat_lt.mp hlt
      have hne : s ≠ 0 := by
        rintro rfl
        exact absurd hs (by decide)
      have hrest : ∃ rest, poolClasses (growBy factor) chunkSize n (rsAlign (growBy factor s)) = some rest ∧
          (rest.Pairwise fun x y => x.1.toNat ≤ y.1.toNat) ∧ ∀ x ∈ rest, s.toNat ≤ x.1.toNat := by
        cases n with
        | zero =>
          refine ⟨_, rfl, List.pairwise_singleton _ _, fun x hx => ?_⟩
          rw [List.mem_singleton.mp hx]
          exact hlt'.le
        | succ n =>
          have hfirst : FormsProduct factor chunkSize (n + 1) _ 0 := formsProduct_zero hlt'
          have hfit := hsafe 0 hfirst
          have hnext := toNat_next (lt_of_le_of_lt hfit (by norm_num))
          rw [if_pos hfit] at hnext
          have hgrows : s.toNat ≤ scaled 8 factor s.toNat :=
            (le_roundUp_iff (by norm_num) hdvd).mpr (hback 0 hfirst)
          have hlater (k : ℕ) (hk : FormsProduct factor chunkSize n (scaled 8 factor s.toNat) k) :
              FormsProduct factor chunkSize (n + 1) s.toNat (k + 1) := formsProduct_succ.mpr ⟨hlt', hk⟩
          obtain ⟨rest, hrest, hsorted, hmin⟩ := ih (s := rsAlign (growBy factor s)) (by omega)
            (eight_dvd_rsAlign _) (hnext ▸ fun k hk => hsafe (k + 1) (hlater k hk))
            (hnext ▸ fun k hk => hback (k + 1) (hlater k hk))
          refine ⟨rest, hrest, hsorted, fun x hx => ?_⟩
          have hx := hmin x hx
          omega
      obtain ⟨rest, hrest, hsorted, hmin⟩ := hrest
      rw [if_pos hlt, if_neg hne, hrest]
      refine ⟨_, rfl, List.pairwise_cons.mpr ⟨hmin, hsorted⟩, fun x hx => ?_⟩
      rcases List.mem_cons.mp hx with rfl | hx
      · exact min_le_left _ _
      · exact (min_le_left _ _).trans (hmin x hx)
    · rw [if_neg hlt]
      exact ⟨_, rfl, List.pairwise_singleton _ _, by simp⟩

/-- A class below the chunk size is followed by the rest of the loop. -/
theorem poolClasses_next (hlt : s.toNat < chunkSize.toNat) (h : poolClasses grow chunkSize (n + 1) s = some table) :
    ∃ rest, poolClasses grow chunkSize n (rsAlign (grow s)) = some rest ∧ table = (s, chunkSize / s) :: rest := by
  rw [poolClasses, if_pos (UInt32.lt_iff_toNat_lt.mpr hlt)] at h
  split_ifs at h
  obtain ⟨rest, hrest, rfl⟩ := Option.map_eq_some_iff.mp h
  exact ⟨rest, hrest, rfl⟩

theorem poolClasses_pos (hchunk : 1 ≤ chunkSize.toNat) (h : poolClasses grow chunkSize (n + 1) s = some table) :
    0 < s.toNat := by
  rw [Nat.pos_iff_ne_zero]
  intro hs
  have hzero : s = 0 := UInt32.toNat_inj.mp hs
  have hpositive : (0 : UInt32) < chunkSize := UInt32.lt_iff_toNat_lt.mpr hchunk
  rw [hzero, poolClasses, if_pos hpositive, if_pos rfl] at h
  cases h

/-- A product that is rounded up to zero is followed by a division by zero. -/
theorem poolClasses_first (hchunk : 1 ≤ chunkSize.toNat) (hlt : s.toNat < chunkSize.toNat)
    (hrange : sizeProduct factor s.toNat 0 < 2 ^ 32)
    (h : poolClasses (growBy factor) chunkSize (n + 2) s = some table) :
    sizeProduct factor s.toNat 0 ≤ 2 ^ 32 - 8 := by
  by_contra hnot
  have hnext := toNat_next hrange
  rw [if_neg hnot] at hnext
  obtain ⟨rest, hrest, -⟩ := poolClasses_next hlt h
  exact absurd hnext (poolClasses_pos hchunk hrest).ne'

theorem poolClasses_bounded (hchunk : 1 ≤ chunkSize.toNat)
    (hrange : ∀ k, FormsProduct factor chunkSize n s.toNat k → sizeProduct factor s.toNat k < 2 ^ 32)
    (h : poolClasses (growBy factor) chunkSize n s = some table) (k : ℕ)
    (hk : FormsProduct factor chunkSize (n - 1) s.toNat k) : sizeProduct factor s.toNat k ≤ 2 ^ 32 - 8 := by
  induction k generalizing s n table with
  | zero =>
    obtain ⟨m, rfl⟩ : ∃ m, n = m + 2 := ⟨n - 2, by have := hk.1; omega⟩
    have hlt := hk.2 0 le_rfl
    exact poolClasses_first hchunk hlt (hrange 0 (formsProduct_zero hlt)) h
  | succ k ih =>
    obtain ⟨m, rfl⟩ : ∃ m, n = m + 2 := ⟨n - 2, by have := hk.1; omega⟩
    obtain ⟨hlt, hk⟩ := formsProduct_succ.mp hk
    have hfirst := hrange 0 (formsProduct_zero hlt)
    have hnext := toNat_next hfirst
    rw [if_pos (poolClasses_first hchunk hlt hfirst h)] at hnext
    obtain ⟨rest, hrest, -⟩ := poolClasses_next hlt h
    have hlater := ih (n := m + 1) (s := rsAlign (growBy factor s))
      (hnext ▸ fun k hk => hrange (k + 1) (formsProduct_succ.mpr ⟨hlt, hk⟩)) hrest (hnext ▸ hk)
    rw [hnext] at hlater
    exact hlater

/-- Of a table that exists, only the order of its sizes is in question. -/
theorem usableTable_iff_sorted (hs : 8 ∣ s.toNat)
    (h : poolClasses grow chunkSize n s = some table) :
    (newPool flag start memSize chunkSize table).UsableTable ↔
      table.Pairwise fun x y => x.1.toNat ≤ y.1.toNat := by
  have hclasses : (newPool flag start memSize chunkSize table).slabClass =
      table.map fun x => rsPoolClassTInit x.1 x.2 := rfl
  have hpairs : ((table.map fun x => rsPoolClassTInit x.1 x.2).Pairwise fun c d => c.size ≤ d.size) ↔
      table.Pairwise fun x y => x.1.toNat ≤ y.1.toNat := List.pairwise_map
  obtain ⟨hwords, hlast⟩ := poolClasses_ends hs h
  constructor
  · intro husable
    exact hpairs.mp husable.sorted
  · intro hsorted
    refine ⟨?_, ?_, hpairs.mpr hsorted, ?_, ?_⟩
    · rw [hclasses, List.forall_mem_map]
      exact fun x hx => (poolClasses_num hs h x hx).1
    · rw [hclasses, List.forall_mem_map]
      exact fun x hx => (poolClasses_num hs h x hx).2
    · rw [hclasses, ← List.map_dropLast, List.forall_mem_map]
      exact hwords
    · rw [hclasses, List.getLast?_map, hlast]
      exact ⟨_, rfl, rfl⟩

theorem rsCreatePool_sorted_iff :
    (∃ p, rsCreatePool grow start initSize memSize chunkSize maxIdx flag = some p ∧ p.UsableTable) ↔
      ∃ table, poolClasses grow chunkSize maxIdx (rsAlign initSize) = some table ∧
        table.Pairwise fun x y => x.1.toNat ≤ y.1.toNat := by
  constructor
  · rintro ⟨p, hp, husable⟩
    obtain ⟨table, htable, rfl⟩ := Option.map_eq_some_iff.mp hp
    exact ⟨table, htable, (usableTable_iff_sorted (eight_dvd_rsAlign _) htable).mp husable⟩
  · rintro ⟨table, htable, hsorted⟩
    refine ⟨_, by rw [rsCreatePool, htable, Option.map_some], ?_⟩
    exact (usableTable_iff_sorted (eight_dvd_rsAlign _) htable).mpr hsorted

/-- A factor below one takes the first size to a smaller one, or back to itself. -/
theorem poolClasses_shrinks (hf : factor < 1) (hs : 8 ∣ s.toNat) (hlt : s.toNat < chunkSize.toNat)
    (h : poolClasses (growBy factor) chunkSize (n + 2) s = some table)
    (hsorted : table.Pairwise fun x y => x.1.toNat ≤ y.1.toNat) :
    s.toNat ≤ sizeProduct factor s.toNat 0 + 7 := by
  have hword := s.toNat_lt
  have hdown : sizeProduct factor s.toNat 0 ≤ s.toNat := floor_mul_le hf.le _
  have hnext := toNat_next (hdown.trans_lt hword)
  rw [if_pos (by omega)] at hnext
  have hsmall := scaled_le (by norm_num) hs hf.le
  obtain ⟨rest, hrest, rfl⟩ := poolClasses_next hlt h
  obtain ⟨x, hx, hsize⟩ := poolClasses_head hrest
  rw [if_pos ⟨Nat.succ_ne_zero n, UInt32.lt_iff_toNat_lt.mpr (by omega)⟩] at hsize
  have hle : s.toNat ≤ x.1.toNat := List.rel_of_pairwise_cons hsorted hx
  rw [hsize, hnext] at hle
  exact (le_roundUp_iff (by norm_num) hs).mp hle

theorem poolClasses_grows (hchunk : 1 ≤ chunkSize.toNat) (hdvd : 8 ∣ s.toNat)
    (hrange : ∀ k, FormsProduct factor chunkSize (n + 1) s.toNat k → sizeProduct factor s.toNat k < 2 ^ 32)
    (h : poolClasses (growBy factor) chunkSize (n + 1) s = some table)
    (hsorted : table.Pairwise fun x y => x.1.toNat ≤ y.1.toNat) :
    chunkSize.toNat ≤ s.toNat ∨ n + 1 = 1 ∨ (factor < 1 ∧ s.toNat ≤ sizeProduct factor s.toNat 0 + 7) ∨
      (1 ≤ factor ∧ ∀ k, FormsProduct factor chunkSize n s.toNat k → sizeProduct factor s.toNat k ≤ 2 ^ 32 - 8) := by
  by_cases hlarge : chunkSize.toNat ≤ s.toNat
  · exact Or.inl hlarge
  right
  cases n with
  | zero => exact Or.inl rfl
  | succ n =>
    right
    rcases lt_or_ge factor 1 with hf | hf
    · exact Or.inl ⟨hf, poolClasses_shrinks hf hdvd (Nat.not_le.mp hlarge) h hsorted⟩
    · exact Or.inr ⟨hf, poolClasses_bounded hchunk hrange h⟩

/-- Sizes that are like this fit in 32 bits, and none is smaller than the one before it. -/
theorem poolClasses_of_grows (hs : 0 < s.toNat) (hdvd : 8 ∣ s.toNat) (hcase : chunkSize.toNat ≤ s.toNat ∨ n = 1 ∨
      (factor < 1 ∧ s.toNat ≤ sizeProduct factor s.toNat 0 + 7) ∨
      (1 ≤ factor ∧ ∀ k, FormsProduct factor chunkSize (n - 1) s.toNat k →
        sizeProduct factor s.toNat k ≤ 2 ^ 32 - 8)) :
    ∃ table, poolClasses (growBy factor) chunkSize n s = some table ∧
      table.Pairwise fun x y => x.1.toNat ≤ y.1.toNat := by
  have hgrow (k : ℕ) (hk : FormsProduct factor chunkSize (n - 1) s.toNat k) :
      sizeProduct factor s.toNat k ≤ 2 ^ 32 - 8 ∧ classSize factor s.toNat k ≤ sizeProduct factor s.toNat k + 7 := by
    rcases hcase with hlarge | rfl | ⟨hf, hback⟩ | ⟨hf, hfit⟩
    · exact absurd (hk.2 0 (Nat.zero_le _)) (Nat.not_lt.mpr hlarge)
    · exact absurd hk.1 (Nat.not_lt_zero _)
    · have hword := s.toNat_lt
      have hfixed : classSize factor s.toNat k = s.toNat := iterate_scaled_fixed (by norm_num) hdvd hf.le hback k
      have hdown : sizeProduct factor s.toNat 0 ≤ s.toNat := floor_mul_le hf.le _
      have hprod : sizeProduct factor s.toNat k = sizeProduct factor s.toNat 0 := by
        rw [sizeProduct, hfixed]
        rfl
      omega
    · exact ⟨hfit k hk, (le_floor_mul hf _).trans (Nat.le_add_right _ _)⟩
  obtain ⟨table, htable, hsorted, -⟩ := poolClasses_sorted hs hdvd (fun k hk =>
      (hgrow k hk).1) fun k hk => (hgrow k hk).2
  exact ⟨table, htable, hsorted⟩

/-- The creation gives a pool with a usable class table if and only if the sizes grow up. -/
theorem rsCreatePool_usable_iff (hchunk : 1 ≤ chunkSize.toNat)
    (hrange : ∀ k, FormsProduct factor chunkSize maxIdx (roundUp 8 initSize.toNat) k →
      sizeProduct factor (roundUp 8 initSize.toNat) k < 2 ^ 32) :
    (∃ p, rsCreatePool (growBy factor) start initSize memSize chunkSize maxIdx flag = some p ∧
      p.UsableTable) ↔ GrowsUp factor initSize chunkSize maxIdx := by
  have hpos := toNat_rsAlign_pos_iff initSize
  have hdvd := eight_dvd_rsAlign initSize
  have halign (h : 0 < (rsAlign initSize).toNat) : (rsAlign initSize).toNat = roundUp 8 initSize.toNat := by
    rw [toNat_rsAlign, if_pos (hpos.mp h).2]
  rw [rsCreatePool_sorted_iff, GrowsUp]
  constructor
  · rintro ⟨table, htable, hsorted⟩
    cases maxIdx with
    | zero => exact Or.inl rfl
    | succ n =>
      have hfirst := poolClasses_pos hchunk htable
      rw [← halign hfirst] at hrange ⊢
      exact Or.inr ⟨hpos.mp hfirst, poolClasses_grows hchunk hdvd hrange htable hsorted⟩
  · rintro (rfl | ⟨hinit, hcase⟩)
    · exact ⟨_, rfl, List.pairwise_singleton _ _⟩
    · have hfirst := hpos.mpr hinit
      rw [← halign hfirst] at hcase
      exact poolClasses_of_grows hfirst hdvd hcase

theorem sizeProduct_le {m s k : ℕ} (hf : factor ≤ m) (h : FormsProduct factor chunkSize n s k) :
    sizeProduct factor s k ≤ chunkSize.toNat * m := by
  apply Nat.floor_le_of_le
  have hsize : (classSize factor s k : ℚ≥0) ≤ chunkSize.toNat := Nat.cast_le.mpr (h.2 k le_rfl).le
  calc
    (classSize factor s k : ℚ≥0) * factor ≤ chunkSize.toNat * m := mul_le_mul' hsize hf
    _ = ((chunkSize.toNat * m : ℕ) : ℚ≥0) := (Nat.cast_mul _ _).symm

/-- Chunks of a page, the first class of 200 bytes, each next class half as large again. -/
theorem rsCreatePool_usable_page : (∀ k, FormsProduct (3 / 2) 4096 200 (roundUp 8 200) k →
      sizeProduct (3 / 2) (roundUp 8 200) k < 2 ^ 32) ∧
    ∃ p, rsCreatePool (growBy (3 / 2)) 0 200 10485760 4096 200 .prealloc = some p ∧ p.UsableTable := by
  have hfactor : (3 / 2 : ℚ≥0) ≤ (2 : ℕ) := by
    rw [← NNRat.coe_le_coe]
    norm_num
  have hone : (1 : ℚ≥0) ≤ 3 / 2 := by
    rw [← NNRat.coe_le_coe]
    norm_num
  have hsmall (n k : ℕ) (hk : FormsProduct (3 / 2) 4096 n (roundUp 8 200) k) :
      sizeProduct (3 / 2) (roundUp 8 200) k ≤ 8192 := sizeProduct_le hfactor hk
  refine ⟨fun k hk => (hsmall _ k hk).trans_lt (by norm_num), (rsCreatePool_usable_iff (by decide) ?_).mpr ?_⟩
  · exact fun k hk => (hsmall _ k hk).trans_lt (by norm_num)
  · refine Or.inr ⟨⟨by decide, by decide⟩, Or.inr (Or.inr (Or.inr ⟨hone, fun k hk => ?_⟩))⟩
    exact (hsmall _ k hk).trans (by norm_num)

theorem not_rsCreatePool_usable : ¬ ∀ (factor : ℚ≥0) (start : ℕ) (initSize memSize chunkSize : UInt32)
    (maxIdx : ℕ) (flag : RsPoolFlag), 1 ≤ chunkSize.toNat →
    (∀ k, FormsProduct factor chunkSize maxIdx (roundUp 8 initSize.toNat) k →
      sizeProduct factor (roundUp 8 initSize.toNat) k < 2 ^ 32) →
    ∃ p, rsCreatePool (growBy factor) start initSize memSize chunkSize maxIdx flag = some p ∧
      p.UsableTable := by
  intro h
  have hzero (k : ℕ) : sizeProduct (3 / 2) (roundUp 8 0) k = 0 := by
    have hfixed : scaled 8 (3 / 2 : ℚ≥0) 0 = 0 := by simp [scaled, roundUp]
    have hsize : classSize (3 / 2) (roundUp 8 0) k = 0 := Function.iterate_fixed hfixed k
    simp [sizeProduct, hsize]
  obtain ⟨p, hp, -⟩ := h (3 / 2) 0 0 10485760 1048576 200 .prealloc (by decide) fun k _ => by
    change sizeProduct (3 / 2) (roundUp 8 0) k < 2 ^ 32
    rw [hzero]
    norm_num
  have hnone : poolClasses (growBy (3 / 2)) 1048576 200 (rsAlign 0) = none := rfl
  rw [rsCreatePool, hnone] at hp
  cases hp

end MySQLSyncer.Core
