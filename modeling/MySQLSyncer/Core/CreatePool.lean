import MySQLSyncer.Core.PallocInvariant

/-! # The class table

`rs_create_pool` with its growth factor as a function: the product of an `uint32_t` and a
`double`, converted back. A division by zero makes the creation undefined.
-/
namespace MySQLSyncer.Core
open Lib

/-- `rs_align` with `RS_ALIGNMENT`, the size of a word of eight bytes. -/
def rsAlign (d : UInt32) : UInt32 := (d + 7) &&& ~~~7

def rsPoolClassIdx : ℕ := 200

def poolClasses (grow : UInt32 → UInt32) (chunkSize : UInt32) : ℕ → UInt32 → Option (List (UInt32 × UInt32))
  | 0, _ => some [(chunkSize, 1)]
  | n + 1, initSize =>
    if initSize < chunkSize then
      if initSize = 0 then none
      else (poolClasses grow chunkSize n (rsAlign (grow initSize))).map
        ((initSize, chunkSize / initSize) :: ·)
    else some [(chunkSize, 1)]

def rsCreatePool (grow : UInt32 → UInt32) (start : ℕ) (initSize memSize chunkSize : UInt32)
    (maxIdx : ℕ) (flag : RsPoolFlag) : Option RsPool :=
  (poolClasses grow chunkSize maxIdx (rsAlign initSize)).map
    (newPool flag start (rsAlign memSize) chunkSize)

variable {grow : UInt32 → UInt32} {chunkSize initSize memSize : UInt32} {maxIdx start : ℕ}
  {flag : RsPoolFlag} {table : List (UInt32 × UInt32)} {p : RsPool}

theorem eight_dvd_rsAlign (d : UInt32) : 8 ∣ (rsAlign d).toNat := by
  have hmask : (~~~7 : UInt32).toNat % 2 ^ 3 = 0 := by decide
  rw [rsAlign, UInt32.toNat_and]
  apply Nat.dvd_of_mod_eq_zero
  rw [show 8 = 2 ^ 3 from rfl, Nat.and_mod_two_pow, hmask, Nat.and_zero]

/-- Every class but the last has a size of whole words below the chunk size. -/
theorem poolClasses_spec (hinit : 8 ∣ initSize.toNat)
    (h : poolClasses grow chunkSize maxIdx initSize = some table) :
    ∀ x ∈ table, x = (chunkSize, 1) ∨
      8 ≤ x.1.toNat ∧ x.1.toNat < chunkSize.toNat ∧ x.2 = chunkSize / x.1 := by
  induction maxIdx generalizing initSize table with
  | zero =>
    obtain rfl := Option.some.inj h
    exact fun x hx => Or.inl (List.mem_singleton.mp hx)
  | succ n ih =>
    rw [poolClasses] at h
    split_ifs at h with hlt hzero
    · obtain ⟨rest, hrest, rfl⟩ := Option.map_eq_some_iff.mp h
      intro x hx
      rcases List.mem_cons.mp hx with rfl | hx
      · have hpos : initSize.toNat ≠ 0 := fun h0 => hzero (UInt32.toNat_inj.mp h0)
        exact Or.inr ⟨Nat.le_of_dvd (Nat.pos_of_ne_zero hpos) hinit, UInt32.lt_iff_toNat_lt.mp hlt, rfl⟩
      · exact ih (eight_dvd_rsAlign _) hrest x hx
    · obtain rfl := Option.some.inj h
      exact fun x hx => Or.inl (List.mem_singleton.mp hx)

/-- The chunks of a class are some, and fit in a slab of the chunk size. -/
theorem poolClasses_num (hinit : 8 ∣ initSize.toNat)
    (h : poolClasses grow chunkSize maxIdx initSize = some table) :
    ∀ x ∈ table, 1 ≤ x.2.toNat ∧ x.2.toNat * x.1.toNat ≤ chunkSize.toNat := by
  intro x hx
  rcases poolClasses_spec hinit h x hx with rfl | ⟨hsize, hlt, hnum⟩
  · exact ⟨le_rfl, (Nat.one_mul _).le⟩
  · rw [hnum, UInt32.toNat_div]
    exact ⟨Nat.div_pos hlt.le (by omega), Nat.div_mul_le_self _ _⟩

theorem poolClasses_good {maxSize : UInt32} (hchunk : 1 < chunkSize.toNat) (hinit : 8 ∣ initSize.toNat)
    (h : poolClasses grow chunkSize maxIdx initSize = some table) :
    ∀ x ∈ table, GoodClass maxSize chunkSize x := by
  have hmax := maxSize.toNat_lt
  intro x hx
  obtain ⟨hnum, hfits⟩ := poolClasses_num hinit h x hx
  refine ⟨hnum, hfits, ?_⟩
  rcases poolClasses_spec hinit h x hx with rfl | ⟨hsize, hlt, -⟩
  · dsimp only
    omega
  · omega

/-- A pool that has just been created keeps the invariant. -/
theorem rsCreatePool_inv (hchunk : 1 < chunkSize.toNat)
    (h : rsCreatePool grow start initSize memSize chunkSize maxIdx flag = some p) :
    PoolUse.Inv ⟨p, []⟩ := by
  obtain ⟨table, htable, rfl⟩ := Option.map_eq_some_iff.mp h
  exact PoolUse.init_inv (poolClasses_good hchunk (eight_dvd_rsAlign initSize) htable)

end MySQLSyncer.Core
