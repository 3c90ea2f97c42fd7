import MySQLSyncer.Core.PallocId
import MySQLSyncer.Core.PallocInvariant

/-! # The ids that the pool's users get

`rs_palloc_id` answers a size of zero with `RS_ERR`, which is no id. Its users give what it answers
to `rs_palloc`, and later to `rs_pfree`.
-/
namespace MySQLSyncer.Core

/-- `RS_SLAB_OVERFLOW`, or the index of a class. -/
def RsPool.ValidId (p : RsPool) (id : ℤ) : Prop :=
  id = RsCode.slabOverflow.toInt ∨ 0 ≤ id ∧ id ≤ p.curIdx

/-- One call of `rs_palloc` or `rs_pfree`, by any user and with any answer of the C library. -/
inductive RsPool.Call (p q : RsPool) : Prop
  | palloc {libc : Libc} {size : ℕ} {id : ℤ} {t : Option ℕ} (h : rsPalloc libc p size id = some (t, q))
  | pfree {libc : Libc} {data : ℕ} {id : ℤ} (h : rsPfree libc p data id = some q)

/-- `rs_palloc_id` has an id for the size, now and in whatever state the pool is when the chunk is
given back. -/
def RsPool.Serves (p : RsPool) (size : ℕ) : Prop :=
  ∃ id, rsPallocId p size = some id ∧ ∀ q, Relation.ReflTransGen RsPool.Call p q → q.ValidId id

variable {p q : RsPool} {libc : Libc} {size data : ℕ} {id : ℤ} {t : Option ℕ} {c : RsPoolClass}

theorem curIdx_setClass : (p.setClass id c).curIdx = p.curIdx := by
  simp [RsPool.curIdx, RsPool.setClass]

theorem takeChunk_curIdx (p : RsPool) (id : ℤ) (c : RsPoolClass) : (takeChunk p id c).2.curIdx = p.curIdx := by
  unfold takeChunk
  cases c.freeChunk <;> exact curIdx_setClass

theorem rsPallocNew_curIdx {code : RsCode} (h : rsPallocNew libc p id c = some (code, q)) : q.curIdx = p.curIdx := by
  obtain ⟨d, hq, -⟩ := rsPallocNew_cases h
  rw [RsPool.curIdx, RsPool.curIdx, hq, List.length_set]

theorem RsPool.Call.curIdx (h : p.Call q) : q.curIdx = p.curIdx := by
  cases h with
  | @palloc libc size id t h =>
    rcases rsPalloc_cases h with rfl | ⟨c, -, ⟨code, hnew⟩ | ⟨p', d, hp', -, htake⟩⟩
    · rfl
    · exact rsPallocNew_curIdx hnew
    · have hq := takeChunk_curIdx p' id d
      rw [htake] at hq
      rcases hp' with rfl | ⟨code, hnew⟩
      · exact hq
      · exact hq.trans (rsPallocNew_curIdx hnew)
  | @pfree libc data id h =>
    by_cases hover : id = RsCode.slabOverflow.toInt
    · rw [rsPfree, if_pos hover] at h
      cases h
      rfl
    · rw [rsPfree, if_neg hover] at h
      obtain ⟨c, -, h⟩ := Option.bind_eq_some_iff.mp h
      split_ifs at h
      · obtain ⟨d, -, rfl⟩ := Option.map_eq_some_iff.mp h
        exact curIdx_setClass
      · cases h
        rfl
      · obtain ⟨d, -, rfl⟩ := Option.map_eq_some_iff.mp h
        exact curIdx_setClass

theorem RsPool.ValidId.calls (h : p.ValidId id) (hcalls : Relation.ReflTransGen RsPool.Call p q) : q.ValidId id := by
  induction hcalls with
  | refl => exact h
  | tail hcalls hcall ih => rwa [RsPool.ValidId, hcall.curIdx]

/-- The loop stays inside the table, whatever the sizes of the classes. -/
theorem pallocIdLoop_valid {low high : ℤ} (hlow : 0 ≤ low) (hhigh : high ≤ p.curIdx) :
    ∃ id, pallocIdLoop p size low high = some id ∧ p.ValidId id := by
  induction low, high using pallocIdLoop.induct p with
  | case1 low high hle mid ih₁ ih₂ =>
    have hmid : mid = low + (high - low) / 2 := rfl
    obtain ⟨c, hc⟩ : ∃ c, p.classAt mid = some c := by
      rw [RsPool.curIdx] at hhigh
      rw [RsPool.classAt, if_pos (by omega)]
      exact ⟨_, List.getElem?_eq_getElem (by omega)⟩
    rw [pallocIdLoop, if_pos hle]
    change ∃ id, (p.classAt mid).bind _ = some id ∧ _
    rw [hc, Option.bind_some]
    split_ifs with hlt hgt
    · exact ih₁ hlow (by omega)
    · exact ih₂ (by omega) hhigh
    · exact ⟨low, rfl, Or.inr ⟨hlow, hle.trans hhigh⟩⟩
  | case2 low high hle hin =>
    rw [pallocIdLoop, if_neg hle, if_pos hin]
    exact ⟨low, rfl, Or.inr ⟨hlow, hin.2⟩⟩
  | case3 low high hle hin =>
    rw [pallocIdLoop, if_neg hle, if_neg hin]
    exact ⟨_, rfl, Or.inl rfl⟩

theorem rsPallocId_valid (hsize : size ≠ 0) : ∃ id, rsPallocId p size = some id ∧ p.ValidId id := by
  rw [rsPallocId, if_neg hsize]
  split_ifs
  · exact ⟨_, rfl, Or.inl rfl⟩
  · exact pallocIdLoop_valid le_rfl le_rfl

theorem not_validId_err (p : RsPool) : ¬ p.ValidId RsCode.err.toInt := by
  rintro (h | ⟨h, -⟩)
  · exact absurd h (by decide)
  · exact absurd h (by decide)

/-- There is an id for every size but zero. -/
theorem serves_iff (p : RsPool) (size : ℕ) : p.Serves size ↔ size ≠ 0 := by
  constructor
  · rintro ⟨id, hid, hvalid⟩ rfl
    obtain rfl := Option.some.inj hid
    exact not_validId_err p (hvalid p .refl)
  · intro hsize
    obtain ⟨id, hid, hvalid⟩ := rsPallocId_valid (p := p) hsize
    exact ⟨id, hid, fun q hq => hvalid.calls hq⟩

end MySQLSyncer.Core
