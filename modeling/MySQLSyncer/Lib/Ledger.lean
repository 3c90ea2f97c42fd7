import Mathlib.Data.List.Perm.Subperm
import Mathlib.Data.List.Nodup

/-! # What is allocated and what is freed

Allocations and frees are lists, in which a thing may stand more than once.
-/
namespace MySQLSyncer.Lib
universe u v
variable {α : Type u} {β : Type v}

section ledger
variable [BEq α] {live own frees kept strays : List α}

def FreesLive : List α → List α → Prop
  | _, [] => True
  | live, x :: frees => x ∈ live ∧ FreesLive (live.erase x) frees

/-- Only live things are freed, and those of `own` as often as they were allocated. -/
structure FreesExactly (live own frees : List α) : Prop where
  isLive : FreesLive live frees
  once : ∀ x ∈ own, frees.count x = own.count x

variable [LawfulBEq α]

theorem freesLive_iff : FreesLive live frees ↔ frees.Subperm live := by
  induction frees generalizing live with
  | nil => exact iff_of_true trivial List.nil_subperm
  | cons x frees ih =>
    rw [FreesLive, ih]
    constructor
    · rintro ⟨hx, hsub⟩
      exact ((List.subperm_cons x).mpr hsub).trans (List.perm_cons_erase hx).symm.subperm
    · intro hsub
      refine ⟨hsub.subset List.mem_cons_self, ?_⟩
      have herase := hsub.erase x
      rwa [List.erase_cons_head] at herase

/-- With nothing but what is kept and strays among the frees, they are exact if and only if no
more was allocated than is kept. -/
theorem freesExactly_iff (hkept : kept.Subperm own) (hlive : own.Subperm live)
    (hfrees : frees.Perm (strays ++ kept)) (hstray : ∀ x ∈ strays, x ∉ own)
    (hnone : own.length = kept.length → strays = []) :
    FreesExactly live own frees ↔ own.length = kept.length := by
  constructor
  · rintro ⟨-, honce⟩
    apply Nat.le_antisymm _ hkept.length_le
    apply List.Subperm.length_le
    rw [List.subperm_ext_iff]
    intro x hx
    have hcount : strays.count x = 0 := List.count_eq_zero.mpr fun hmem => hstray x hmem hx
    have hkeep : own.count x = kept.count x := by
      rw [← honce x hx, hfrees.count_eq, List.count_append, hcount, Nat.zero_add]
    exact Nat.le_of_eq hkeep
  · intro hlen
    have hperm : frees.Perm own := by
      rw [hnone hlen, List.nil_append] at hfrees
      exact hfrees.trans (hkept.perm_of_length_le (Nat.le_of_eq hlen))
    exact ⟨freesLive_iff.mpr (hperm.subperm.trans hlive), fun x _ => hperm.count_eq x⟩

end ledger

def modifyFirst (p : α → Bool) (f : α → α) : List α → List α
  | [] => []
  | x :: l => if p x then f x :: l else x :: modifyFirst p f l

variable {p : α → Bool} {f : α → α} {l : List α} {x y : α}

theorem map_modifyFirst {g : α → β} (hg : ∀ x, g (f x) = g x) : (modifyFirst p f l).map g = l.map g := by
  induction l with
  | nil => rfl
  | cons x l ih =>
    rw [modifyFirst]
    split_ifs
    · rw [List.map_cons, List.map_cons, hg]
    · rw [List.map_cons, List.map_cons, ih]

theorem mem_modifyFirst (h : y ∈ modifyFirst p f l) : y ∈ l ∨ ∃ x, l.find? p = some x ∧ y = f x := by
  induction l with
  | nil => exact Or.inl h
  | cons x l ih =>
    rw [modifyFirst] at h
    split_ifs at h with hp
    · rcases List.mem_cons.mp h with rfl | h
      · exact Or.inr ⟨x, List.find?_cons_of_pos hp, rfl⟩
      · exact Or.inl (List.mem_cons_of_mem x h)
    · rcases List.mem_cons.mp h with rfl | h
      · exact Or.inl List.mem_cons_self
      · rcases ih h with h | ⟨z, hz, rfl⟩
        · exact Or.inl (List.mem_cons_of_mem x h)
        · exact Or.inr ⟨z, by rw [List.find?_cons_of_neg hp, hz], rfl⟩

theorem flatMap_perm_erase {ι : Type*} [DecidableEq ι] {is : List ι} {i : ι} (hi : i ∈ is) (g : ι → List α) :
    (is.flatMap g).Perm (g i ++ (is.erase i).flatMap g) :=
  (List.perm_cons_erase hi).flatMap_right g

theorem flatMap_update_erase {ι : Type*} [DecidableEq ι] {is : List ι} (hnodup : is.Nodup) (g : ι → List α) (i : ι)
    (chain : List α) : (is.erase i).flatMap (Function.update g i chain) = (is.erase i).flatMap g := by
  apply List.flatMap_congr
  intro j hj
  have hne : j ≠ i := by
    rintro rfl
    exact hnodup.not_mem_erase hj
  rw [Function.update_of_ne hne]

end MySQLSyncer.Lib
