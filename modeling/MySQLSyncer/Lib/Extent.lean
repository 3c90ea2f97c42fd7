import Mathlib.Data.List.Pairwise
import Mathlib.Tactic
import Mathlib.Order.CompletePartialOrder

/-! # Address ranges

A range is its first address and its length. Ranges that are apart share no address;
a list of pairwise apart ranges stays so when one of them is cut in two.
-/
namespace MySQLSyncer.Lib

structure Extent where
  addr : ℕ
  len : ℕ
  deriving DecidableEq, Repr

namespace Extent

def Apart (x y : Extent) : Prop := x.addr + x.len ≤ y.addr ∨ y.addr + y.len ≤ x.addr

def Within (x y : Extent) : Prop := y.addr ≤ x.addr ∧ x.addr + x.len ≤ y.addr + y.len

instance (x y : Extent) : Decidable (x.Apart y) := inferInstanceAs (Decidable (_ ∨ _))

instance (x y : Extent) : Decidable (x.Within y) := inferInstanceAs (Decidable (_ ∧ _))

theorem Apart.symm {x y : Extent} (h : x.Apart y) : y.Apart x := Or.symm h

@[refl] theorem Within.refl (x : Extent) : x.Within x := ⟨le_rfl, le_rfl⟩

theorem Within.trans {x y z : Extent} (hxy : x.Within y) (hyz : y.Within z) : x.Within z :=
  ⟨hyz.1.trans hxy.1, hxy.2.trans hyz.2⟩

theorem Apart.mono {x y z : Extent} (h : y.Apart z) (hx : x.Within y) : x.Apart z := by
  obtain ⟨h1, h2⟩ := hx
  rcases h with h | h
  · exact Or.inl (by omega)
  · exact Or.inr (by omega)

theorem Apart.ne {x y : Extent} (h : x.Apart y) (hx : 0 < x.len) (hy : 0 < y.len) :
    x.addr ≠ y.addr := by
  rcases h with h | h <;> omega

def cells (x : Extent) : Set ℕ := Set.Ico x.addr (x.addr + x.len)

theorem Apart.disjoint {x y : Extent} (h : x.Apart y) : Disjoint x.cells y.cells := by
  rw [cells, cells, Set.Ico_disjoint_Ico]
  rcases h with h | h <;> omega

variable {l m : List Extent}

theorem pairwise_perm (h : l.Perm m) : l.Pairwise Apart ↔ m.Pairwise Apart :=
  h.pairwise_iff Apart.symm

theorem pairwise_cons_of_fresh {x : Extent} (hl : l.Pairwise Apart) (hx : ∀ y ∈ l, x.Apart y) :
    (x :: l).Pairwise Apart := List.pairwise_cons.mpr ⟨hx, hl⟩

theorem pairwise_split {x y z : Extent} (h : (x :: l).Pairwise Apart) (hy : y.Within x)
    (hz : z.Within x) (hyz : y.Apart z) : (y :: z :: l).Pairwise Apart := by
  obtain ⟨hx, hl⟩ := List.pairwise_cons.mp h
  refine List.pairwise_cons.mpr ⟨?_, List.pairwise_cons.mpr ⟨?_, hl⟩⟩
  · intro w hw
    rcases List.mem_cons.mp hw with rfl | hw
    · exact hyz
    · exact (hx w hw).mono hy
  · exact fun w hw => (hx w hw).mono hz

theorem pairwise_shrink {x y : Extent} (h : (x :: l).Pairwise Apart) (hy : y.Within x) :
    (y :: l).Pairwise Apart := by
  obtain ⟨hx, hl⟩ := List.pairwise_cons.mp h
  exact List.pairwise_cons.mpr ⟨fun w hw => (hx w hw).mono hy, hl⟩

end Extent

/-- Replacing one cell of a table leaves the others as they were. -/
theorem perm_set {α : Type*} {l : List α} {i : ℕ} {a : α} (h : l[i]? = some a) :
    ∃ r, l.Perm (a :: r) ∧ ∀ b, (l.set i b).Perm (b :: r) := by
  obtain ⟨hi, rfl⟩ := List.getElem?_eq_some_iff.mp h
  refine ⟨l.eraseIdx i, (List.getElem_cons_eraseIdx_perm hi).symm, fun b => ?_⟩
  have hib : i < (l.set i b).length := by simpa using hi
  simpa [List.eraseIdx_set_eq] using (List.getElem_cons_eraseIdx_perm hib).symm

end MySQLSyncer.Lib
