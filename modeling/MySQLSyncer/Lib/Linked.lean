import Mathlib.Data.List.Basic

/-! # Lists threaded through their own cells -/
namespace MySQLSyncer.Lib
universe u

variable {α : Type u} {next next' : α → Option α}

/-- From `head` the links run through the cells of the list, in order, to the null pointer. -/
def Linked (next : α → Option α) : Option α → List α → Prop
  | none, [] => True
  | some a, b :: l => a = b ∧ Linked next (next b) l
  | _, _ => False

theorem linked_none_iff {l : List α} : Linked next none l ↔ l = [] := by
  cases l <;> simp [Linked]

theorem linked_some_iff {a : α} {l : List α} :
    Linked next (some a) l ↔ ∃ l', l = a :: l' ∧ Linked next (next a) l' := by
  cases l with
  | nil => simp [Linked]
  | cons b l =>
    constructor
    · rintro ⟨rfl, h⟩
      exact ⟨l, rfl, h⟩
    · rintro ⟨l', hl, h⟩
      obtain ⟨rfl, rfl⟩ := List.cons.inj hl
      exact ⟨rfl, h⟩

theorem Linked.congr {head : Option α} {l : List α} (h : Linked next head l)
    (heq : ∀ a ∈ l, next' a = next a) : Linked next' head l := by
  induction l generalizing head with
  | nil =>
    cases head with
    | none => trivial
    | some a => exact h.elim
  | cons b l ih =>
    cases head with
    | none => exact h.elim
    | some a =>
      obtain ⟨rfl, hrest⟩ := h
      refine ⟨rfl, ?_⟩
      rw [heq a List.mem_cons_self]
      exact ih hrest fun c hc => heq c (List.mem_cons_of_mem a hc)

end MySQLSyncer.Lib
