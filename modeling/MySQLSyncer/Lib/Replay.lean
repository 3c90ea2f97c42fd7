import Mathlib.Data.List.Basic
import Mathlib.Logic.Function.Basic
import Mathlib.Order.Nat
import Mathlib.Data.Set.Insert
import Mathlib.Tactic.Tauto

/-! # A log that is delivered again

A delivery that breaks off begins again further back. Every entry then still comes behind all that
the log has before it. Where the entries are assignments and the last one of a key counts, the store
comes out as if the log had been run once.
-/
namespace MySQLSyncer.Lib

section delivery
variable {α π : Type*}

/-- How a log is delivered. A message is an entry of the log or none; behind it stands a position,
from which the delivery may begin again. `serves p j` says that it then goes on with the `j`-th
entry. -/
structure Delivery (α π : Type*) where
  log : List α
  entry : α → Bool
  position : α → Option π
  serves : π → ℕ → Prop

/-- The number of entries before the next message, when `j` are before this one. -/
def Delivery.next (d : Delivery α π) (j : ℕ) (m : α) : ℕ := if d.entry m then j + 1 else j

/-- The message may come when the first `j` entries did. -/
structure Delivery.At (d : Delivery α π) (j : ℕ) (m : α) : Prop where
  entry : d.entry m → d.log[j]? = some m
  position : ∀ p, d.position m = some p → d.serves p (d.next j m)

/-- The messages go on with the `j`-th entry. -/
def Delivery.Follows (d : Delivery α π) : ℕ → List α → Prop
  | _, [] => True
  | j, m :: l => d.At j m ∧ d.Follows (d.next j m) l

/-- What a delivery from a position brings goes on from there. -/
def Delivery.Right (d : Delivery α π) (resume : π → List α) : Prop :=
  ∀ p j, d.serves p j → d.Follows j (resume p)

/-- Each message comes behind all the entries that the log has before it; those in `C` came before. -/
def Delivery.InTurn (d : Delivery α π) : Set α → List α → Prop
  | _, [] => True
  | C, m :: l => (∃ j, d.At j m ∧ ∀ a ∈ d.log.take j, a ∈ C) ∧ d.InTurn (insert m C) l

variable {d : Delivery α π} {l l' : List α} {C D : Set α} {m : α} {j : ℕ}

theorem Delivery.follows_append : d.Follows j (l ++ l') ↔ d.Follows j l ∧ d.Follows (l.foldl d.next j) l' := by
  induction l generalizing j with
  | nil => exact ⟨fun h => ⟨trivial, h⟩, And.right⟩
  | cons m l ih => rw [List.cons_append, Follows, ih, Follows, List.foldl_cons, and_assoc]

theorem Delivery.InTurn.mono (h : d.InTurn C l) (hCD : C ⊆ D) : d.InTurn D l := by
  induction l generalizing C D with
  | nil => trivial
  | cons m l ih =>
    obtain ⟨⟨j, hm, hbefore⟩, hrest⟩ := h
    exact ⟨⟨j, hm, fun a ha => hCD (hbefore a ha)⟩, ih hrest (Set.insert_subset_insert hCD)⟩

theorem Delivery.inTurn_append :
    d.InTurn C (l ++ l') ↔ d.InTurn C l ∧ d.InTurn (C ∪ {a | a ∈ l}) l' := by
  induction l generalizing C with
  | nil =>
    have hset : C ∪ {a | a ∈ ([] : List α)} = C := by simp
    rw [List.nil_append, hset]
    exact ⟨fun h => ⟨trivial, h⟩, And.right⟩
  | cons m l ih =>
    have hset : insert m C ∪ {a | a ∈ l} = C ∪ {a | a ∈ m :: l} := by
      ext a
      simp only [Set.mem_union, Set.mem_insert_iff, Set.mem_ofPred_eq, List.mem_cons]
      tauto
    rw [List.cons_append, InTurn, ih, hset, InTurn, and_assoc]

theorem Delivery.At.take_next (h : d.At j m) (hC : ∀ a ∈ d.log.take j, a ∈ C) :
    ∀ a ∈ d.log.take (d.next j m), a ∈ insert m C := by
  intro a ha
  rw [next] at ha
  split_ifs at ha with hm
  · rw [List.take_add_one, h.entry hm] at ha
    rcases List.mem_append.mp ha with ha | ha
    · exact Set.mem_insert_of_mem m (hC a ha)
    · rw [List.mem_singleton.mp ha]
      exact Set.mem_insert m C
  · exact Set.mem_insert_of_mem m (hC a ha)

/-- What goes on with the `j`-th entry comes in turn when the first `j` came before. -/
theorem Delivery.Follows.inTurn (h : d.Follows j l) (hC : ∀ a ∈ d.log.take j, a ∈ C) : d.InTurn C l := by
  induction l generalizing j C with
  | nil => trivial
  | cons m l ih => exact ⟨⟨j, h.1, hC⟩, ih h.2 (h.1.take_next hC)⟩

end delivery

variable {κ ν : Type*} [DecidableEq κ]

def assignAll (s : κ → Option ν) (l : List (κ × ν)) : κ → Option ν :=
  l.foldl (fun s a => Function.update s a.1 (some a.2)) s

variable {s r s₀ : κ → Option ν} {l log : List (κ × ν)} {a : κ × ν} {k : κ} {b c d far : ℕ}

@[simp] theorem assignAll_nil (s : κ → Option ν) : assignAll s [] = s := rfl

@[simp] theorem assignAll_cons (s : κ → Option ν) (a : κ × ν) (l : List (κ × ν)) :
    assignAll s (a :: l) = assignAll (Function.update s a.1 (some a.2)) l := rfl

theorem assignAll_append (s : κ → Option ν) (l l' : List (κ × ν)) :
    assignAll s (l ++ l') = assignAll (assignAll s l) l' :=
  List.foldl_append

theorem assignAll_of_notMem (h : k ∉ l.map Prod.fst) (s : κ → Option ν) : assignAll s l k = s k := by
  induction l generalizing s with
  | nil => rfl
  | cons a l ih =>
    rw [List.map_cons, List.mem_cons, not_or] at h
    rw [assignAll_cons, ih h.2, Function.update_of_ne h.1]

/-- What the store had under a key that is assigned is forgotten. -/
theorem assignAll_of_mem (h : k ∈ l.map Prod.fst) (s r : κ → Option ν) :
    assignAll s l k = assignAll r l k := by
  induction l generalizing s r with
  | nil => exact absurd h List.not_mem_nil
  | cons a l ih =>
    rw [assignAll_cons, assignAll_cons]
    by_cases hl : k ∈ l.map Prod.fst
    · exact ih hl _ _
    · obtain rfl := (List.mem_cons.mp h).resolve_right hl
      rw [assignAll_of_notMem hl, assignAll_of_notMem hl, Function.update_self, Function.update_self]

/-- The log has been run up to `c`, and at most up to `far` at any time. Run on from here to any
place from `far` on, it gives the store that it gives when it is run once. -/
structure Replayed (s₀ : κ → Option ν) (log : List (κ × ν)) (c far : ℕ) (s : κ → Option ν) : Prop where
  le : c ≤ far
  catchesUp : ∀ d, far ≤ d → assignAll s ((log.take d).drop c) = assignAll s₀ (log.take d)

theorem Replayed.start (s₀ : κ → Option ν) (log : List (κ × ν)) : Replayed s₀ log 0 0 s₀ :=
  ⟨le_rfl, fun _ _ => rfl⟩

theorem Replayed.run (h : Replayed s₀ log c far s) (ha : log[c]? = some a) :
    Replayed s₀ log (c + 1) (max far (c + 1)) (Function.update s a.1 (some a.2)) where
  le := le_max_right _ _
  catchesUp := fun d hd => by
    obtain ⟨hfar, hc⟩ := Nat.max_le.mp hd
    obtain ⟨hlt, hget⟩ := List.getElem?_eq_some_iff.mp ha
    have hlt' : c < (log.take d).length := by
      rw [List.length_take]
      omega
    rw [← h.catchesUp d hfar, List.drop_eq_getElem_cons hlt', List.getElem_take, hget, assignAll_cons]

theorem Replayed.back (h : Replayed s₀ log c far s) (hb : b ≤ c) : Replayed s₀ log b far s where
  le := hb.trans h.le
  catchesUp := fun d hd => by
    funext k
    by_cases hk : k ∈ ((log.take d).drop b).map Prod.fst
    · have hwhole : k ∈ ((log.take d).map Prod.fst) := by
        rw [List.map_drop] at hk
        exact List.mem_of_mem_drop hk
      have hsplit := congrFun (assignAll_append s₀ ((log.take d).take b) ((log.take d).drop b)) k
      rw [List.take_append_drop] at hsplit
      rw [hsplit]
      exact assignAll_of_mem hk _ _
    · have hlater : k ∉ ((log.take d).drop c).map Prod.fst := fun hmem => hk (by
        have hcb : c = b + (c - b) := by omega
        rw [hcb, ← List.drop_drop, List.map_drop] at hmem
        exact List.mem_of_mem_drop hmem)
      rw [assignAll_of_notMem hk, ← h.catchesUp d hd, assignAll_of_notMem hlater]

/-- When nothing was ever run behind this place, the store is that of one run. -/
theorem Replayed.eq (h : Replayed s₀ log c far s) (hfar : far ≤ c) : s = assignAll s₀ (log.take c) := by
  have hcatch := h.catchesUp c hfar
  rwa [List.drop_of_length_le (List.length_take_le c log), assignAll_nil] at hcatch

end MySQLSyncer.Lib
