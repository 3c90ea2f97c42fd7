import MySQLSyncer.Lib.Transition

/-! # A bounded queue with its history -/
namespace MySQLSyncer.Lib

variable {α : Type*}

structure Queue (α : Type*) where
  items : List α
  produced : List α
  taken : List α

def Queue.new : Queue α := ⟨[], [], []⟩

inductive QueueStep (α : Type*) where
  | push (a : α)
  | pop

def queueStep (n : ℕ) (q : Queue α) : QueueStep α → Option (Queue α)
  | .push a => if q.items.length < n then
      some ⟨q.items ++ [a], q.produced ++ [a], q.taken⟩ else none
  | .pop => match q.items with
    | [] => none
    | a :: rest => some ⟨rest, q.produced, q.taken ++ [a]⟩

def Queue.Ordered (n : ℕ) (q : Queue α) : Prop :=
  q.taken ++ q.items = q.produced ∧ q.items.length ≤ n

theorem Queue.Ordered.step {n : ℕ} {q r : Queue α} {a : QueueStep α} (h : q.Ordered n)
    (hs : queueStep n q a = some r) : r.Ordered n := by
  obtain ⟨hord, hlen⟩ := h
  cases a with
  | push a =>
    unfold queueStep at hs
    split_ifs at hs with hlt
    obtain rfl := Option.some.inj hs
    refine ⟨by rw [← hord, List.append_assoc], ?_⟩
    rw [List.length_append]
    exact hlt
  | pop =>
    cases hq : q.items with
    | nil => simp [queueStep, hq] at hs
    | cons a rest =>
      simp only [queueStep, hq, Option.some.injEq] at hs
      subst hs
      rw [hq] at hord hlen
      exact ⟨by simpa using hord, Nat.le_of_succ_le hlen⟩

theorem Queue.ordered_of_run {n : ℕ} {q : Queue α} {as : List (QueueStep α)}
    (hrun : exec (queueStep n) Queue.new as = some q) : q.Ordered n := by
  have hnew : (Queue.new : Queue α).Ordered n := ⟨rfl, Nat.zero_le n⟩
  exact exec_invariant (fun _ _ _ h hs => h.step hs) hnew hrun

end MySQLSyncer.Lib
