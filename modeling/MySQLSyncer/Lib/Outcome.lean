import Mathlib.Tactic

/-! # Computations that can fail

A computation has no meaning in the source language, ends with the error code, or is done with
a value. The first two end everything that follows.
-/
namespace MySQLSyncer.Lib

inductive Outcome (α : Type) where
  | undefined
  | failed
  | done (a : α)
  deriving DecidableEq, Repr

namespace Outcome

variable {α β : Type}

def bind (x : Outcome α) (f : α → Outcome β) : Outcome β :=
  match x with
  | .undefined => .undefined
  | .failed => .failed
  | .done a => f a

instance : Monad Outcome where
  pure := .done
  bind := bind

def defined : Option α → Outcome α
  | none => .undefined
  | some a => .done a

def checked (ok : Bool) : Outcome Unit := if ok then .done () else .failed

@[simp] theorem done_bind (a : α) (f : α → Outcome β) : (done a >>= f) = f a := rfl

@[simp] theorem failed_bind (f : α → Outcome β) : (failed >>= f) = failed := rfl

@[simp] theorem undefined_bind (f : α → Outcome β) : (undefined >>= f) = undefined := rfl

@[simp] theorem defined_some (a : α) : defined (some a) = done a := rfl

@[simp] theorem defined_none : defined (none : Option α) = undefined := rfl

@[simp] theorem checked_true : checked true = done () := rfl

theorem bind_eq_done {x : Outcome α} {f : α → Outcome β} {b : β} :
    (x >>= f) = done b ↔ ∃ a, x = done a ∧ f a = done b := by
  cases x <;> simp

theorem bind_eq_failed {x : Outcome α} {f : α → Outcome β} :
    (x >>= f) = failed ↔ x = failed ∨ ∃ a, x = done a ∧ f a = failed := by
  cases x <;> simp

/-- What follows a value that has to be defined can fail only behind the value. -/
theorem defined_bind_eq_failed {x : Option α} {f : α → Outcome β} :
    (defined x >>= f) = failed ↔ ∃ a, x = some a ∧ f a = failed := by
  cases x <;> simp

theorem defined_eq_done {x : Option α} {a : α} : defined x = done a ↔ x = some a := by
  cases x <;> simp

theorem checked_eq_done {ok : Bool} {u : Unit} : checked ok = done u ↔ ok = true := by
  cases ok <;> simp [checked]

end Outcome

end MySQLSyncer.Lib
