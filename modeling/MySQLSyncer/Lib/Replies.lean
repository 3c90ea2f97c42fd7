import Mathlib.Data.List.Forall2
import Mathlib.Data.Option.Basic

/-! # Calls that reply

A call on a state gives a reply and the next state, or is undefined. Two systems behave alike
when each call of the one is matched by a call of the other with the same reply.
-/
namespace MySQLSyncer.Lib

section rel
variable {α β γ δ : Type*} {r : α → β → Prop} {q : γ → δ → Prop} {x : Option α} {y : Option β}

theorem rel_bind {f : α → Option γ} {g : β → Option δ} (h : Option.Rel r x y)
    (hf : ∀ a b, r a b → Option.Rel q (f a) (g b)) : Option.Rel q (x.bind f) (y.bind g) := by
  cases h with
  | none => exact .none
  | some h => exact hf _ _ h

theorem rel_map {f : α → γ} {g : β → δ} (h : Option.Rel r x y) (hf : ∀ a b, r a b → q (f a) (g b)) :
    Option.Rel q (x.map f) (y.map g) := by
  cases h with
  | none => exact .none
  | some h => exact .some (hf _ _ h)

theorem rel_eq_none (h : Option.Rel r x y) (hx : x = none) : y = none := by
  subst hx
  generalize hn : (none : Option α) = x at h
  cases h with
  | none => rfl
  | some _ => cases hn

theorem eq_of_rel {x y : Option α} (h : Option.Rel Eq x y) : x = y := by
  cases h with
  | none => rfl
  | some h => rw [h]

theorem rel_getElem? {l : List α} {m : List β} (h : List.Forall₂ r l m) (i : ℕ) :
    Option.Rel r l[i]? m[i]? := by
  induction h generalizing i with
  | nil => exact .none
  | cons hab _ ih =>
    cases i with
    | zero => exact .some hab
    | succ i => simpa using ih i

theorem forall₂_set {l : List α} {m : List β} {a : α} {b : β} (h : List.Forall₂ r l m) (hab : r a b)
    (i : ℕ) : List.Forall₂ r (l.set i a) (m.set i b) := by
  induction h generalizing i with
  | nil => exact .nil
  | cons hcd hrest ih =>
    cases i with
    | zero => exact .cons hab hrest
    | succ i => exact .cons hcd (ih i)

end rel

variable {σ τ α β : Type*} {call : σ → α → Option (β × σ)} {call' : τ → α → Option (β × τ)}

def replies (call : σ → α → Option (β × σ)) : σ → List α → Option (List β × σ)
  | s, [] => some ([], s)
  | s, a :: as => (call s a).bind fun x => (replies call x.2 as).map fun y => (x.1 :: y.1, y.2)

def Agree {γ : Type*} (R : σ → τ → Prop) (x : γ × σ) (y : γ × τ) : Prop := x.1 = y.1 ∧ R x.2 y.2

/-- Calls that are matched one by one are matched as a list. -/
theorem replies_agree {R : σ → τ → Prop} {like : α → α → Prop} (hlike : ∀ a, like a a)
    (hR : ∀ s t a, R s t → ∃ b, like a b ∧ Option.Rel (Agree R) (call s a) (call' t b))
    {s : σ} {t : τ} (as : List α) (h : R s t) :
    ∃ bs, List.Forall₂ like as bs ∧ Option.Rel (Agree R) (replies call s as) (replies call' t bs) := by
  induction as generalizing s t with
  | nil => exact ⟨[], .nil, .some ⟨rfl, h⟩⟩
  | cons a as ih =>
    obtain ⟨b, hab, hcall⟩ := hR s t a h
    -- the later calls of the second system depend on the state that the first call leaves
    cases hx : call s a with
    | none =>
      refine ⟨b :: as, .cons hab (List.forall₂_same.mpr fun a _ => hlike a), ?_⟩
      simp only [replies, hx, rel_eq_none hcall hx, Option.bind_none]
      exact .none
    | some x =>
      rw [hx] at hcall
      generalize hy : call' t b = y at hcall
      cases hcall with
      | some hxy =>
        obtain ⟨bs, hbs, hrest⟩ := ih hxy.2
        refine ⟨b :: bs, .cons hab hbs, ?_⟩
        simp only [replies, hx, hy, Option.bind_some]
        exact rel_map hrest fun u v huv => ⟨congrArg₂ List.cons hxy.1 huv.1, huv.2⟩

end MySQLSyncer.Lib
