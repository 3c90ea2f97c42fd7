import Mathlib.Data.List.Basic

/-! # Executable labelled runs and the invariant rule

A system is a partial step function. A run is a finite list of labels; a label
that is not enabled makes the run undefined, so a statement about every defined
run is a statement about every interleaving of enabled steps.
-/
namespace MySQLSyncer.Lib
universe u v w

variable {σ : Type u} {α : Type v} {β : Type w}

def exec (step : σ → α → Option σ) : σ → List α → Option σ
  | s, [] => some s
  | s, a :: as => (step s a).bind fun t => exec step t as

/-- Every step that the run takes meets the condition in the state before it. -/
def Along (step : σ → α → Option σ) (ok : σ → α → Prop) : σ → List α → Prop
  | _, [] => True
  | s, a :: as => ok s a ∧ ∀ t, step s a = some t → Along step ok t as

variable {step : σ → α → Option σ} {ok : σ → α → Prop} {I : σ → Prop}

instance [∀ s a, Decidable (ok s a)] : ∀ s as, Decidable (Along step ok s as)
  | _, [] => isTrue trivial
  | s, a :: as =>
    match h : step s a with
    | none => decidable_of_iff (ok s a) (by simp [Along, h])
    | some t =>
      have : Decidable (Along step ok t as) := instDecidableAlong t as
      decidable_of_iff (ok s a ∧ Along step ok t as) (by simp [Along, h])

@[simp] theorem exec_nil (s : σ) : exec step s [] = some s := rfl

@[simp] theorem exec_cons (s : σ) (a : α) (as : List α) :
    exec step s (a :: as) = (step s a).bind fun t => exec step t as := rfl

theorem exec_append (s : σ) (as bs : List α) :
    exec step s (as ++ bs) = (exec step s as).bind fun t => exec step t bs := by
  induction as generalizing s with
  | nil => rfl
  | cons a as ih =>
    rw [List.cons_append, exec_cons, exec_cons, Option.bind_assoc]
    congr 1
    funext t
    exact ih t

theorem exec_append_eq_some {s u : σ} {as bs : List α} :
    exec step s (as ++ bs) = some u ↔
      ∃ t, exec step s as = some t ∧ exec step t bs = some u := by
  rw [exec_append, Option.bind_eq_some_iff]

/-- A condition-preserving step relation gives an invariant of every conditioned run. -/
theorem exec_invariant_along (ok : σ → α → Prop) (hI : ∀ s a t, I s → ok s a → step s a = some t → I t)
    {s t : σ} {as : List α} (hs : I s) (hok : Along step ok s as)
    (hrun : exec step s as = some t) : I t := by
  induction as generalizing s with
  | nil =>
    obtain rfl : s = t := Option.some.inj hrun
    exact hs
  | cons a as ih =>
    obtain ⟨m, hm, hrest⟩ := Option.bind_eq_some_iff.mp hrun
    exact ih (hI s a m hs hok.1 hm) (hok.2 m hm) hrest

theorem along_of_mem {as : List α} (h : ∀ a ∈ as, ∀ s, ok s a) (s : σ) : Along step ok s as := by
  induction as generalizing s with
  | nil => trivial
  | cons a as ih =>
    exact ⟨h a List.mem_cons_self s, fun t _ => ih (fun b hb => h b (List.mem_cons_of_mem a hb)) t⟩

theorem along_of_forall (h : ∀ s a, ok s a) (s : σ) (as : List α) : Along step ok s as :=
  along_of_mem (fun a _ s => h s a) s

/-- What every step preserves holds at the end of every run. -/
theorem exec_invariant (hI : ∀ s a t, I s → step s a = some t → I t)
    {s t : σ} {as : List α} (hs : I s) (hrun : exec step s as = some t) : I t :=
  exec_invariant_along (fun _ _ => True) (fun s a t h _ => hI s a t h) hs
    (along_of_forall (fun _ _ => trivial) s as) hrun

theorem along_cons {s m : σ} {a : α} {as : List α} (hm : step s a = some m) :
    Along step ok s (a :: as) ↔ ok s a ∧ Along step ok m as := by
  simp [Along, hm]

theorem along_append {s : σ} {as bs : List α} : Along step ok s (as ++ bs) ↔
    Along step ok s as ∧ ∀ t, exec step s as = some t → Along step ok t bs := by
  induction as generalizing s with
  | nil => simp [Along]
  | cons a as ih =>
    simp only [List.cons_append, Along, ih, exec_cons, Option.bind_eq_some_iff]
    grind

theorem along_and {ok' : σ → α → Prop} {s : σ} {as : List α} :
    Along step (fun s a => ok s a ∧ ok' s a) s as ↔ Along step ok s as ∧ Along step ok' s as := by
  induction as generalizing s with
  | nil => simp [Along]
  | cons a as ih =>
    simp only [Along, ih]
    grind

theorem exec_of_along (h : ∀ s a, ok s a → ∃ t, step s a = some t) {s : σ} {as : List α}
    (hok : Along step ok s as) : ∃ t, exec step s as = some t := by
  induction as generalizing s with
  | nil => exact ⟨s, rfl⟩
  | cons a as ih =>
    obtain ⟨m, hm⟩ := h s a hok.1
    obtain ⟨t, ht⟩ := ih (hok.2 m hm)
    exact ⟨t, by rw [exec_cons, hm, Option.bind_some, ht]⟩

theorem Along.imp {ok' : σ → α → Prop} (h : ∀ s a, ok s a → ok' s a) {s : σ} {as : List α}
    (hok : Along step ok s as) : Along step ok' s as := by
  induction as generalizing s with
  | nil => trivial
  | cons a as ih => exact ⟨h s a hok.1, fun t ht => ih (hok.2 t ht)⟩

/-- Two conditions that agree wherever one of them leads agree along every run. -/
theorem along_iff_of_inv_along {ok' : σ → α → Prop}
    (hI : ∀ s a t, I s → ok' s a → step s a = some t → I t) (h : ∀ s a, I s → (ok s a ↔ ok' s a))
    {s : σ} {as : List α} (hs : I s) : Along step ok s as ↔ Along step ok' s as := by
  induction as generalizing s with
  | nil => exact Iff.rfl
  | cons a as ih =>
    exact (and_congr_left' (h s a hs)).trans (and_congr_right fun hok =>
      forall_congr' fun t => imp_congr_right fun ht => ih (hI s a t hs hok ht))

/-- Two conditions that agree in every reachable state agree along every run. -/
theorem along_iff_of_inv {ok' : σ → α → Prop} (hI : ∀ s a t, I s → step s a = some t → I t)
    (h : ∀ s a, I s → (ok s a ↔ ok' s a)) {s : σ} {as : List α} (hs : I s) :
    Along step ok s as ↔ Along step ok' s as :=
  along_iff_of_inv_along (fun s a t hIs _ ht => hI s a t hIs ht) h hs

/-- Two conditions agree along a run when they agree in every state of it; `I` is carried from
its start and `J` back from its end. -/
theorem along_congr {ok' : σ → α → Prop} {J : σ → Prop}
    (hI : ∀ s a t, I s → step s a = some t → I t) (hJ : ∀ s a t, J t → step s a = some t → J s)
    (h : ∀ s a t, I s → J s → step s a = some t → (ok s a ↔ ok' s a)) {s t : σ} {as : List α}
    (hs : I s) (hrun : exec step s as = some t) (ht : J t) :
    J s ∧ (Along step ok s as ↔ Along step ok' s as) := by
  induction as generalizing s with
  | nil =>
    obtain rfl : s = t := Option.some.inj hrun
    exact ⟨ht, Iff.rfl⟩
  | cons a as ih =>
    obtain ⟨m, hm, hrest⟩ := Option.bind_eq_some_iff.mp hrun
    obtain ⟨hJm, hiff⟩ := ih (hI s a m hs hm) hrest
    have hJs := hJ s a m hJm hm
    refine ⟨hJs, ?_⟩
    rw [along_cons hm, along_cons hm, h s a m hs hJs hm, hiff]

/-- When a step meets the condition exactly if it keeps the property, a run meets the condition
at every step exactly if every state of it has the property. -/
theorem along_iff_states {P : σ → Prop} (hP : ∀ s, I s → P s)
    (hI : ∀ s a t, I s → step s a = some t → ok s a → I t)
    (h : ∀ s a t, I s → step s a = some t → (ok s a ↔ P t)) {s t : σ} {as : List α} (hs : I s)
    (hrun : exec step s as = some t) :
    (∀ k u, exec step s (as.take k) = some u → P u) ↔ Along step ok s as := by
  induction as generalizing s with
  | nil =>
    refine ⟨fun _ => trivial, fun _ k u hu => ?_⟩
    rw [List.take_nil] at hu
    obtain rfl : s = u := Option.some.inj hu
    exact hP s hs
  | cons a as ih =>
    obtain ⟨m, hm, hrest⟩ := Option.bind_eq_some_iff.mp hrun
    have hm' (k : ℕ) : exec step s ((a :: as).take (k + 1)) = exec step m (as.take k) := by
      rw [List.take_succ_cons, exec_cons, hm]
      rfl
    rw [along_cons hm]
    constructor
    · intro hall
      have hok : ok s a := (h s a m hs hm).mpr (hall 1 m (hm' 0))
      refine ⟨hok, (ih (hI s a m hs hm hok) hrest).mp fun k u hu => ?_⟩
      exact hall (k + 1) u ((hm' k).trans hu)
    · rintro ⟨hok, hlater⟩ k u hu
      cases k with
      | zero =>
        obtain rfl : s = u := Option.some.inj hu
        exact hP s hs
      | succ k =>
        rw [hm'] at hu
        exact (ih (hI s a m hs hm hok) hrest).mpr hlater k u hu

/-- A rank that every step of one kind lowers and no step raises bounds the steps of this kind
before the goal `G`, which is kept. -/
theorem exec_ranked {G : σ → Prop} {may : α → Prop} {own : α → Bool} {rank : σ → ℕ}
    (hG : ∀ s a t, G s → step s a = some t → G t)
    (hI : ∀ s a t, I s → may a → step s a = some t →
      G t ∨ I t ∧ rank t + (if own a then 1 else 0) ≤ rank s)
    {s t : σ} {as : List α} (hs : I s) (hmay : ∀ a ∈ as, may a) (hrun : exec step s as = some t) :
    G t ∨ I t ∧ rank t + as.countP own ≤ rank s := by
  induction as generalizing s with
  | nil =>
    obtain rfl : s = t := Option.some.inj hrun
    exact Or.inr ⟨hs, Nat.le_refl _⟩
  | cons a as ih =>
    obtain ⟨m, hm, hrest⟩ := Option.bind_eq_some_iff.mp hrun
    rcases hI s a m hs (hmay a List.mem_cons_self) hm with hgoal | ⟨hIm, hrank⟩
    · exact Or.inl (exec_invariant hG hgoal hrest)
    · rcases ih hIm (fun b hb => hmay b (List.mem_cons_of_mem a hb)) hrest with hgoal | ⟨hIt, hlater⟩
      · exact Or.inl hgoal
      · refine Or.inr ⟨hIt, ?_⟩
        rw [List.countP_cons]
        omega

/-- Forward simulation: each concrete step that meets the condition is matched by a run of the
abstract system. -/
theorem exec_simulates_along {τ : Type*} {astep : τ → β → Option τ} {R : σ → τ → Prop}
    (hR : ∀ s a t c, R s c → ok s a → step s a = some t → ∃ bs d, exec astep c bs = some d ∧ R t d)
    {s t : σ} {c : τ} {as : List α} (hs : R s c) (hok : Along step ok s as)
    (hrun : exec step s as = some t) : ∃ bs d, exec astep c bs = some d ∧ R t d := by
  induction as generalizing s c with
  | nil =>
    obtain rfl : s = t := Option.some.inj hrun
    exact ⟨[], c, rfl, hs⟩
  | cons a as ih =>
    obtain ⟨m, hm, hrest⟩ := Option.bind_eq_some_iff.mp hrun
    obtain ⟨bs, d, hbs, hd⟩ := hR s a m c hs hok.1 hm
    obtain ⟨cs, e, hcs, he⟩ := ih hd (hok.2 m hm) hrest
    exact ⟨bs ++ cs, e, exec_append_eq_some.mpr ⟨d, hbs, hcs⟩, he⟩

/-- Forward simulation: each concrete step is matched by a run of the abstract system. -/
theorem exec_simulates {τ : Type*} {astep : τ → β → Option τ} {R : σ → τ → Prop}
    (hR : ∀ s a t c, R s c → step s a = some t → ∃ bs d, exec astep c bs = some d ∧ R t d)
    {s t : σ} {c : τ} {as : List α} (hs : R s c) (hrun : exec step s as = some t) :
    ∃ bs d, exec astep c bs = some d ∧ R t d :=
  exec_simulates_along (fun s a t c h _ => hR s a t c h) hs
    (along_of_forall (fun _ _ => trivial) s as) hrun

end MySQLSyncer.Lib
