import MySQLSyncer.Lib.Transition
import MySQLSyncer.Master.RowFilter

/-! # The places that a session publishes

A session that is started at a place publishes further places, and at each of them another session
may be started. The places matter only through the symbols around them.
-/
namespace MySQLSyncer.Master
open Lib

def Flags.after (f : Flags) (as : List Sym) : Flags := as.foldl Flags.step f

/-- At the `k`-th place a fresh session forwards what the first session forwards behind it, and
meets a table map before it needs one. -/
structure SafeAt (as : List Sym) (k : ℕ) : Prop where
  trace : (Flags.cold.after (as.take k)).trace (as.drop k) = Flags.cold.trace (as.drop k)
  maps : NoRowsBeforeMap (as.drop k)

/-- A session started at the `k`-th place may publish the place `n` symbols further: behind a row
event that it forwards, and outside a transaction while its filter is open. -/
structure PublishesAt (as : List Sym) (k n : ℕ) : Prop where
  pos : 0 < n
  le : k + n ≤ as.length
  filter : (Flags.cold.after ((as.drop k).take n)).filter = false
  tran : (Flags.cold.after ((as.drop k).take n)).tran = false ∨ as[k + n - 1]? = some .rows

/-- A session is started at the beginning, or at a place that a session published. -/
inductive StartsAt (as : List Sym) : ℕ → Prop
  | first : StartsAt as 0
  | published {k n : ℕ} (hstart : StartsAt as k) (hpub : PublishesAt as k n) : StartsAt as (k + n)

/-- Every place that any session publishes is safe. -/
def Closed (as : List Sym) : Prop := ∀ k, StartsAt as k → k ≠ 0 → SafeAt as k

/-- Where in a transaction a place is: outside, before the table map, behind it, or behind the row
event. -/
inductive TranPhase where
  | outside
  | begun
  | mapped (listed : Bool)
  | written
  deriving DecidableEq

def TranPhase.next : TranPhase → Sym → Option TranPhase
  | q, .other => some q
  | _, .tran false => some .outside
  | .outside, .tran true => some .begun
  | .begun, .tableMap listed => some (.mapped listed)
  | .mapped _, .rows => some .written
  | _, _ => none

/-- Every transaction has at most one table map, with at most one row event behind it. -/
def OneStatement (as : List Sym) : Prop := (exec TranPhase.next .outside as).isSome

instance : DecidablePred OneStatement := fun _ => inferInstanceAs (Decidable (_ = true))

variable {q q' : TranPhase} {as : List Sym} {a : Sym} {f g : Flags} {k : ℕ}

theorem TranPhase.next_rows (h : q.next .rows = some q') : (∃ listed, q = .mapped listed) ∧ q' = .written := by
  cases q with
  | mapped listed => exact ⟨⟨listed, rfl⟩, (Option.some.inj h).symm⟩
  | _ => cases h

theorem TranPhase.next_other (h : q.next .other = some q') : q' = q := by
  cases q <;> exact (Option.some.inj h).symm

theorem TranPhase.next_end (h : q.next (.tran false) = some q') : q' = .outside := by
  cases q <;> exact (Option.some.inj h).symm

def TranPhase.Same (f g : Flags) : TranPhase → Prop
  | .outside => f.tran = false ∧ g.tran = false
  | .begun => f.tran = true ∧ g.tran = true
  | .mapped listed => f = ⟨!listed, true⟩ ∧ g = ⟨!listed, true⟩
  | .written => True

theorem TranPhase.Same.step (h : q.Same f g) (hq : q.next a = some q') : q'.Same (f.step a) (g.step a) := by
  cases a with
  | other =>
    obtain rfl := next_other hq
    exact h
  | rows =>
    obtain ⟨-, rfl⟩ := next_rows hq
    trivial
  | tran b =>
    cases b with
    | false =>
      obtain rfl := next_end hq
      exact ⟨rfl, rfl⟩
    | true =>
      cases q with
      | outside =>
        obtain rfl : TranPhase.begun = q' := Option.some.inj hq
        exact ⟨rfl, rfl⟩
      | _ => cases hq
  | tableMap listed =>
    cases q with
    | begun =>
      obtain rfl : TranPhase.mapped listed = q' := Option.some.inj hq
      obtain ⟨hf, hg⟩ := h
      exact ⟨by rw [Flags.step, hf], by rw [Flags.step, hg]⟩
    | _ => cases hq

theorem TranPhase.Same.after (h : q.Same f g) (hrun : exec TranPhase.next q as = some q') :
    q'.Same (f.after as) (g.after as) := by
  induction as generalizing q f g with
  | nil =>
    obtain rfl := Option.some.inj hrun
    exact h
  | cons a as ih =>
    obtain ⟨r, hr, hrest⟩ := Option.bind_eq_some_iff.mp hrun
    exact ih (h.step hr) hrest

theorem TranPhase.Same.trace (h : q.Same f g) (hrun : exec TranPhase.next q as = some q') :
    f.trace as = g.trace as := by
  induction as generalizing q f g with
  | nil => rfl
  | cons a as ih =>
    obtain ⟨r, hr, hrest⟩ := Option.bind_eq_some_iff.mp hrun
    have hhead : (a = .rows && !f.filter) = (a = .rows && !g.filter) := by
      by_cases ha : a = .rows
      · subst ha
        obtain ⟨⟨listed, rfl⟩, -⟩ := next_rows hr
        obtain ⟨rfl, rfl⟩ := h
        rfl
      · simp [ha]
    rw [Flags.trace, Flags.trace, ih (h.step hr) hrest, hhead]

theorem noRowsBeforeMap_of_phase (hq : ∀ listed, q ≠ .mapped listed)
    (hrun : exec TranPhase.next q as = some q') : NoRowsBeforeMap as := by
  induction as generalizing q with
  | nil => trivial
  | cons a as ih =>
    obtain ⟨r, hr, hrest⟩ := Option.bind_eq_some_iff.mp hrun
    cases a with
    | tableMap listed => trivial
    | rows =>
      obtain ⟨⟨listed, rfl⟩, -⟩ := TranPhase.next_rows hr
      exact absurd rfl (hq listed)
    | other =>
      obtain rfl := TranPhase.next_other hr
      exact ih hq hrest
    | tran b =>
      refine ih (fun listed => ?_) hrest
      rintro rfl
      cases b <;> cases q <;> cases hr

def TranPhase.Starts (q : TranPhase) : Prop := q = .outside ∨ q = .written

theorem TranPhase.Starts.same (h : q.Starts) : q.Same .cold .cold := by
  rcases h with rfl | rfl
  · exact ⟨rfl, rfl⟩
  · trivial

/-- A session publishes no place between the begin of a transaction and its row event. -/
theorem startsAt_phase (has : OneStatement as) (h : StartsAt as k) :
    ∃ q, exec TranPhase.next .outside (as.take k) = some q ∧ q.Starts := by
  induction h with
  | first => exact ⟨.outside, by rw [List.take_zero]; rfl, Or.inl rfl⟩
  | @published k n hstart hpub ih =>
    obtain ⟨q, hq, hstarts⟩ := ih
    obtain ⟨r, hr⟩ := Option.isSome_iff_exists.mp has
    rw [← List.take_append_drop (k + n) as] at hr
    obtain ⟨q', hq', -⟩ := exec_append_eq_some.mp hr
    refine ⟨q', hq', ?_⟩
    rw [List.take_add] at hq'
    obtain ⟨q₀, hq₀, hrun⟩ := exec_append_eq_some.mp hq'
    obtain rfl := Option.some.inj (hq.symm.trans hq₀)
    have hsame := hstarts.same.after hrun
    rcases hpub.tran with htran | hrows
    · cases q' with
      | outside => exact Or.inl rfl
      | written => exact Or.inr rfl
      | begun =>
        rw [hsame.1] at htran
        cases htran
      | mapped listed =>
        rw [hsame.1] at htran
        cases htran
    · obtain ⟨n, rfl⟩ := Nat.exists_eq_succ_of_ne_zero hpub.pos.ne'
      have hlast : (as.drop k)[n]? = some .rows := by rw [List.getElem?_drop, ← hrows]; rfl
      rw [List.take_add_one, hlast] at hrun
      obtain ⟨r, -, hlastStep⟩ := exec_append_eq_some.mp hrun
      obtain ⟨s, hs, heq⟩ := Option.bind_eq_some_iff.mp hlastStep
      obtain rfl := Option.some.inj heq
      exact Or.inr (TranPhase.next_rows hs).2

/-- With one statement in each transaction every place that is published is safe. -/
theorem closed_of_oneStatement (has : OneStatement as) : Closed as := by
  intro k hk _
  obtain ⟨q, hq, hstarts⟩ := startsAt_phase has hk
  obtain ⟨r, hr⟩ := Option.isSome_iff_exists.mp has
  rw [← List.take_append_drop k as] at hr
  obtain ⟨q', hq', hrest⟩ := exec_append_eq_some.mp hr
  obtain rfl := Option.some.inj (hq.symm.trans hq')
  have houtside : TranPhase.outside.Same .cold .cold := ⟨rfl, rfl⟩
  have hsame : q.Same (Flags.cold.after (as.take k)) .cold := by
    have hafter := houtside.after hq
    rcases hstarts with rfl | rfl
    · exact ⟨hafter.1, rfl⟩
    · trivial
  refine ⟨hsame.trace hrest, noRowsBeforeMap_of_phase (fun listed => ?_) hrest⟩
  rintro rfl
  rcases hstarts with h | h <;> cases h

end MySQLSyncer.Master
