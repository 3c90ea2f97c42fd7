import Mathlib.Tactic

/-! # The filter of row events, on its own

Of the state that decides which row events are forwarded two flags matter, and of an event
only whether it maps a table, carries rows, or begins or ends a transaction.
-/
namespace MySQLSyncer.Master

inductive Sym where
  | tableMap (listed : Bool)
  | rows
  | tran (open' : Bool)
  | other
  deriving DecidableEq, Repr

structure Flags where
  filter : Bool
  tran : Bool
  deriving DecidableEq, Repr

def Flags.cold : Flags := ⟨true, false⟩

/-- A skipped row event outside a transaction clears the filter. -/
def Flags.step (s : Flags) : Sym → Flags
  | .tableMap listed => { s with filter := !listed }
  | .rows => if s.filter then { s with filter := s.tran } else s
  | .tran b => { s with tran := b }
  | .other => s

def Flags.trace (s : Flags) : List Sym → List Bool
  | [] => []
  | a :: as => (a = .rows && !s.filter) :: (s.step a).trace as

theorem Flags.length_trace (s : Flags) (as : List Sym) : (s.trace as).length = as.length := by
  induction as generalizing s with
  | nil => rfl
  | cons a as ih => rw [Flags.trace, List.length_cons, List.length_cons, ih]

section pick
variable {κ : Type*}

def pick : List κ → List Bool → List κ
  | k :: ks, b :: bs => if b then k :: pick ks bs else pick ks bs
  | _, _ => []

theorem mem_of_mem_pick {k : κ} {ks : List κ} {bs : List Bool} (h : k ∈ pick ks bs) : k ∈ ks := by
  induction ks generalizing bs with
  | nil => exact h
  | cons l ks ih =>
    cases bs with
    | nil => exact absurd h List.not_mem_nil
    | cons b bs =>
      rw [pick] at h
      split_ifs at h
      · exact (List.mem_cons.mp h).elim (fun heq => heq ▸ List.mem_cons_self ..)
          (fun hmem => List.mem_cons_of_mem _ (ih hmem))
      · exact List.mem_cons_of_mem _ (ih h)

theorem pick_inj {ks : List κ} (hks : ks.Nodup) {bs cs : List Bool} (hbs : bs.length = ks.length)
    (hcs : cs.length = ks.length) (h : pick ks bs = pick ks cs) : bs = cs := by
  induction ks generalizing bs cs with
  | nil => rw [List.length_eq_zero_iff.mp hbs, List.length_eq_zero_iff.mp hcs]
  | cons k ks ih =>
    obtain ⟨b, bs, rfl⟩ := List.exists_cons_of_length_eq_add_one hbs
    obtain ⟨c, cs, rfl⟩ := List.exists_cons_of_length_eq_add_one hcs
    obtain ⟨hk, hks⟩ := List.nodup_cons.mp hks
    have hrest : pick ks bs = pick ks cs → bs = cs :=
      ih hks (Nat.succ.inj hbs) (Nat.succ.inj hcs)
    cases b <;> cases c <;> simp only [pick, if_true, Bool.false_eq_true, if_false] at h
    · rw [hrest h]
    · exact absurd (mem_of_mem_pick (h ▸ List.mem_cons_self ..)) hk
    · exact absurd (mem_of_mem_pick (h ▸ List.mem_cons_self ..)) hk
    · rw [hrest (List.cons.inj h).2]

end pick

def listedStep (listed : Bool) : Sym → Bool
  | .tableMap l => l
  | _ => listed

def bareStep (tran bare : Bool) : Sym → Bool
  | .tableMap _ => false
  | .rows => bare || !tran
  | _ => bare

/-- The filter is open when the last table map was of a listed table, or when a row event
outside a transaction opened it. -/
theorem filter_step {s : Flags} {listed bare : Bool} (h : s.filter = !(listed || bare)) (a : Sym) :
    (s.step a).filter = !(listedStep listed a || bareStep s.tran bare a) := by
  obtain ⟨filter, tran⟩ := s
  obtain rfl : filter = !(listed || bare) := h
  cases a with
  | tableMap l => simp [Flags.step, listedStep, bareStep]
  | rows => cases listed <;> cases bare <;> cases tran <;> rfl
  | tran b => rfl
  | other => rfl

def NoRowsBeforeMap : List Sym → Prop
  | [] => True
  | .rows :: _ => False
  | .tableMap _ :: _ => True
  | .tran _ :: as => NoRowsBeforeMap as
  | .other :: as => NoRowsBeforeMap as

/-- If a row event comes before the next table map and the next transaction event, no second
one follows before the next table map. -/
def OneRowsBeforeMap : List Sym → Prop
  | [] => True
  | .rows :: as => NoRowsBeforeMap as
  | .tableMap _ :: _ => True
  | .tran _ :: _ => True
  | .other :: as => OneRowsBeforeMap as

/-- Up to the next transaction event no unlisted table map is followed by two row events. -/
def NoDoubleSkip : List Sym → Prop
  | [] => True
  | .tran _ :: _ => True
  | .tableMap listed :: as => (listed = false → OneRowsBeforeMap as) ∧ NoDoubleSkip as
  | .rows :: as => NoDoubleSkip as
  | .other :: as => NoDoubleSkip as

/-- Where a session whose transaction flag is `tran` may be replaced by a fresh one. -/
def SafeBehind (tran : Bool) (as : List Sym) : Prop :=
  NoRowsBeforeMap as ∧ (tran = true → NoDoubleSkip as)

instance NoRowsBeforeMap.decidable : DecidablePred NoRowsBeforeMap
  | [] => isTrue trivial
  | .rows :: _ => isFalse id
  | .tableMap _ :: _ => isTrue trivial
  | .tran _ :: as => NoRowsBeforeMap.decidable as
  | .other :: as => NoRowsBeforeMap.decidable as

instance OneRowsBeforeMap.decidable : DecidablePred OneRowsBeforeMap
  | [] => isTrue trivial
  | .rows :: as => NoRowsBeforeMap.decidable as
  | .tableMap _ :: _ => isTrue trivial
  | .tran _ :: _ => isTrue trivial
  | .other :: as => OneRowsBeforeMap.decidable as

instance NoDoubleSkip.decidable : DecidablePred NoDoubleSkip
  | [] => isTrue trivial
  | .tran _ :: _ => isTrue trivial
  | .tableMap _ :: as =>
    have := NoDoubleSkip.decidable as
    inferInstanceAs (Decidable (_ ∧ _))
  | .rows :: as => NoDoubleSkip.decidable as
  | .other :: as => NoDoubleSkip.decidable as

instance (tran : Bool) (as : List Sym) : Decidable (SafeBehind tran as) :=
  inferInstanceAs (Decidable (_ ∧ _))

/-- Sessions that differ in the transaction flag only, and sessions that differ in the
filter: when do they forward the same events? -/
theorem trace_eq_iff (as : List Sym) :
    (∀ f, (Flags.mk f true).trace as = (Flags.mk f false).trace as ↔
      (f = true → OneRowsBeforeMap as) ∧ NoDoubleSkip as) ∧
    ∀ f τ σ, (Flags.mk (!f) τ).trace as = (Flags.mk f σ).trace as ↔
      NoRowsBeforeMap as ∧ (τ ≠ σ → NoDoubleSkip as) := by
  induction as with
  | nil => exact ⟨fun _ => iff_of_true rfl ⟨fun _ => trivial, trivial⟩,
      fun _ _ _ => iff_of_true rfl ⟨trivial, fun _ => trivial⟩⟩
  | cons a as ih =>
    obtain ⟨ihTran, ihFilter⟩ := ih
    constructor
    · intro f
      cases a with
      | rows =>
        cases f with
        | false => simpa [Flags.trace, Flags.step, NoDoubleSkip] using ihTran false
        | true =>
          have h := ihFilter false true false
          simpa [Flags.trace, Flags.step, NoDoubleSkip, OneRowsBeforeMap] using h
      | tableMap l =>
        have h := ihTran (!l)
        simpa [Flags.trace, Flags.step, NoDoubleSkip, OneRowsBeforeMap] using h
      | tran b => simp [Flags.trace, Flags.step, NoDoubleSkip, OneRowsBeforeMap]
      | other => simpa [Flags.trace, Flags.step, NoDoubleSkip, OneRowsBeforeMap] using ihTran f
    · intro f τ σ
      cases a with
      | rows => cases f <;> simp [Flags.trace, NoRowsBeforeMap]
      | tableMap l =>
        have h := ihTran (!l)
        rw [Bool.not_eq_true'] at h
        have hmap (τ σ : Bool) : (Flags.mk (!f) τ).trace (.tableMap l :: as) =
            (Flags.mk f σ).trace (.tableMap l :: as) ↔
              (Flags.mk (!l) τ).trace as = (Flags.mk (!l) σ).trace as := by
          simp [Flags.trace, Flags.step]
        rw [hmap]
        cases τ <;> cases σ
        · simp [NoRowsBeforeMap]
        · rw [eq_comm, h]
          simp [NoRowsBeforeMap, NoDoubleSkip]
        · rw [h]
          simp [NoRowsBeforeMap, NoDoubleSkip]
        · simp [NoRowsBeforeMap]
      | tran b =>
        have h := ihFilter f b b
        simpa [Flags.trace, Flags.step, NoRowsBeforeMap, NoDoubleSkip] using h
      | other =>
        have h := ihFilter f τ σ
        simpa [Flags.trace, Flags.step, NoRowsBeforeMap, NoDoubleSkip] using h

/-- A fresh session forwards what an open one forwards, exactly where resuming is safe. -/
theorem trace_cold_iff (tran : Bool) (as : List Sym) :
    (Flags.mk false tran).trace as = Flags.cold.trace as ↔ SafeBehind tran as := by
  have h := (trace_eq_iff as).2 true tran false
  rw [Flags.cold, SafeBehind]
  simpa using h

end MySQLSyncer.Master
