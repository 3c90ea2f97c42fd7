import MySQLSyncer.Slave.FullImages
import MySQLSyncer.Slave.Measured

/-! # When the row decoder stays inside its input

`rs_dm_binlog_row` tests the end of the body once for each row. What it needs besides is said of
the bytes here: a column that is looked at has a type, metadata and an entry; its length and its
value lie in the body.
-/
namespace MySQLSyncer.Slave
open Lib MySQLSyncer.Core

structure Present (a : RowArrays) (i : ℕ) (c : RowCursor) (t : UInt8) : Prop where
  type : a.ct[i]? = some t
  used : bitAt a.ubp i = some true
  notNull : bitAt a.nullBits c.j = some false

structure Absent (a : RowArrays) (i : ℕ) (c : RowCursor) (last : UInt8) : Prop where
  type : i < a.ct.length
  bit : bitAt a.ubp i = some false ∨ bitAt a.ubp i = some true ∧ bitAt a.nullBits c.j = some true
  columnMeta : c.columnMeta = some last

inductive Placed (env : RowEnv) (body : List UInt8) (i p dl pooled : ℕ) : ℕ → Prop
  | skipped (hpos : (env.pasArr i).pos = -1) : Placed env body i p dl pooled pooled
  | stack (hpos : (env.pasArr i).pos ≠ -1) (halloc : (env.pasArr i).alloc = rsDmDataStack)
      (hend : p + dl ≤ body.length) : Placed env body i p dl pooled pooled
  | pool (hpos : (env.pasArr i).pos ≠ -1) (halloc : (env.pasArr i).alloc = rsDmDataPool) (hdl : 0 < dl)
      (hchunk : env.palloc pooled = true) (hend : p + dl ≤ body.length) :
      Placed env body i p dl pooled (pooled + 1)

structure Unplaced (env : RowEnv) (i dl pooled : ℕ) : Prop where
  pos : (env.pasArr i).pos ≠ -1
  alloc : (env.pasArr i).alloc ≠ rsDmDataStack
  pool : (env.pasArr i).alloc = rsDmDataPool → 0 < dl ∧ env.palloc pooled = false

inductive Field (env : RowEnv) (pasLen : ℕ) (a : RowArrays) (i : ℕ) (c : RowCursor) : RowCursor → Prop
  | absent {last : UInt8} (h : Absent a i c last) :
      Field env pasLen a i c { c with j := c.j + 1, cmp := c.cmp + (rsColumnMeta last).metaLen }
  | value {t : UInt8} {k dl pooled : ℕ} (h : Present a i c t)
      (hsize : Measured t (a.cm.drop c.cmp) (a.body.drop c.p) k dl) (hpas : i < pasLen)
      (hplaced : Placed env a.body i (c.p + k) dl c.pooled pooled) :
      Field env pasLen a i c ⟨c.p + k + dl, c.j + 1, c.cmp + (rsColumnMeta t).metaLen, some t, pooled⟩

inductive Refused (env : RowEnv) (pasLen : ℕ) (a : RowArrays) (i : ℕ) (c : RowCursor) : Prop
  | unsupported {t : UInt8} (h : Present a i c t) (hhandle : (rsColumnMeta t).parseHandle = none)
  | unplaced {t : UInt8} {k dl : ℕ} (h : Present a i c t)
      (hsize : Measured t (a.cm.drop c.cmp) (a.body.drop c.p) k dl) (hpas : i < pasLen)
      (hplaced : Unplaced env i dl c.pooled)

inductive Fields (env : RowEnv) (pasLen : ℕ) (a : RowArrays) : ℕ → ℕ → RowCursor → RowCursor → Prop
  | none {i : ℕ} {c : RowCursor} : Fields env pasLen a 0 i c c
  | cons {n i : ℕ} {c c' c'' : RowCursor} (hfield : Field env pasLen a i c c')
      (hfields : Fields env pasLen a n (i + 1) c' c'') : Fields env pasLen a (n + 1) i c c''

/-- The loop takes the entry of column `i` from `pas_arr`. -/
def LooksUp (a : RowArrays) (i : ℕ) (c : RowCursor) : Prop :=
  ∃ t, Present a i c t ∧ (rsColumnMeta t).parseHandle ≠ none

variable {env : RowEnv} {pasLen n i dl : ℕ} {a : RowArrays} {c c' : RowCursor} {body : List UInt8}

theorem slice_isSome {w : List UInt8} {off n : ℕ} (h : off + n ≤ w.length) : ∃ v, slice w off n = some v :=
  ⟨_, if_pos h⟩

theorem Placed.done {pooled : ℕ} (h : Placed env body i c.p dl c.pooled pooled) :
    ∃ stores, placeColumn env body i dl c = .done ({ c with pooled := pooled }, stores) := by
  unfold placeColumn
  cases h with
  | skipped hpos => exact ⟨_, by simp only [hpos, if_true]; rfl⟩
  | stack hpos halloc hend =>
    obtain ⟨v, hv⟩ := slice_isSome hend
    simp [hpos, halloc, hv]
  | pool hpos halloc hdl hchunk hend =>
    obtain ⟨v, hv⟩ := slice_isSome hend
    simp [hpos, halloc, rsDmDataPool_ne, hdl.ne', hchunk, hv]

theorem Unplaced.failed (h : Unplaced env i dl c.pooled) : placeColumn env body i dl c = .failed := by
  unfold placeColumn
  by_cases hpool : (env.pasArr i).alloc = rsDmDataPool
  · obtain ⟨hdl, hchunk⟩ := h.pool hpool
    simp [h.pos, hpool, rsDmDataPool_ne, hdl.ne', hchunk, Outcome.checked]
  · simp [h.pos, h.alloc, hpool]

theorem placeColumn_done_inv {stores : List RowStore} (h : placeColumn env body i dl c = .done (c', stores)) :
    ∃ pooled, Placed env body i c.p dl c.pooled pooled ∧ c' = { c with pooled := pooled } := by
  unfold placeColumn at h
  by_cases hpos : (env.pasArr i).pos = -1
  · simp only [hpos, if_true] at h
    cases h
    exact ⟨c.pooled, .skipped hpos, rfl⟩
  by_cases hstack : (env.pasArr i).alloc = rsDmDataStack
  · simp only [hpos, hstack, if_true, if_false] at h
    obtain ⟨v, hv, hdone⟩ := Outcome.bind_eq_done.mp h
    cases hdone
    exact ⟨c.pooled, .stack hpos hstack (slice_eq_some.mp (Outcome.defined_eq_done.mp hv)).1, rfl⟩
  by_cases hpool : (env.pasArr i).alloc = rsDmDataPool
  · simp only [hpos, hpool, rsDmDataPool_ne, if_true, if_false] at h
    split_ifs at h with hdl
    obtain ⟨_, hchunk, h⟩ := Outcome.bind_eq_done.mp h
    obtain ⟨v, hv, hdone⟩ := Outcome.bind_eq_done.mp h
    cases hdone
    have hend := (slice_eq_some.mp (Outcome.defined_eq_done.mp hv)).1
    have hok : env.palloc c.pooled = true := by
      by_contra hno
      simp [Outcome.checked, hno] at hchunk
    exact ⟨c.pooled + 1, .pool hpos hpool (Nat.pos_of_ne_zero hdl) hok hend, rfl⟩
  · simp only [hpos, hstack, hpool, if_false] at h
    cases h

theorem placeColumn_failed (h : placeColumn env body i dl c = .failed) : Unplaced env i dl c.pooled := by
  unfold placeColumn at h
  by_cases hpos : (env.pasArr i).pos = -1
  · simp [hpos] at h
  by_cases hstack : (env.pasArr i).alloc = rsDmDataStack
  · cases hv : slice body c.p dl with
    | none => simp [hpos, hstack, hv] at h
    | some v => simp [hpos, hstack, hv] at h
  refine ⟨hpos, hstack, fun hpool => ?_⟩
  by_cases hdl : dl = 0
  · simp [hpos, hpool, rsDmDataPool_ne, hdl] at h
  by_cases hchunk : env.palloc c.pooled = true
  · cases hv : slice body c.p dl with
    | none => simp [hpos, hpool, rsDmDataPool_ne, hdl, hchunk, hv] at h
    | some v => simp [hpos, hpool, rsDmDataPool_ne, hdl, hchunk, hv] at h
  · exact ⟨Nat.pos_of_ne_zero hdl, by simpa using hchunk⟩

theorem Measured.parseColumn_eq {t : UInt8} {k : ℕ}
    (h : Measured t (a.cm.drop c.cmp) (a.body.drop c.p) k dl) : parseColumn env a i t c = (do
      let (c', stores) ← placeColumn env a.body i dl { c with p := c.p + k, columnMeta := some t }
      .done ({ c' with p := c'.p + dl }, stores)) := by
  obtain ⟨parse, hhandle, hparse⟩ := h.parse
  simp only [parseColumn, hhandle, hparse, Outcome.defined_some, Outcome.done_bind]

theorem Present.column_eq {t : UInt8} (h : Present a i c t) : rsDmBinlogColumn env a i c = (do
    let (c', stores) ← parseColumn env a i t c
    let c' ← nextCol c'
    .done (c', ⟨c.cmp, some c.j⟩, stores)) := by
  simp only [rsDmBinlogColumn, h.type, h.used, h.notNull, Outcome.defined_some, Outcome.done_bind,
    Bool.not_true, Bool.false_eq_true, if_false]

theorem Field.done (h : Field env pasLen a i c c') : ∃ r, rsDmBinlogColumn env a i c = .done (c', r) := by
  cases h with
  | absent habs =>
    obtain ⟨t, htype⟩ : ∃ t, a.ct[i]? = some t := ⟨_, List.getElem?_eq_getElem habs.type⟩
    have hnext := nextCol_done habs.columnMeta
    rcases habs.bit with hbit | ⟨hused, hnull⟩
    · simp [rsDmBinlogColumn, htype, hbit, hnext]
    · simp [rsDmBinlogColumn, htype, hused, hnull, hnext]
  | @value t k dl pooled hpresent hsize hpas hplaced =>
    obtain ⟨stores, hplace⟩ := Placed.done (c := { c with p := c.p + k, columnMeta := some t }) hplaced
    have hparse : parseColumn env a i t c = _ := hsize.parseColumn_eq
    rw [hplace, Outcome.done_bind] at hparse
    rw [hpresent.column_eq, hparse]
    exact ⟨_, rfl⟩

theorem Refused.failed (h : Refused env pasLen a i c) : rsDmBinlogColumn env a i c = .failed := by
  cases h with
  | unsupported hpresent hhandle =>
    rw [hpresent.column_eq, parseColumn, hhandle]
    rfl
  | @unplaced t k dl hpresent hsize hpas hplaced =>
    have hplace : placeColumn env a.body i dl { c with p := c.p + k, columnMeta := some t } = .failed :=
      Unplaced.failed hplaced
    rw [hpresent.column_eq, hsize.parseColumn_eq, hplace]
    rfl

theorem Field.lookup (h : Field env pasLen a i c c') (hlook : LooksUp a i c) : i < pasLen := by
  cases h with
  | absent habs =>
    obtain ⟨t, hpresent, -⟩ := hlook
    rcases habs.bit with hbit | ⟨-, hnull⟩
    · exact absurd (hbit.symm.trans hpresent.used) (by simp)
    · exact absurd (hnull.symm.trans hpresent.notNull) (by simp)
  | value hpresent hsize hpas hplaced => exact hpas

theorem Refused.lookup (h : Refused env pasLen a i c) (hlook : LooksUp a i c) : i < pasLen := by
  cases h with
  | unsupported hpresent hhandle =>
    obtain ⟨t, hpresent', hne⟩ := hlook
    obtain rfl := Option.some.inj (hpresent.type.symm.trans hpresent'.type)
    exact absurd hhandle hne
  | unplaced hpresent hsize hpas hplaced => exact hpas

theorem absent_done {t : UInt8} {r : Visit × List RowStore} {v : Visit} (htype : a.ct[i]? = some t)
    (hbit : bitAt a.ubp i = some false ∨ bitAt a.ubp i = some true ∧ bitAt a.nullBits c.j = some true)
    (hcol : (do let c' ← nextCol c; .done (c', v, []) : Outcome
        (RowCursor × Visit × List RowStore)) = .done (c', r)) :
    Field env pasLen a i c c' := by
  obtain ⟨c1, hnext, hdone⟩ := Outcome.bind_eq_done.mp hcol
  cases hdone
  obtain ⟨last, hlast⟩ := nextCol_meta hnext
  rw [nextCol_done hlast] at hnext
  cases hnext
  exact .absent ⟨(List.getElem?_eq_some_iff.mp htype).1, hbit, hlast⟩

theorem column_field {r : Visit × List RowStore} (hpas : LooksUp a i c → i < pasLen)
    (hcol : rsDmBinlogColumn env a i c = .done (c', r)) : Field env pasLen a i c c' := by
  obtain ⟨t, ht, hcol⟩ := Outcome.bind_eq_done.mp hcol
  obtain ⟨used, hused, hcol⟩ := Outcome.bind_eq_done.mp hcol
  rw [Outcome.defined_eq_done] at ht hused
  cases used with
  | false => exact absent_done ht (Or.inl hused) hcol
  | true =>
    obtain ⟨isNull, hnull, hcol⟩ := Outcome.bind_eq_done.mp hcol
    rw [Outcome.defined_eq_done] at hnull
    cases isNull with
    | true => exact absent_done ht (Or.inr ⟨hused, hnull⟩) hcol
    | false =>
      have hpresent : Present a i c t := ⟨ht, hused, hnull⟩
      obtain ⟨⟨c1, stores⟩, hparse, hcol⟩ := Outcome.bind_eq_done.mp hcol
      obtain ⟨c2, hnext, hdone⟩ := Outcome.bind_eq_done.mp hcol
      cases hdone
      unfold parseColumn at hparse
      cases hhandle : (rsColumnMeta t).parseHandle with
      | none => simp [hhandle] at hparse
      | some parse =>
        simp only [hhandle] at hparse
        obtain ⟨⟨k, dl⟩, hsize, hparse⟩ := Outcome.bind_eq_done.mp hparse
        obtain ⟨⟨c3, stores3⟩, hplace, hdone⟩ := Outcome.bind_eq_done.mp hparse
        cases hdone
        obtain ⟨pooled, hplaced, rfl⟩ := placeColumn_done_inv hplace
        rw [nextCol_done rfl] at hnext
        cases hnext
        have hmeasured := measured_iff.mpr ⟨parse, hhandle, Outcome.defined_eq_done.mp hsize⟩
        exact .value hpresent hmeasured (hpas ⟨t, hpresent, by simp [hhandle]⟩) hplaced

theorem nextCol_ne_failed {v : Visit} :
    (do let c' ← nextCol c; .done (c', v, []) : Outcome (RowCursor × Visit × List RowStore)) ≠ .failed := by
  unfold nextCol
  cases c.columnMeta <;> simp

/-- Where the decoder gives up at a column, it refuses the column. -/
theorem column_refused (hpas : LooksUp a i c → i < pasLen) (hcol : rsDmBinlogColumn env a i c = .failed) :
    Refused env pasLen a i c := by
  obtain ⟨t, ht, hcol⟩ := Outcome.defined_bind_eq_failed.mp hcol
  obtain ⟨used, hused, hcol⟩ := Outcome.defined_bind_eq_failed.mp hcol
  cases used with
  | false => exact absurd hcol nextCol_ne_failed
  | true =>
    obtain ⟨isNull, hnull, hcol⟩ := Outcome.defined_bind_eq_failed.mp hcol
    cases isNull with
    | true => exact absurd hcol nextCol_ne_failed
    | false =>
      have hpresent : Present a i c t := ⟨ht, hused, hnull⟩
      unfold parseColumn at hcol
      cases hhandle : (rsColumnMeta t).parseHandle with
      | none => exact .unsupported hpresent hhandle
      | some parse =>
        simp only [hhandle] at hcol
        rcases Outcome.bind_eq_failed.mp hcol with hparse | ⟨⟨c1, stores⟩, hparse, hnext⟩
        · obtain ⟨⟨k, dl⟩, hsize, hparse⟩ := Outcome.defined_bind_eq_failed.mp hparse
          rcases Outcome.bind_eq_failed.mp hparse with hplace | ⟨r, -, hdone⟩
          · have hmeasured := measured_iff.mpr ⟨parse, hhandle, hsize⟩
            have hplaced := placeColumn_failed (c := { c with p := c.p + k, columnMeta := some t }) hplace
            exact .unplaced hpresent hmeasured (hpas ⟨t, hpresent, by simp [hhandle]⟩) hplaced
          · cases hdone
        · obtain ⟨r, -, hparse⟩ := Outcome.bind_eq_done.mp hparse
          obtain ⟨⟨c2, stores2⟩, hplace, hdone⟩ := Outcome.bind_eq_done.mp hparse
          cases hdone
          obtain ⟨pooled, -, rfl⟩ := placeColumn_done_inv hplace
          rw [nextCol_done rfl] at hnext
          cases hnext

/-- Every column that the loop takes from `pas_arr` has an entry there. -/
def LooksUpIn (env : RowEnv) (pasLen : ℕ) (a : RowArrays) (n i : ℕ) (c : RowCursor) : Prop :=
  ∀ k < n, ∀ c' r, rsDmBinlogColumns env a k i c = .done (c', r) → LooksUp a (i + k) c' → i + k < pasLen

theorem columns_step {r : Visit × List RowStore} (hcol : rsDmBinlogColumn env a i c = .done (c', r)) :
    rsDmBinlogColumns env a (n + 1) i c = (do
      let (c'', vs, rest) ← rsDmBinlogColumns env a n (i + 1) c'
      .done (c'', r.1 :: vs, r.2 ++ rest)) := by
  rw [rsDmBinlogColumns, hcol]
  rfl

theorem LooksUpIn.first (h : LooksUpIn env pasLen a (n + 1) i c) (hlook : LooksUp a i c) : i < pasLen :=
  h 0 (Nat.succ_pos n) c ([], []) rfl hlook

theorem LooksUpIn.next (h : LooksUpIn env pasLen a (n + 1) i c) {r : Visit × List RowStore}
    (hcol : rsDmBinlogColumn env a i c = .done (c', r)) : LooksUpIn env pasLen a n (i + 1) c' := by
  intro k hk c'' r' hrun hlook
  rw [Nat.add_assoc, Nat.add_comm 1] at hlook ⊢
  refine h (k + 1) (Nat.succ_lt_succ hk) c'' (r.1 :: r'.1, r.2 ++ r'.2) ?_ hlook
  rw [columns_step hcol, hrun]
  rfl

theorem looksUpIn_cons (hfirst : LooksUp a i c → i < pasLen)
    (hrest : ∀ c' r, rsDmBinlogColumn env a i c = .done (c', r) → LooksUpIn env pasLen a n (i + 1) c') :
    LooksUpIn env pasLen a (n + 1) i c := by
  intro k hk c'' r' hrun hlook
  cases k with
  | zero =>
    cases hrun
    exact hfirst hlook
  | succ k =>
    obtain ⟨⟨c1, v, stores⟩, hcol, hrun⟩ := Outcome.bind_eq_done.mp hrun
    obtain ⟨⟨c2, vs, rest⟩, hloop, hdone⟩ := Outcome.bind_eq_done.mp hrun
    cases hdone
    rw [Nat.add_comm k, ← Nat.add_assoc] at hlook ⊢
    exact hrest c1 (v, stores) hcol k (Nat.lt_of_succ_lt_succ hk) _ (vs, rest) hloop hlook

theorem Fields.done (h : Fields env pasLen a n i c c') : ∃ r, rsDmBinlogColumns env a n i c = .done (c', r) := by
  induction h with
  | none => exact ⟨_, rfl⟩
  | cons hfield hfields ih =>
    obtain ⟨r, hcol⟩ := hfield.done
    obtain ⟨⟨vs, rest⟩, hloop⟩ := ih
    rw [columns_step hcol, hloop]
    exact ⟨_, rfl⟩

theorem Fields.looksUpIn (h : Fields env pasLen a n i c c') : LooksUpIn env pasLen a n i c := by
  induction h with
  | none => exact fun k hk => absurd hk (Nat.not_lt_zero k)
  | cons hfield hfields ih =>
    apply looksUpIn_cons hfield.lookup
    intro c1 r hcol
    obtain ⟨r', hdone⟩ := hfield.done
    obtain ⟨rfl, -⟩ := Prod.mk.inj (Outcome.done.inj (hdone.symm.trans hcol))
    exact ih

theorem Fields.refused {k : ℕ} (h : Fields env pasLen a k i c c') (href : Refused env pasLen a (i + k) c')
    (hk : k < n) : rsDmBinlogColumns env a n i c = .failed ∧ LooksUpIn env pasLen a n i c := by
  induction h generalizing n with
  | @none i c =>
    cases n with
    | zero => exact absurd hk (Nat.not_lt_zero 0)
    | succ n =>
      rw [Nat.add_zero] at href
      refine ⟨by rw [rsDmBinlogColumns, href.failed]; rfl, looksUpIn_cons href.lookup ?_⟩
      intro c1 r hcol
      rw [href.failed] at hcol
      cases hcol
  | @cons k i c c1 c2 hfield hfields ih =>
    cases n with
    | zero => exact absurd hk (Nat.not_lt_zero _)
    | succ n =>
      obtain ⟨r, hcol⟩ := hfield.done
      rw [Nat.add_comm k, ← Nat.add_assoc] at href
      obtain ⟨hfailed, hlook⟩ := ih href (Nat.lt_of_succ_lt_succ hk)
      refine ⟨by rw [columns_step hcol, hfailed]; rfl, looksUpIn_cons hfield.lookup ?_⟩
      intro c3 r' hcol'
      obtain ⟨rfl, -⟩ := Prod.mk.inj (Outcome.done.inj (hcol.symm.trans hcol'))
      exact hlook

theorem columns_fields {r : List Visit × List RowStore} (hpas : LooksUpIn env pasLen a n i c)
    (hrun : rsDmBinlogColumns env a n i c = .done (c', r)) : Fields env pasLen a n i c c' := by
  induction n generalizing i c r with
  | zero =>
    cases hrun
    exact .none
  | succ n ih =>
    obtain ⟨⟨c1, v, stores⟩, hcol, hrun⟩ := Outcome.bind_eq_done.mp hrun
    obtain ⟨⟨c2, vs, rest⟩, hloop, hdone⟩ := Outcome.bind_eq_done.mp hrun
    cases hdone
    exact .cons (column_field hpas.first hcol) (ih (hpas.next hcol) hloop)

theorem columns_refused (hpas : LooksUpIn env pasLen a n i c) (hrun : rsDmBinlogColumns env a n i c = .failed) :
    ∃ k < n, ∃ c', Fields env pasLen a k i c c' ∧ Refused env pasLen a (i + k) c' := by
  induction n generalizing i c with
  | zero => cases hrun
  | succ n ih =>
    rcases Outcome.bind_eq_failed.mp hrun with hcol | ⟨⟨c1, v, stores⟩, hcol, hrun⟩
    · exact ⟨0, Nat.succ_pos n, c, .none, column_refused hpas.first hcol⟩
    · rcases Outcome.bind_eq_failed.mp hrun with hloop | ⟨r, -, hdone⟩
      · obtain ⟨k, hk, c', hfields, href⟩ := ih (hpas.next hcol) hloop
        rw [Nat.add_assoc, Nat.add_comm 1] at href
        exact ⟨k + 1, Nat.succ_lt_succ hk, c', .cons (column_field hpas.first hcol) hfields, href⟩
      · cases hdone

end MySQLSyncer.Slave
