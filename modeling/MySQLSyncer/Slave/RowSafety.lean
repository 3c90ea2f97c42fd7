import MySQLSyncer.Slave.RowBounds

/-! # The row decoder on any payload

The payload comes over the network. The decoder is safe on it exactly when it is laid out as the
decoder walks it: the description, the count and the bitmaps are there, and one row after the
other has all that its columns need until the body ends or the decoder gives up.
-/
namespace MySQLSyncer.Slave
open Lib MySQLSyncer.Core Master

def RowHead.nullLen (h : RowHead) : ℕ := ((h.un * 8 + 7) / 8).toNat

def rowArrays (d : RowData) (type : UInt8) (h : RowHead) (s : RowState) : RowArrays :=
  ⟨d.ct, d.cm, d.body, if type ≠ rsUpdateRowsEvent ∨ s.before = 0 then h.useBits else h.useBitsAfter,
    (d.body.drop s.p).take h.nullLen⟩

def rowCursor (h : RowHead) (s : RowState) : RowCursor := ⟨s.p + h.nullLen, 0, 0, s.columnMeta, s.pooled⟩

section

variable (env : RowEnv) (pasLen : ℕ) (d : RowData) (type : UInt8) (h : RowHead)

def RowTurn (s s' : RowState) : Prop :=
  s.p < d.body.length ∧ ∃ r, rsDmBinlogRowStep env d type h s = .done (s', r)

/-- In the row at `s`, entries are taken from inside `pas_arr`, and a handler gets the row only if
it ends in the body. -/
structure RowSafe (s : RowState) : Prop where
  lookups : s.p + h.nullLen ≤ d.body.length →
    LooksUpIn env pasLen (rowArrays d type h s) h.cn.toNat 0 (rowCursor h s)
  delivered : ∀ c r handle before, s.p + h.nullLen ≤ d.body.length →
    rsDmBinlogColumns env (rowArrays d type h s) h.cn.toNat 0 (rowCursor h s) = .done (c, r) →
    rowHandle type s.before = .done (handle, before) → env.handle handle ≠ none → c.p ≤ d.body.length

structure RowReads (k : ℕ) (s : RowState) (c : RowCursor) : Prop where
  more : s.p < d.body.length
  nullBits : s.p + h.nullLen ≤ d.body.length
  fields : Fields env pasLen (rowArrays d type h s) k 0 (rowCursor h s) c

/-- The whole row is there, and the body ends behind it if a handler is to get it. -/
structure RowWhole (s : RowState) (c : RowCursor) (handle : RowHandle) (before : ℕ) : Prop
    extends RowReads env pasLen d type h h.cn.toNat s c where
  handle_eq : rowHandle type s.before = .done (handle, before)
  delivered : env.handle handle ≠ none → c.p ≤ d.body.length

def RowEnv.Accepts (env : RowEnv) (handle : RowHandle) (row : ℕ) : Prop :=
  answersOk (env.handle handle) row = true ∧ answersOk env.freeHandle row = true

/-- From `s` on, the body is made of rows, until it ends or the decoder gives up: at a column, at
the type of the event, or because a handler does. -/
inductive RowsFit : RowState → Prop
  | ends {s : RowState} (hend : d.body.length ≤ s.p) : RowsFit s
  | refused {s : RowState} {k : ℕ} {c : RowCursor} (hreads : RowReads env pasLen d type h k s c)
      (hk : k < h.cn.toNat) (href : Refused env pasLen (rowArrays d type h s) k c) : RowsFit s
  | otherType {s : RowState} {c : RowCursor} (hreads : RowReads env pasLen d type h h.cn.toNat s c)
      (htype : ¬ IsRowsEvent type) : RowsFit s
  | declined {s : RowState} {c : RowCursor} {handle : RowHandle} {before : ℕ}
      (hwhole : RowWhole env pasLen d type h s c handle before) (hok : ¬ env.Accepts handle s.row) : RowsFit s
  | next {s : RowState} {c : RowCursor} {handle : RowHandle} {before : ℕ}
      (hwhole : RowWhole env pasLen d type h s c handle before) (hok : env.Accepts handle s.row)
      (hrest : RowsFit ⟨c.p, before, c.columnMeta, c.pooled, s.row + 1⟩) : RowsFit s

end

variable {env : RowEnv} {pasLen : ℕ} {d : RowData} {type : UInt8} {h : RowHead} {s s' : RowState}
  {c : RowCursor} {handle : RowHandle} {before : ℕ}

theorem rowStep_eq (hnull : s.p + h.nullLen ≤ d.body.length) : rsDmBinlogRowStep env d type h s = (do
    let (c, columns, stores) ←
      rsDmBinlogColumns env (rowArrays d type h s) h.cn.toNat 0 (rowCursor h s)
    let (handle, before) ← rowHandle type s.before
    Outcome.checked (answersOk (env.handle handle) s.row)
    Outcome.checked (answersOk env.freeHandle s.row)
    .done (⟨c.p, before, c.columnMeta, c.pooled, s.row + 1⟩,
      ⟨h.nullLen, (rowArrays d type h s).ubp, columns, stores, handle⟩)) := by
  have hslice : slice d.body s.p h.nullLen = some ((d.body.drop s.p).take h.nullLen) := if_pos hnull
  unfold RowHead.nullLen at hslice
  simp only [rsDmBinlogRowStep, hslice, Outcome.defined_some, Outcome.done_bind]
  rfl

theorem rowHandle_failed_iff (type : UInt8) (before : ℕ) : rowHandle type before = .failed ↔ ¬ IsRowsEvent type := by
  unfold rowHandle IsRowsEvent
  split_ifs <;> simp_all

theorem RowReads.columns_refused {k : ℕ} (hreads : RowReads env pasLen d type h k s c) (hk : k < h.cn.toNat)
    (href : Refused env pasLen (rowArrays d type h s) k c) :
    rsDmBinlogRowStep env d type h s = .failed ∧ RowSafe env pasLen d type h s := by
  rw [← Nat.zero_add k] at href
  obtain ⟨hfailed, hlook⟩ := hreads.fields.refused href hk
  constructor
  · rw [rowStep_eq hreads.nullBits, hfailed]
    rfl
  · refine ⟨fun _ => hlook, fun c r handle before _ hcols => ?_⟩
    rw [hfailed] at hcols
    cases hcols

theorem RowReads.otherType (hreads : RowReads env pasLen d type h h.cn.toNat s c) (htype : ¬ IsRowsEvent type) :
    rsDmBinlogRowStep env d type h s = .failed ∧ RowSafe env pasLen d type h s := by
  have hhandle := (rowHandle_failed_iff type s.before).mpr htype
  obtain ⟨r, hcols⟩ := hreads.fields.done
  constructor
  · rw [rowStep_eq hreads.nullBits, hcols, Outcome.done_bind]
    simp only [hhandle, Outcome.failed_bind]
  · refine ⟨fun _ => hreads.fields.looksUpIn, fun c r handle before _ _ hdone => ?_⟩
    rw [hhandle] at hdone
    cases hdone

theorem RowReads.accepted (hreads : RowReads env pasLen d type h h.cn.toNat s c)
    (hhandle : rowHandle type s.before = .done (handle, before)) (hok : env.Accepts handle s.row) :
    ∃ r, rsDmBinlogRowStep env d type h s = .done (⟨c.p, before, c.columnMeta, c.pooled, s.row + 1⟩, r) := by
  obtain ⟨r, hcols⟩ := hreads.fields.done
  rw [rowStep_eq hreads.nullBits, hcols, Outcome.done_bind]
  simp only [hhandle, Outcome.done_bind, hok.1, hok.2, Outcome.checked_true]
  exact ⟨_, rfl⟩

namespace RowWhole

variable (hwhole : RowWhole env pasLen d type h s c handle before)

include hwhole

theorem safe : RowSafe env pasLen d type h s := by
  obtain ⟨r, hcols⟩ := hwhole.fields.done
  refine ⟨fun _ => hwhole.fields.looksUpIn, fun c' r' handle' before' _ hcols' hhandle' hne => ?_⟩
  obtain ⟨rfl, -⟩ := Prod.mk.inj (Outcome.done.inj (hcols.symm.trans hcols'))
  obtain ⟨rfl, -⟩ := Prod.mk.inj (Outcome.done.inj (hwhole.handle_eq.symm.trans hhandle'))
  exact hwhole.delivered hne

theorem accepted (hok : env.Accepts handle s.row) : ∃ r, rsDmBinlogRowStep env d type h s =
    .done (⟨c.p, before, c.columnMeta, c.pooled, s.row + 1⟩, r) :=
  hwhole.toRowReads.accepted hwhole.handle_eq hok

theorem declined (hok : ¬ env.Accepts handle s.row) : rsDmBinlogRowStep env d type h s = .failed := by
  obtain ⟨r, hcols⟩ := hwhole.fields.done
  rw [rowStep_eq hwhole.nullBits, hcols, Outcome.done_bind]
  simp only [hwhole.handle_eq, Outcome.done_bind]
  by_cases hanswer : answersOk (env.handle handle) s.row = true
  · have hfree : ¬ answersOk env.freeHandle s.row = true := fun hfree => hok ⟨hanswer, hfree⟩
    simp [Outcome.checked, hanswer, hfree]
  · simp [Outcome.checked, hanswer]

end RowWhole

/-- A turn that goes on has read the whole row, and its handlers took it. -/
theorem rowStep_reads {r : RowTrace} (hmore : s.p < d.body.length)
    (hlook : s.p + h.nullLen ≤ d.body.length →
      LooksUpIn env pasLen (rowArrays d type h s) h.cn.toNat 0 (rowCursor h s))
    (hstep : rsDmBinlogRowStep env d type h s = .done (s', r)) : ∃ c handle before stores,
      RowReads env pasLen d type h h.cn.toNat s c ∧
      rsDmBinlogColumns env (rowArrays d type h s) h.cn.toNat 0 (rowCursor h s) = .done (c, stores) ∧
      rowHandle type s.before = .done (handle, before) ∧ env.Accepts handle s.row ∧
      s' = ⟨c.p, before, c.columnMeta, c.pooled, s.row + 1⟩ := by
  have hnull : s.p + h.nullLen ≤ d.body.length := by
    obtain ⟨nullBits, hslice, -⟩ := Outcome.bind_eq_done.mp hstep
    exact (slice_eq_some.mp (Outcome.defined_eq_done.mp hslice)).1
  rw [rowStep_eq hnull] at hstep
  obtain ⟨⟨c, columns, stores⟩, hcols, hstep⟩ := Outcome.bind_eq_done.mp hstep
  obtain ⟨⟨handle, before⟩, hhandle, hstep⟩ := Outcome.bind_eq_done.mp hstep
  obtain ⟨_, hanswer, hstep⟩ := Outcome.bind_eq_done.mp hstep
  obtain ⟨_, hfree, hdone⟩ := Outcome.bind_eq_done.mp hstep
  cases hdone
  rw [Outcome.checked_eq_done] at hanswer hfree
  have hreads : RowReads env pasLen d type h h.cn.toNat s c :=
    ⟨hmore, hnull, columns_fields (hlook hnull) hcols⟩
  exact ⟨c, handle, before, _, hreads, hcols, hhandle, ⟨hanswer, hfree⟩, rfl⟩

/-- What a safe turn needs the row to be, by how the turn ends. -/
theorem rowStep_done_inv {r : RowTrace} (hmore : s.p < d.body.length) (hsafe : RowSafe env pasLen d type h s)
    (hstep : rsDmBinlogRowStep env d type h s = .done (s', r)) : ∃ c handle before,
      RowWhole env pasLen d type h s c handle before ∧ env.Accepts handle s.row ∧
      s' = ⟨c.p, before, c.columnMeta, c.pooled, s.row + 1⟩ := by
  obtain ⟨c, handle, before, stores, hreads, hcols, hhandle, hok, hs'⟩ :=
    rowStep_reads hmore hsafe.lookups hstep
  have hdelivered := hsafe.delivered c stores handle before hreads.nullBits hcols hhandle
  exact ⟨c, handle, before, ⟨hreads, hhandle, hdelivered⟩, hok, hs'⟩

theorem rowStep_failed_inv (hmore : s.p < d.body.length) (hsafe : RowSafe env pasLen d type h s)
    (hstep : rsDmBinlogRowStep env d type h s = .failed) : RowsFit env pasLen d type h s := by
  have hnull : s.p + h.nullLen ≤ d.body.length := by
    obtain ⟨nullBits, hslice, -⟩ := Outcome.defined_bind_eq_failed.mp hstep
    exact (slice_eq_some.mp hslice).1
  rw [rowStep_eq hnull] at hstep
  rcases Outcome.bind_eq_failed.mp hstep with hcols | ⟨⟨c, columns, stores⟩, hcols, hstep⟩
  · obtain ⟨k, hk, c, hfields, href⟩ := columns_refused (hsafe.lookups hnull) hcols
    rw [Nat.zero_add] at href
    exact .refused ⟨hmore, hnull, hfields⟩ hk href
  have hreads : RowReads env pasLen d type h h.cn.toNat s c :=
    ⟨hmore, hnull, columns_fields (hsafe.lookups hnull) hcols⟩
  rcases Outcome.bind_eq_failed.mp hstep with hhandle | ⟨⟨handle, before⟩, hhandle, hstep⟩
  · exact .otherType hreads ((rowHandle_failed_iff type s.before).mp hhandle)
  have hwhole : RowWhole env pasLen d type h s c handle before :=
    ⟨hreads, hhandle, hsafe.delivered c _ handle before hnull hcols hhandle⟩
  refine .declined hwhole fun hok => ?_
  simp only [hok.1, hok.2, Outcome.checked_true, Outcome.done_bind, reduceCtorEq] at hstep

/-- A run of the row loop from `s` that is safe all the way and comes to an end. -/
structure RowsSafe (env : RowEnv) (pasLen : ℕ) (d : RowData) (type : UInt8) (h : RowHead) (s : RowState) :
    Prop where
  returns : ∃ fuel, rsDmBinlogRows env d type h fuel s ≠ .undefined
  turns : ∀ s', Relation.ReflTransGen (RowTurn env d type h) s s' → s'.p < d.body.length →
    RowSafe env pasLen d type h s'

/-- Nothing comes behind a turn that fails. -/
theorem rowsSafe_of_failed (hmore : s.p < d.body.length) (hsafe : RowSafe env pasLen d type h s)
    (hstep : rsDmBinlogRowStep env d type h s = .failed) : RowsSafe env pasLen d type h s := by
  constructor
  · refine ⟨1, ?_⟩
    rw [rsDmBinlogRows, if_pos hmore, hstep]
    simp
  · intro s' hreach _
    rcases Relation.ReflTransGen.cases_head hreach with rfl | ⟨s1, ⟨-, r, hdone⟩, -⟩
    · exact hsafe
    · rw [hstep] at hdone
      cases hdone

theorem rowsSafe_of_done {r : RowTrace} (hmore : s.p < d.body.length) (hsafe : RowSafe env pasLen d type h s)
    (hstep : rsDmBinlogRowStep env d type h s = .done (s', r)) (hrest : RowsSafe env pasLen d type h s') :
    RowsSafe env pasLen d type h s := by
  constructor
  · obtain ⟨fuel, hfuel⟩ := hrest.returns
    refine ⟨fuel + 1, ?_⟩
    rw [rsDmBinlogRows, if_pos hmore, hstep]
    cases hrun : rsDmBinlogRows env d type h fuel s' with
    | undefined => exact absurd hrun hfuel
    | failed => simp [hrun]
    | done r => simp [hrun]
  · intro s2 hreach hlt
    rcases Relation.ReflTransGen.cases_head hreach with rfl | ⟨s1, ⟨-, r1, hdone⟩, hreach⟩
    · exact hsafe
    · rw [hstep] at hdone
      cases hdone
      exact hrest.turns s2 hreach hlt

theorem RowsFit.safe (hfit : RowsFit env pasLen d type h s) : RowsSafe env pasLen d type h s := by
  induction hfit with
  | @ends s hend =>
    refine ⟨⟨1, by rw [rsDmBinlogRows, if_neg hend.not_gt]; simp⟩, fun s' hreach hlt => ?_⟩
    rcases Relation.ReflTransGen.cases_head hreach with rfl | ⟨s1, ⟨hmore, -⟩, -⟩
    · exact absurd hlt hend.not_gt
    · exact absurd hmore hend.not_gt
  | refused hreads hk href =>
    obtain ⟨hstep, hsafe⟩ := hreads.columns_refused hk href
    exact rowsSafe_of_failed hreads.more hsafe hstep
  | otherType hreads htype =>
    obtain ⟨hstep, hsafe⟩ := hreads.otherType htype
    exact rowsSafe_of_failed hreads.more hsafe hstep
  | declined hwhole hok => exact rowsSafe_of_failed hwhole.more hwhole.safe (hwhole.declined hok)
  | next hwhole hok hrest ih =>
    obtain ⟨r, hstep⟩ := hwhole.accepted hok
    exact rowsSafe_of_done hwhole.more hwhole.safe hstep ih

theorem RowsSafe.fit (hsafe : RowsSafe env pasLen d type h s) : RowsFit env pasLen d type h s := by
  obtain ⟨⟨fuel, hfuel⟩, hturns⟩ := hsafe
  induction fuel generalizing s with
  | zero => exact absurd rfl hfuel
  | succ fuel ih =>
    by_cases hmore : s.p < d.body.length
    · have hrow := hturns s .refl hmore
      rw [rsDmBinlogRows, if_pos hmore] at hfuel
      cases hstep : rsDmBinlogRowStep env d type h s with
      | undefined =>
        rw [hstep] at hfuel
        exact absurd rfl hfuel
      | failed => exact rowStep_failed_inv hmore hrow hstep
      | done r =>
        obtain ⟨s', r⟩ := r
        obtain ⟨c, handle, before, hwhole, hok, rfl⟩ := rowStep_done_inv hmore hrow hstep
        refine .next hwhole hok (ih ?_ ?_)
        · exact fun s2 hreach => hturns s2 (.head ⟨hmore, r, hstep⟩ hreach)
        · intro hrun
          rw [hstep, Outcome.done_bind] at hfuel
          simp only [hrun, Outcome.undefined_bind] at hfuel
          exact hfuel rfl
    · exact .ends (not_lt.mp hmore)

/-- The body begins with the ids, the count of the columns and the bitmaps that it calls for. -/
inductive HeadFits (type : UInt8) : List UInt8 → RowHead → Prop
  | intro {ids count useBits useBitsAfter rest : List UInt8} {n : ℕ} {un : UInt32} (hids : ids.length = 8)
      (hcount : rsParsePackedInteger count = some (n, count.length)) (hun : un = (UInt32.ofNat n + 7) / 8)
      (huse : useBits.length = un.toNat)
      (hafter : useBitsAfter.length = if type = rsUpdateRowsEvent then un.toNat else 0) :
      HeadFits type (ids ++ (count ++ (useBits ++ (useBitsAfter ++ rest))))
        ⟨UInt32.ofNat n, un, useBits, useBitsAfter, 8 + count.length + bitmaps type * un.toNat⟩

def rowStart (h : RowHead) : RowState := ⟨h.p, 0, none, 0, 0⟩

/-- The payload is made of the table's description, the head of the body, and rows. -/
def Layout (env : RowEnv) (pasLen : ℕ) (data : List UInt8) (type : UInt8) : Prop :=
  ∃ ct cm body h, ct.length < 2 ^ 32 ∧ cm.length < 2 ^ 32 ∧ data = rowLayout ct cm body ∧ HeadFits type body h ∧
    RowsFit env pasLen ⟨ct.length, ct, cm.length, cm, body⟩ type h (rowStart h)

/-- A call that has a meaning: it reads its head, and its row loop is safe and comes to an end. -/
def DecoderSafe (env : RowEnv) (pasLen : ℕ) (data : List UInt8) (type : UInt8) : Prop :=
  ∃ d h, rsDmBinlogRow data data.length = some d ∧ rowHead type d.body = some h ∧
    RowsSafe env pasLen d type h (rowStart h)

theorem takeBytes_eq_some {n : ℕ} {p w q : List UInt8} : takeBytes n p = some (w, q) ↔ w.length = n ∧ p = w ++ q := by
  constructor
  · intro h
    unfold takeBytes at h
    split_ifs at h with hle
    cases h
    exact ⟨by simpa using hle, (List.take_append_drop n p).symm⟩
  · rintro ⟨hlen, rfl⟩
    exact takeBytes_append hlen q

theorem rsDmBinlogRow_eq_some {data : List UInt8} : rsDmBinlogRow data data.length = some d ↔
    ∃ ct cm body, ct.length < 2 ^ 32 ∧ cm.length < 2 ^ 32 ∧ data = rowLayout ct cm body ∧
      d = ⟨ct.length, ct, cm.length, cm, body⟩ := by
  constructor
  · intro hd
    obtain ⟨⟨cn, p⟩, hp, hd⟩ := Option.bind_eq_some_iff.mp hd
    obtain ⟨⟨ct, p1⟩, hp1, hd⟩ := Option.bind_eq_some_iff.mp hd
    obtain ⟨⟨ml, p2⟩, hp2, hd⟩ := Option.bind_eq_some_iff.mp hd
    obtain ⟨⟨cm, p3⟩, hp3, hd⟩ := Option.bind_eq_some_iff.mp hd
    obtain ⟨⟨body, p4⟩, hp4, hd⟩ := Option.bind_eq_some_iff.mp hd
    cases hd
    obtain ⟨hcn, rfl⟩ := takeBytes_eq_some.mp hp
    obtain ⟨hct, rfl⟩ := takeBytes_eq_some.mp hp1
    obtain ⟨hml, rfl⟩ := takeBytes_eq_some.mp hp2
    obtain ⟨hcm, rfl⟩ := takeBytes_eq_some.mp hp3
    obtain ⟨hbody, rfl⟩ := takeBytes_eq_some.mp hp4
    obtain rfl : p4 = [] := by
      apply List.length_eq_zero_iff.mp
      simp only [List.length_append] at hbody
      omega
    have hcnLt := leNat_lt cn
    have hmlLt := leNat_lt ml
    have hcnBytes := leBytes_leNat cn
    have hmlBytes := leBytes_leNat ml
    rw [hcn, ← hct] at hcnBytes hcnLt
    rw [hml, ← hcm] at hmlBytes hmlLt
    refine ⟨ct, cm, body, by omega, by omega, ?_, by rw [hct, hcm]⟩
    rw [rowLayout, hcnBytes, hmlBytes, List.append_nil]
  · rintro ⟨ct, cm, body, hct, hcm, rfl, rfl⟩
    exact rsDmBinlogRow_rowLayout hct hcm body

def packedLen (b : UInt8) : ℕ :=
  if b.toNat ≤ 250 then 1 else if b.toNat ≤ 252 then 2 else if b.toNat ≤ 253 then 3
  else if b.toNat ≤ 254 then 4 else 8

theorem packedLen_pos (b : UInt8) : 0 < packedLen b := by
  unfold packedLen
  split_ifs <;> decide

theorem rsParsePackedInteger_cons (b : UInt8) (p : List UInt8) : rsParsePackedInteger (b :: p) =
    (slice (b :: p) 0 (packedLen b)).map fun w => (leNat w, packedLen b) := by
  rw [Option.map_eq_bind]
  rfl

theorem slice_split {w v : List UInt8} {off n : ℕ} :
    slice w off n = some v ↔ ∃ front rest, w = front ++ (v ++ rest) ∧ front.length = off ∧ v.length = n := by
  constructor
  · intro h
    obtain ⟨hle, rfl⟩ := slice_eq_some.mp h
    refine ⟨w.take off, (w.drop off).drop n, ?_, ?_, ?_⟩
    · rw [List.take_append_drop, List.take_append_drop]
    · rw [List.length_take]
      omega
    · rw [List.length_take, List.length_drop]
      omega
  · rintro ⟨front, rest, rfl, rfl, rfl⟩
    rw [← List.append_assoc]
    exact slice_append front v rest

theorem rsParsePackedInteger_eq_some {p : List UInt8} {n cl : ℕ} : rsParsePackedInteger p = some (n, cl) ↔
    ∃ count rest, p = count ++ rest ∧ rsParsePackedInteger count = some (n, count.length) ∧ count.length = cl := by
  constructor
  · intro hp
    cases p with
    | nil => cases hp
    | cons b p =>
      rw [rsParsePackedInteger_cons] at hp
      obtain ⟨count, hslice, hn⟩ := Option.map_eq_some_iff.mp hp
      cases hn
      obtain ⟨front, rest, hp, hfront, hcount⟩ := slice_split.mp hslice
      obtain rfl := List.length_eq_zero_iff.mp hfront
      rw [List.nil_append] at hp
      refine ⟨count, rest, hp, ?_, hcount⟩
      cases count with
      | nil =>
        have hpos := packedLen_pos b
        simp only [List.length_nil] at hcount
        omega
      | cons b' count =>
        obtain ⟨rfl, -⟩ := List.cons.inj hp
        have hself := slice_left (b :: count) []
        rw [List.append_nil, hcount] at hself
        rw [rsParsePackedInteger_cons, hself, hcount]
        rfl
  · rintro ⟨count, rest, rfl, hcount, rfl⟩
    cases count with
    | nil => cases hcount
    | cons b count =>
      rw [rsParsePackedInteger_cons] at hcount
      obtain ⟨w, hslice, hn⟩ := Option.map_eq_some_iff.mp hcount
      obtain ⟨rfl, hlen⟩ := Prod.mk.inj hn
      rw [hlen] at hslice
      have hself := slice_left (b :: count) []
      rw [List.append_nil] at hself
      obtain rfl := Option.some.inj (hself.symm.trans hslice)
      rw [List.cons_append, rsParsePackedInteger_cons, hlen, ← List.cons_append, slice_left]
      rfl

theorem HeadFits.rowHead {body : List UInt8} (hfits : HeadFits type body h) : rowHead type body = some h := by
  cases hfits with
  | @intro ids count useBits useBitsAfter rest n un hids hcount hun huse hafter =>
    have hdrop : (ids ++ (count ++ (useBits ++ (useBitsAfter ++ rest)))).drop 8 = _ := List.drop_left' hids
    have hread := rsParsePackedInteger_eq_some.mpr ⟨count, useBits ++ (useBitsAfter ++ rest), rfl, hcount, rfl⟩
    have hbits : slice (ids ++ (count ++ (useBits ++ (useBitsAfter ++ rest)))) (8 + count.length) un.toNat =
        some useBits :=
      slice_split.mpr ⟨ids ++ count, useBitsAfter ++ rest, by simp, by simp [hids], huse⟩
    subst hun
    simp only [Slave.rowHead, hdrop, hread, hbits, Option.bind_eq_bind, Option.bind_some, bitmaps]
    by_cases hupdate : type = rsUpdateRowsEvent
    · rw [if_pos hupdate] at hafter
      have hbits' : slice (ids ++ (count ++ (useBits ++ (useBitsAfter ++ rest)))) (8 + count.length + useBits.length)
          useBitsAfter.length = some useBitsAfter :=
        slice_split.mpr ⟨ids ++ count ++ useBits, rest, by simp, by simp only [List.length_append, hids], rfl⟩
      rw [huse, hafter] at hbits'
      simp only [if_pos hupdate, hbits', Option.bind_some]
      rw [Nat.two_mul, Nat.add_assoc (8 + count.length)]
    · rw [if_neg hupdate] at hafter
      obtain rfl := List.length_eq_zero_iff.mp hafter
      simp only [if_neg hupdate, Nat.one_mul]

/-- The decoder finds its head exactly where the body begins with one. -/
theorem rowHead_eq_some {body : List UInt8} : rowHead type body = some h ↔ HeadFits type body h := by
  refine ⟨fun hh => ?_, HeadFits.rowHead⟩
  obtain ⟨⟨n, cl⟩, hn, hh⟩ := Option.bind_eq_some_iff.mp hh
  obtain ⟨useBits, huse, hh⟩ := Option.bind_eq_some_iff.mp hh
  obtain ⟨count, p, hdrop, hcount, rfl⟩ := rsParsePackedInteger_eq_some.mp hn
  obtain ⟨front, rest, hbody, hfront, hlen⟩ := slice_split.mp huse
  have hids : (body.take 8).length = 8 := by
    rw [List.length_take, hbody]
    simp only [List.length_append]
    omega
  have hwhole : body = body.take 8 ++ (count ++ p) := by rw [← hdrop, List.take_append_drop]
  have hp : p = useBits ++ rest := by
    have hcut := congrArg (List.drop (8 + count.length)) (hwhole.symm.trans hbody)
    rwa [← List.append_assoc, List.drop_left' (by rw [List.length_append, hids]), List.drop_left' hfront] at hcut
  rw [hwhole, hp]
  split_ifs at hh with hupdate
  · obtain ⟨useBitsAfter, hafter, hdone⟩ := Option.bind_eq_some_iff.mp hh
    cases hdone
    obtain ⟨front', rest', hbody', hfront', hlen'⟩ := slice_split.mp hafter
    have hrest : rest = useBitsAfter ++ rest' := by
      have hcut := congrArg (List.drop (8 + count.length + useBits.length)) (hbody.symm.trans hbody')
      rwa [← List.append_assoc, List.drop_left' (by rw [List.length_append, hfront]),
        List.drop_left' (by rw [hfront', hlen])] at hcut
    rw [hrest]
    have hp' : 8 + count.length + ((UInt32.ofNat n + 7) / 8).toNat + ((UInt32.ofNat n + 7) / 8).toNat =
        8 + count.length + bitmaps type * ((UInt32.ofNat n + 7) / 8).toNat := by
      rw [bitmaps, if_pos hupdate, Nat.two_mul, Nat.add_assoc (8 + count.length)]
    rw [hp']
    exact .intro hids hcount rfl hlen (by rw [if_pos hupdate, hlen'])
  · cases hh
    have hp' : 8 + count.length + ((UInt32.ofNat n + 7) / 8).toNat =
        8 + count.length + bitmaps type * ((UInt32.ofNat n + 7) / 8).toNat := by
      rw [bitmaps, if_neg hupdate, Nat.one_mul]
    rw [hp', ← List.nil_append rest]
    exact .intro hids hcount rfl hlen (by rw [if_neg hupdate, List.length_nil])

/-- For any payload, any event type, any handlers and any entries: the decoder returns, reads and
looks up only what is there, and hands over no row that ends behind the payload, exactly when the
payload is laid out so. -/
theorem decoderSafe_iff_layout (env : RowEnv) (pasLen : ℕ) (data : List UInt8) (type : UInt8) :
    DecoderSafe env pasLen data type ↔ Layout env pasLen data type := by
  constructor
  · rintro ⟨d, h, hd, hh, hsafe⟩
    obtain ⟨ct, cm, body, hct, hcm, hdata, rfl⟩ := rsDmBinlogRow_eq_some.mp hd
    exact ⟨ct, cm, body, h, hct, hcm, hdata, rowHead_eq_some.mp hh, hsafe.fit⟩
  · rintro ⟨ct, cm, body, h, hct, hcm, hdata, hh, hfit⟩
    refine ⟨_, h, rsDmBinlogRow_eq_some.mpr ⟨ct, cm, body, hct, hcm, hdata, rfl⟩, rowHead_eq_some.mpr hh, hfit.safe⟩

/-- The only value of the only row is null. The server writes such events, and the payload ends
where the row does. -/
theorem not_decoderSafe : ¬ ∀ data type, DecoderSafe sampleEnv 1 data type := by
  intro hall
  obtain ⟨d, h, hd, hh, ⟨fuel, hfuel⟩, -⟩ := hall sampleNullFirst.data sampleNullFirst.type
  obtain rfl : d = ⟨1, [3], 0, [], [0, 0, 0, 0, 0, 0, 0, 0, 1, 1, 1]⟩ :=
    Option.some.inj (hd.symm.trans (by decide +kernel))
  obtain rfl : h = ⟨1, 1, [1], [], 10⟩ := Option.some.inj (hh.symm.trans rfl)
  have hstep : rsDmBinlogRowStep sampleEnv ⟨1, [3], 0, [], [0, 0, 0, 0, 0, 0, 0, 0, 1, 1, 1]⟩ rsWriteRowsEvent
      ⟨1, 1, [1], [], 10⟩ ⟨10, 0, none, 0, 0⟩ = .undefined := by
    decide +kernel
  cases fuel with
  | zero => exact hfuel rfl
  | succ fuel => exact hfuel (by rw [rsDmBinlogRows]; simp [rowStart, sampleNullFirst, intEvent, hstep])

end MySQLSyncer.Slave
