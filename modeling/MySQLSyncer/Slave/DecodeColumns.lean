import MySQLSyncer.Slave.BinlogRow
import MySQLSyncer.Slave.RowFormat

/-! # Decoding one row image

What the column loop makes of an image in the server's format. It is right about a column when
its metadata cursor stands at the metadata of the column and it tests the bit that belongs to
the column. Both are followed through the row, and with them everything else.
-/
namespace MySQLSyncer.Slave
open Lib MySQLSyncer.Core

structure RowEnv.Ok (env : RowEnv) : Prop where
  palloc : ∀ k, env.palloc k = true
  handle : ∀ h row, answersOk (env.handle h) row = true
  freeHandle : ∀ row, answersOk env.freeHandle row = true

namespace RsDmPosAlloc

/-- The entry asks for nothing, for a copy in the object, or for a non-empty copy in the pool. -/
def Takes (pas : RsDmPosAlloc) (v : List UInt8) : Prop :=
  pas.pos = -1 ∨ pas.alloc = rsDmDataStack ∨ (pas.alloc = rsDmDataPool ∧ v ≠ [])

instance (pas : RsDmPosAlloc) (v : List UInt8) : Decidable (pas.Takes v) :=
  inferInstanceAs (Decidable (_ ∨ _))

/-- The bytes of the value, behind their number where the entry says so; in the pool, with the room there. -/
def store (p : RsPool) (pas : RsDmPosAlloc) (v : List UInt8) : List RowStore :=
  if pas.pos = -1 then []
  else if pas.alloc = rsDmDataStack then
    [.stack pas.pos (if pas.type = rsDmTypeHex then leBytes 4 v.length ++ v else v)]
  else [.pool pas.pos (p.room v.length) v]

end RsDmPosAlloc

/-- The value is taken as it is found behind its length, or it is passed over and not asked for. -/
def Fine (pas : RsDmPosAlloc) (c : Column) (pre v : List UInt8) : Prop :=
  pas.Takes v ∧ (Measures c (pre ++ v) pre.length v.length ∨ pas.pos = -1 ∧ Consumes c (pre ++ v))

def Cell.stores (p : RsPool) (pas : RsDmPosAlloc) : Cell → List RowStore
  | .value _ v => pas.store p v
  | _ => []

def Cell.Takes (pas : RsDmPosAlloc) : Cell → Prop
  | .value _ v => pas.Takes v
  | _ => True

def Cell.Fine (pas : RsDmPosAlloc) (c : Column) : Cell → Prop
  | .value pre v => Slave.Fine pas c pre v
  | _ => True

instance (pas : RsDmPosAlloc) : (cell : Cell) → Decidable (cell.Takes pas)
  | .value _ v => inferInstanceAs (Decidable (pas.Takes v))
  | .unused => isTrue trivial
  | .null => isTrue trivial

namespace Row

def stores (env : RowEnv) : ℕ → Row → List RowStore
  | _, [] => []
  | i, (_, cell) :: row => cell.stores env.dpool (env.pasArr i) ++ stores env (i + 1) row

def Taken (env : RowEnv) : ℕ → Row → Prop
  | _, [] => True
  | i, (_, cell) :: row => cell.Takes (env.pasArr i) ∧ Taken env (i + 1) row

def AllFine (env : RowEnv) : ℕ → Row → Prop
  | _, [] => True
  | i, (c, cell) :: row => cell.Fine (env.pasArr i) c ∧ AllFine env (i + 1) row

def Consumed (row : Row) : Prop := ∀ c pre v, (c, .value pre v) ∈ row → Consumes c (pre ++ v)

end Row

def Cell.nextRank (rank : ℕ) (cell : Cell) : ℕ := if cell.used then rank + 1 else rank

def Cell.nextMeta (c : Column) (last : Option UInt8) : Cell → Option UInt8
  | .value _ _ => some c.code
  | _ => last

namespace Row

def lastMeta : Option UInt8 → Row → Option UInt8
  | last, [] => last
  | last, (c, cell) :: row => lastMeta (cell.nextMeta c last) row

def RanksRight : ℕ → ℕ → Row → Prop
  | _, _, [] => True
  | j, rank, (_, cell) :: row => (cell.used → j = rank) ∧ RanksRight (j + 1) (cell.nextRank rank) row

/-- The metadata cursor `cmp`, moved on by the metadata length of the type `last`, is right at the
cells that are watched; `right` is where it ought to be. -/
def CursorRight (P : Cell → Prop) : Option UInt8 → ℕ → ℕ → Row → Prop
  | _, _, _, [] => True
  | last, cmp, right, (c, cell) :: row => (P cell → cmp = right) ∧ ∃ t, cell.nextMeta c last = some t ∧
      CursorRight P (some t) (cmp + (rsColumnMeta t).metaLen) (right + c.metas.length) row

/-- What the loop does at a column is right: the bit, and at the cells that are watched the
metadata cursor. -/
def VisitsRight (P : Cell → Prop) : ℕ → ℕ → Row → List Visit → Prop
  | _, _, [], [] => True
  | right, rank, (c, cell) :: row, v :: vs => (P cell → v.cmp = right) ∧
      v.bit = (if cell.used then some rank else none) ∧
      VisitsRight P (right + c.metas.length) (cell.nextRank rank) row vs
  | _, _, _, _ => False

def Filled (row : Row) : Prop := ∀ x ∈ row, ∃ pre v, x.2 = .value pre v

/-- What shows that the cursors `j` and `cmp` keep right: what the loop does at the columns is right, or they
begin right and every column has a value. -/
def Steered (P : Cell → Prop) (j cmp right rank : ℕ) (row : Row) (vs : List Visit) : Prop :=
  row.VisitsRight P right rank vs ∨ row.Filled ∧ j = rank ∧ cmp = right

end Row

def Row.UsedFirst (row : Row) : Prop := row.usedFlags.Pairwise fun a b => b = true → a = true

/-- The arrays, from the places on that belong to a column, hold the rest of the image. -/
structure Reads (a : RowArrays) (i rank right p : ℕ) (row : Row) (rest : List UInt8) : Prop where
  ct : a.ct.drop i = row.codes
  cm : a.cm.drop right = row.metas
  ubp : BitsFrom a.ubp i row.usedFlags
  nullBits : BitsFrom a.nullBits rank row.nullFlags
  le : p ≤ a.body.length
  body : a.body.drop p = row.bytes ++ rest

variable {P : Cell → Prop} {env : RowEnv} {a : RowArrays} {i rank right p : ℕ} {row : Row}
  {rest v pre : List UInt8} {c : Column} {cell : Cell} {s : RowCursor} {last : Option UInt8} {j : ℕ}

namespace Reads

theorem next (h : Reads a i rank right p ((c, cell) :: row) rest) :
    Reads a (i + 1) (cell.nextRank rank) (right + c.metas.length) (p + cell.bytes.length) row rest := by
  constructor
  · rw [← List.drop_drop, h.ct]
    rfl
  · rw [← List.drop_drop, h.cm]
    exact List.drop_left
  · exact (bitsFrom_cons.mp h.ubp).2
  · have hnull := h.nullBits
    cases cell with
    | unused => exact hnull
    | null => exact (bitsFrom_cons.mp hnull).2
    | value pre v => exact (bitsFrom_cons.mp hnull).2
  · have hlen := congrArg List.length h.body
    have hle := h.le
    simp only [Row.bytes, List.flatMap_cons, List.length_append, List.length_drop] at hlen
    omega
  · rw [← List.drop_drop, h.body, Row.bytes, List.flatMap_cons, List.append_assoc]
    exact List.drop_left

theorem type_eq (h : Reads a i rank right p ((c, cell) :: row) rest) : a.ct[i]? = some c.code := by
  have hhead : (a.ct.drop i)[0]? = some c.code := by rw [h.ct]; rfl
  simpa using hhead

theorem used_eq (h : Reads a i rank right p ((c, cell) :: row) rest) : bitAt a.ubp i = some cell.used :=
  (bitsFrom_cons.mp h.ubp).1

theorem parse_eq (h : Reads a i rank right p ((c, .value pre v) :: row) rest) {k dl : ℕ}
    (hsize : Measures c (pre ++ v) k dl) : ∃ parse, (rsColumnMeta c.code).parseHandle = some parse ∧
      parse (a.body.drop p) (a.cm.drop right) (rsColumnMeta c.code).metaLen (rsColumnMeta c.code).fixedLen =
        some (k, dl) := by
  obtain ⟨parse, hparse, heq⟩ := hsize (row.bytes ++ rest) row.metas
  refine ⟨parse, hparse, ?_⟩
  have hbody : a.body.drop p = pre ++ v ++ (row.bytes ++ rest) := by
    simp [h.body, Row.bytes, Cell.bytes]
  rw [hbody, h.cm]
  exact heq

theorem slice_eq (h : Reads a i rank right p ((c, .value pre v) :: row) rest) :
    slice a.body (p + pre.length) v.length = some v := by
  have hlen := congrArg List.length h.body
  have hle := h.le
  simp only [Row.bytes, List.flatMap_cons, Cell.bytes, List.length_append, List.length_drop] at hlen
  have hbody : a.body.drop (p + pre.length) = v ++ (row.bytes ++ rest) := by
    rw [← List.drop_drop, h.body]
    simp [Row.bytes, Cell.bytes]
  exact slice_of_drop (by omega) hbody

end Reads

theorem Fine.consumes {pas : RsDmPosAlloc} (h : Fine pas c pre v) :
    Consumes c (pre ++ v) :=
  h.2.elim Measures.consumes And.right

theorem Row.AllFine.consumed (h : row.AllFine env i) : row.Consumed := by
  intro c pre v hmem
  induction row generalizing i with
  | nil => exact absurd hmem List.not_mem_nil
  | cons x row ih =>
    rcases List.mem_cons.mp hmem with rfl | hmem
    · exact Fine.consumes h.1
    · exact ih h.2 hmem

theorem Row.ranksRight_behind (h : rank < j) : row.RanksRight j rank ↔ ∀ b ∈ row.usedFlags, b = false := by
  induction row generalizing j rank with
  | nil => simp [Row.RanksRight, Row.usedFlags]
  | cons x row ih =>
    obtain ⟨c, cell⟩ := x
    have hnext : cell.nextRank rank < j + 1 := by
      unfold Cell.nextRank
      split_ifs <;> omega
    have hcons : Row.usedFlags ((c, cell) :: row) = cell.used :: Row.usedFlags row := rfl
    rw [Row.RanksRight, ih hnext, hcons, List.forall_mem_cons]
    have hused : (cell.used = true → j = rank) ↔ cell.used = false := by
      cases cell.used
      · simp
      · simp only [forall_const, Bool.true_eq_false, iff_false]
        omega
    rw [hused]

/-- The index is the rank everywhere exactly when the used columns come first. -/
theorem Row.ranksRight_iff_usedFirst : row.RanksRight j j ↔ row.UsedFirst := by
  induction row generalizing j with
  | nil => simp [Row.RanksRight, Row.UsedFirst, Row.usedFlags]
  | cons x row ih =>
    obtain ⟨c, cell⟩ := x
    have hcons : Row.usedFlags ((c, cell) :: row) = cell.used :: Row.usedFlags row := rfl
    rw [Row.RanksRight, Row.UsedFirst, hcons, List.pairwise_cons, Cell.nextRank]
    cases hused : cell.used with
    | true =>
      rw [if_pos rfl, ih]
      simp [Row.UsedFirst]
    | false =>
      rw [if_neg (by simp), Row.ranksRight_behind (Nat.lt_succ_self j)]
      constructor
      · rintro ⟨-, hall⟩
        refine ⟨fun b hb htrue => absurd htrue (by simp [hall b hb]), ?_⟩
        exact List.pairwise_of_forall_mem_list fun a _ b hb htrue => absurd htrue (by simp [hall b hb])
      · rintro ⟨hall, -⟩
        exact ⟨by simp, fun b hb => by simpa using hall b hb⟩

theorem rsDmDataPool_ne : rsDmDataPool ≠ rsDmDataStack := by decide

theorem placeColumn_done (henv : env.Ok) (hslice : slice a.body s.p v.length = some v)
    (htakes : (env.pasArr i).Takes v) : ∃ k, placeColumn env a.body i v.length s =
      .done ({ s with pooled := k }, (env.pasArr i).store env.dpool v) := by
  unfold placeColumn RsDmPosAlloc.store
  by_cases hpos : (env.pasArr i).pos = -1
  · exact ⟨s.pooled, by simp [hpos]⟩
  by_cases hstack : (env.pasArr i).alloc = rsDmDataStack
  · exact ⟨s.pooled, by simp [hpos, hstack, hslice]⟩
  obtain ⟨hpool, hne⟩ := (htakes.resolve_left hpos).resolve_left hstack
  have hlen : v.length ≠ 0 := by simpa using hne
  exact ⟨s.pooled + 1, by simp [hpos, hpool, rsDmDataPool_ne, hlen, henv.palloc, hslice]⟩

theorem placeColumn_takes {r : RowCursor × List RowStore}
    (h : placeColumn env a.body i v.length s = .done r) : (env.pasArr i).Takes v := by
  unfold placeColumn at h
  by_cases hpos : (env.pasArr i).pos = -1
  · exact Or.inl hpos
  by_cases hstack : (env.pasArr i).alloc = rsDmDataStack
  · exact Or.inr (Or.inl hstack)
  by_cases hpool : (env.pasArr i).alloc = rsDmDataPool
  · refine Or.inr (Or.inr ⟨hpool, ?_⟩)
    rintro rfl
    simp [hpos, hpool, rsDmDataPool_ne] at h
  · simp [hpos, hstack, hpool] at h

/-- What is stored has the length that was found, and the shape that the entry asks for. -/
theorem placeColumn_stores {body : List UInt8} {dl : ℕ} {s' : RowCursor} {stores : List RowStore}
    (h : placeColumn env body i dl s = .done (s', stores)) (hpos : (env.pasArr i).pos ≠ -1) :
    ∃ value, value.length = dl ∧ stores = (env.pasArr i).store env.dpool value := by
  unfold placeColumn at h
  by_cases hstack : (env.pasArr i).alloc = rsDmDataStack
  · simp only [hpos, hstack, if_true, if_false] at h
    obtain ⟨value, hvalue, hdone⟩ := Outcome.bind_eq_done.mp h
    obtain rfl := slice_length (Outcome.defined_eq_done.mp hvalue)
    cases hdone
    exact ⟨value, rfl, by simp [RsDmPosAlloc.store, hpos, hstack]⟩
  by_cases hpool : (env.pasArr i).alloc = rsDmDataPool
  · simp only [hpos, hpool, rsDmDataPool_ne, if_true, if_false] at h
    split_ifs at h
    obtain ⟨-, -, h⟩ := Outcome.bind_eq_done.mp h
    obtain ⟨value, hvalue, hdone⟩ := Outcome.bind_eq_done.mp h
    obtain rfl := slice_length (Outcome.defined_eq_done.mp hvalue)
    cases hdone
    exact ⟨value, rfl, by simp [RsDmPosAlloc.store, hpos, hpool, rsDmDataPool_ne]⟩
  · simp only [hpos, hstack, hpool, if_false] at h
    cases h

theorem store_length {q : RsPool} {pas : RsDmPosAlloc} {x y : List UInt8} {ss tt : List RowStore}
    (hpos : pas.pos ≠ -1) (h : pas.store q x ++ ss = pas.store q y ++ tt) : x.length = y.length := by
  unfold RsDmPosAlloc.store at h
  simp only [if_neg hpos] at h
  by_cases hstack : pas.alloc = rsDmDataStack
  · simp only [if_pos hstack, List.singleton_append, List.cons.injEq, RowStore.stack.injEq] at h
    have hbytes := congrArg List.length h.1.2
    split_ifs at hbytes
    · simpa using hbytes
    · exact hbytes
  · simp only [if_neg hstack, List.singleton_append, List.cons.injEq, RowStore.pool.injEq] at h
    rw [h.1.2.2]

/-- The parse function of the column's type finds the two lengths. -/
theorem Reads.parseColumn_eq (h : Reads a i rank right s.p ((c, .value pre v) :: row) rest)
    (hcmp : s.cmp = right) {k dl : ℕ} (hsize : Measures c (pre ++ v) k dl) : parseColumn env a i c.code s = (do
      let (s', stores) ← placeColumn env a.body i dl { s with p := s.p + k, columnMeta := some c.code }
      .done ({ s' with p := s'.p + dl }, stores)) := by
  obtain ⟨parse, hparse, heq⟩ := h.parse_eq hsize
  rw [← hcmp] at heq
  simp only [parseColumn, hparse, heq, Outcome.defined_some, Outcome.done_bind]

theorem nextCol_done {t : UInt8} (h : s.columnMeta = some t) : nextCol s =
    .done { s with j := s.j + 1, cmp := s.cmp + (rsColumnMeta t).metaLen } := by
  simp [nextCol, h]

theorem nextCol_meta {s' : RowCursor} (h : nextCol s = .done s') : ∃ t, s.columnMeta = some t := by
  obtain ⟨t, ht, -⟩ := Outcome.bind_eq_done.mp h
  exact ⟨t, Outcome.defined_eq_done.mp ht⟩

structure RowCursor.Past (s' s : RowCursor) (c : Column) (cell : Cell) (t : UInt8) : Prop where
  p : s'.p = s.p + cell.bytes.length
  j : s'.j = s.j + 1
  cmp : s'.cmp = s.cmp + (rsColumnMeta t).metaLen
  columnMeta : s'.columnMeta = some t

/-- A value that is fine is passed over, and stored if it is asked for. -/
theorem Reads.parseColumn_done (henv : env.Ok) (h : Reads a i rank right s.p ((c, .value pre v) :: row) rest)
    (hcmp : s.cmp = right) (hfine : Fine (env.pasArr i) c pre v) : ∃ pooled, parseColumn env a i c.code s =
      .done ({ s with p := s.p + (pre ++ v).length, columnMeta := some c.code, pooled := pooled },
        (env.pasArr i).store env.dpool v) := by
  rcases hfine.2 with hsize | ⟨hpos, k, dl, hsize, hlen⟩
  · obtain ⟨pooled, hplace⟩ := placeColumn_done
      (s := { s with p := s.p + pre.length, columnMeta := some c.code }) henv h.slice_eq hfine.1
    refine ⟨pooled, ?_⟩
    rw [h.parseColumn_eq hcmp hsize, hplace, Outcome.done_bind, List.length_append, ← Nat.add_assoc]
  · have hstore : (env.pasArr i).store env.dpool v = [] := if_pos hpos
    refine ⟨s.pooled, ?_⟩
    rw [h.parseColumn_eq hcmp hsize, placeColumn, if_pos hpos, Outcome.done_bind, hstore, ← hlen, ← Nat.add_assoc]

/-- A column that the loop meets in the right place is decoded. -/
theorem Reads.column_done (henv : env.Ok) (h : Reads a i rank right s.p ((c, cell) :: row) rest)
    (hrank : cell.used → s.j = rank) (hcmp : (∃ pre v, cell = .value pre v) → s.cmp = right)
    {t : UInt8} (hmeta : cell.nextMeta c s.columnMeta = some t) (hfine : cell.Fine (env.pasArr i) c) :
    ∃ s', rsDmBinlogColumn env a i s =
        .done (s', ⟨s.cmp, if cell.used then some rank else none⟩, cell.stores env.dpool (env.pasArr i)) ∧
      s'.Past s c cell t := by
  cases cell with
  | unused =>
    have hnext := nextCol_done (s := s) hmeta
    refine ⟨{ s with j := s.j + 1, cmp := s.cmp + (rsColumnMeta t).metaLen }, ?_, rfl, rfl, rfl, hmeta⟩
    simp [rsDmBinlogColumn, h.type_eq, h.used_eq, Cell.used, hnext, Cell.stores]
  | null =>
    obtain rfl : rank = s.j := (hrank rfl).symm
    have hnext := nextCol_done (s := s) hmeta
    have hbit := (bitsFrom_cons.mp h.nullBits).1
    refine ⟨{ s with j := s.j + 1, cmp := s.cmp + (rsColumnMeta t).metaLen }, ?_, rfl, rfl, rfl, hmeta⟩
    simp [rsDmBinlogColumn, h.type_eq, h.used_eq, Cell.used, hbit, hnext, Cell.stores]
  | value pre v =>
    obtain rfl : rank = s.j := (hrank rfl).symm
    have hbit := (bitsFrom_cons.mp h.nullBits).1
    obtain ⟨pooled, hparse⟩ := h.parseColumn_done henv (hcmp ⟨pre, v, rfl⟩) hfine
    have hnext := nextCol_done (s := { s with
      p := s.p + (pre ++ v).length, columnMeta := some c.code, pooled := pooled }) hmeta
    refine ⟨⟨s.p + (pre ++ v).length, s.j + 1, s.cmp + (rsColumnMeta t).metaLen, some c.code, pooled⟩,
      ?_, rfl, rfl, rfl, hmeta⟩
    simp only [rsDmBinlogColumn, h.type_eq, h.used_eq, Cell.used, hbit, hparse, hnext, Cell.stores,
      Outcome.defined_some, Outcome.done_bind, Bool.not_true, Bool.false_eq_true, if_false, if_true]

/-- Where the cursors stand at a column does not depend on what is found there. -/
theorem column_visit {used : Bool} (hused : bitAt a.ubp i = some used)
    {r : RowCursor × Visit × List RowStore} (hrun : rsDmBinlogColumn env a i s = .done r) :
    r.2.1 = ⟨s.cmp, if used then some s.j else none⟩ := by
  obtain ⟨t, -, hrun⟩ := Outcome.bind_eq_done.mp hrun
  rw [hused, Outcome.defined_some, Outcome.done_bind] at hrun
  cases used with
  | false =>
    obtain ⟨s', -, hr⟩ := Outcome.bind_eq_done.mp hrun
    cases hr
    rfl
  | true =>
    obtain ⟨isNull, -, hrun⟩ := Outcome.bind_eq_done.mp hrun
    cases isNull with
    | true =>
      obtain ⟨s', -, hr⟩ := Outcome.bind_eq_done.mp hrun
      cases hr
      rfl
    | false =>
      obtain ⟨⟨s', stores⟩, -, hrun⟩ := Outcome.bind_eq_done.mp hrun
      obtain ⟨s', -, hr⟩ := Outcome.bind_eq_done.mp hrun
      cases hr
      rfl

/-- A value that is consumed and stored as its entry says is fine. -/
theorem Reads.parseColumn_fine (h : Reads a i rank right s.p ((c, .value pre v) :: row) rest)
    (hcmp : s.cmp = right) (hconsumes : Consumes c (pre ++ v)) {s' : RowCursor} {stores ss tt : List RowStore}
    (hrun : parseColumn env a i c.code s = .done (s', stores))
    (hstores : stores ++ ss = (env.pasArr i).store env.dpool v ++ tt) : Fine (env.pasArr i) c pre v := by
  obtain ⟨k, dl, hsize, hlen⟩ := id hconsumes
  rw [h.parseColumn_eq hcmp hsize] at hrun
  obtain ⟨⟨s1, stores1⟩, hplace, hdone⟩ := Outcome.bind_eq_done.mp hrun
  cases hdone
  rw [List.length_append] at hlen
  by_cases hdl : dl = v.length
  · obtain rfl : k = pre.length := by omega
    subst hdl
    exact ⟨placeColumn_takes hplace, Or.inl hsize⟩
  · have hpos : (env.pasArr i).pos = -1 := by
      by_contra hpos
      obtain ⟨value, hvalue, rfl⟩ := placeColumn_stores hplace hpos
      exact hdl (hvalue.symm.trans (store_length hpos hstores))
    exact ⟨Or.inl hpos, Or.inr ⟨hpos, hconsumes⟩⟩

/-- The loop gets past a column with the right bit, and at a value with the right metadata, only
where `meta` points somewhere and the value is fine. -/
theorem Reads.column_right (h : Reads a i rank right s.p ((c, cell) :: row) rest)
    (hrank : cell.used → s.j = rank) (hcmp : (∃ pre v, cell = .value pre v) → s.cmp = right)
    (hconsumed : Row.Consumed ((c, cell) :: row)) {s' : RowCursor} {visit : Visit} {stores ss tt : List RowStore}
    (hrun : rsDmBinlogColumn env a i s = .done (s', visit, stores))
    (hstores : stores ++ ss = cell.stores env.dpool (env.pasArr i) ++ tt) :
    (∃ t, cell.nextMeta c s.columnMeta = some t) ∧ cell.Fine (env.pasArr i) c := by
  simp only [rsDmBinlogColumn, h.type_eq, h.used_eq, Outcome.defined_some, Outcome.done_bind] at hrun
  cases cell with
  | unused =>
    obtain ⟨s', hnext, -⟩ := Outcome.bind_eq_done.mp hrun
    exact ⟨nextCol_meta hnext, trivial⟩
  | null =>
    have hbit := (bitsFrom_cons.mp h.nullBits).1
    rw [← hrank rfl] at hbit
    simp only [hbit, Cell.used, Outcome.defined_some, Outcome.done_bind] at hrun
    obtain ⟨s', hnext, -⟩ := Outcome.bind_eq_done.mp hrun
    exact ⟨nextCol_meta hnext, trivial⟩
  | value pre v =>
    have hbit := (bitsFrom_cons.mp h.nullBits).1
    rw [← hrank rfl] at hbit
    simp only [hbit, Cell.used, Outcome.defined_some, Outcome.done_bind] at hrun
    obtain ⟨⟨s1, stores1⟩, hparse, hrun⟩ := Outcome.bind_eq_done.mp hrun
    obtain ⟨s2, -, hdone⟩ := Outcome.bind_eq_done.mp hrun
    cases hdone
    exact ⟨⟨c.code, rfl⟩, h.parseColumn_fine (hcmp ⟨pre, v, rfl⟩)
        (hconsumed c pre v List.mem_cons_self) hparse hstores⟩

/-- A row on which both cursors keep right is decoded. By induction on the columns to go; the
places in the arrays move on in step with the image. -/
theorem Reads.columns_done (henv : env.Ok) (hP : ∀ pre v, P (.value pre v))
    (h : Reads a i rank right s.p row rest) (hranks : row.RanksRight s.j rank)
    (hcursor : row.CursorRight P s.columnMeta s.cmp right) (hfine : row.AllFine env i) :
    ∃ s' vs, rsDmBinlogColumns env a row.length i s = .done (s', vs, row.stores env i) ∧
      s'.p = s.p + row.bytes.length ∧ s'.columnMeta = row.lastMeta s.columnMeta ∧
      row.VisitsRight P right rank vs := by
  induction row generalizing i rank right s with
  | nil => exact ⟨s, [], rfl, rfl, rfl, trivial⟩
  | cons x row ih =>
    obtain ⟨c, cell⟩ := x
    obtain ⟨hrank, hranks⟩ := hranks
    obtain ⟨hcmp, t, hmeta, hcursor⟩ := hcursor
    obtain ⟨hcell, hfine⟩ := hfine
    have hvalue : (∃ pre v, cell = .value pre v) → s.cmp = right := by
      rintro ⟨pre, v, rfl⟩
      exact hcmp (hP pre v)
    obtain ⟨s1, hcol, hpast⟩ := h.column_done henv hrank hvalue hmeta hcell
    have hnext := h.next
    rw [← hpast.p] at hnext
    rw [← hpast.j] at hranks
    rw [← hpast.cmp, ← hpast.columnMeta] at hcursor
    obtain ⟨s2, vs, hrun, hp, hlast, hvisits⟩ := ih hnext hranks hcursor hfine
    refine ⟨s2, ⟨s.cmp, if cell.used then some rank else none⟩ :: vs, ?_, ?_, ?_, hcmp, rfl, hvisits⟩
    · simp [rsDmBinlogColumns, hcol, hrun, Row.stores]
    · rw [hp, hpast.p, Row.bytes, Row.bytes, List.flatMap_cons, List.length_append, Nat.add_assoc]
    · rw [hlast, hpast.columnMeta, ← hmeta, Row.lastMeta]

/-- At the first column the bit and the cursors are right. -/
theorem Row.Steered.head {vs : List Visit} (hP : ∀ pre v, P (.value pre v))
    (h : Row.Steered P s.j s.cmp right rank ((c, cell) :: row)
      (⟨s.cmp, if cell.used then some s.j else none⟩ :: vs)) :
    (cell.used → s.j = rank) ∧ (P cell → s.cmp = right) ∧ ((∃ pre v, cell = .value pre v) → s.cmp = right) := by
  rcases h with ⟨hcmp, hbit, -⟩ | ⟨-, hj, hcmp⟩
  · refine ⟨fun hused => by simpa [hused] using hbit, hcmp, ?_⟩
    rintro ⟨pre, v, rfl⟩
    exact hcmp (hP pre v)
  · exact ⟨fun _ => hj, fun _ => hcmp, fun _ => hcmp⟩

/-- Behind it, what shows that the cursors keep right is still there. -/
theorem Row.Steered.tail {visit : Visit} {vs : List Visit} {s' : RowCursor} {t : UInt8}
    (h : Row.Steered P s.j s.cmp right rank ((c, cell) :: row) (visit :: vs)) (hpast : s'.Past s c cell t)
    (hmeta : cell.nextMeta c s.columnMeta = some t) (hconsumed : Row.Consumed ((c, cell) :: row)) :
    Row.Steered P s'.j s'.cmp (right + c.metas.length) (cell.nextRank rank) row vs := by
  rcases h with ⟨-, -, hvisits⟩ | ⟨hfilled, hj, hcmp⟩
  · exact Or.inl hvisits
  · obtain ⟨pre, v, rfl⟩ : ∃ pre v, cell = .value pre v := hfilled _ List.mem_cons_self
    obtain rfl : c.code = t := by simpa [Cell.nextMeta] using hmeta
    refine Or.inr ⟨fun x hx => hfilled x (List.mem_cons_of_mem _ hx), hpast.j.trans ?_, hpast.cmp.trans ?_⟩
    · rw [hj]
      rfl
    · rw [hcmp, (hconsumed c pre v List.mem_cons_self).metas_length]

/-- The loop gets through a row whose values are consumed, right about every column and with the stores
that it ought to make, only if both cursors keep right and the values are fine. -/
theorem Reads.columns_right (henv : env.Ok) (hP : ∀ pre v, P (.value pre v))
    (h : Reads a i rank right s.p row rest) (hconsumed : row.Consumed) {s' : RowCursor} {vs : List Visit}
    (hrun : rsDmBinlogColumns env a row.length i s = .done (s', vs, row.stores env i))
    (hsteered : row.Steered P s.j s.cmp right rank vs) :
    row.RanksRight s.j rank ∧ row.CursorRight P s.columnMeta s.cmp right ∧ row.AllFine env i := by
  induction row generalizing i rank right s s' vs with
  | nil => exact ⟨trivial, trivial, trivial⟩
  | cons x row ih =>
    obtain ⟨c, cell⟩ := x
    obtain ⟨⟨s1, v, stores⟩, hcol, hrun⟩ := Outcome.bind_eq_done.mp hrun
    obtain ⟨⟨s2, vs2, rest2⟩, hloop, hdone⟩ := Outcome.bind_eq_done.mp hrun
    obtain ⟨rfl, rfl, hstores⟩ : s2 = s' ∧ v :: vs2 = vs ∧
        stores ++ rest2 = cell.stores env.dpool (env.pasArr i) ++ Row.stores env (i + 1) row := by
      simpa [Row.stores] using hdone
    obtain rfl := column_visit h.used_eq hcol
    obtain ⟨hrank, hcmp, hvalue⟩ := hsteered.head hP
    obtain ⟨⟨t, hmeta⟩, hcell⟩ := h.column_right hrank hvalue hconsumed hcol hstores
    obtain ⟨s1', hcol', hpast⟩ := h.column_done henv hrank hvalue hmeta hcell
    obtain ⟨rfl, -, rfl⟩ : s1' = s1 ∧ _ ∧ cell.stores env.dpool (env.pasArr i) = stores := by
      simpa using hcol'.symm.trans hcol
    rw [List.append_cancel_left hstores] at hloop
    have hnext := h.next
    rw [← hpast.p] at hnext
    obtain ⟨hranks, hcursor, hfine⟩ :=
      ih hnext (fun c' pre v hmem => hconsumed c' pre v (List.mem_cons_of_mem _ hmem)) hloop
        (hsteered.tail hpast hmeta hconsumed)
    rw [hpast.j] at hranks
    rw [hpast.cmp, hpast.columnMeta] at hcursor
    exact ⟨⟨hrank, hranks⟩, ⟨hcmp, t, hmeta, hcursor⟩, hcell, hfine⟩

theorem Row.VisitsRight.length_eq {vs : List Visit} (h : row.VisitsRight P right rank vs) :
    vs.length = row.length := by
  induction row generalizing right rank vs with
  | nil =>
    cases vs with
    | nil => rfl
    | cons v vs => exact h.elim
  | cons x row ih =>
    cases vs with
    | nil => exact h.elim
    | cons v vs => rw [List.length_cons, List.length_cons, ih h.2.2]

theorem columns_length {n : ℕ} {s' : RowCursor} {vs : List Visit} {ss : List RowStore}
    (hrun : rsDmBinlogColumns env a n i s = .done (s', vs, ss)) : vs.length = n := by
  induction n generalizing i s s' vs ss with
  | zero =>
    cases hrun
    rfl
  | succ n ih =>
    obtain ⟨⟨s1, v, stores⟩, -, hrun⟩ := Outcome.bind_eq_done.mp hrun
    obtain ⟨⟨s2, vs2, rest2⟩, hloop, hr⟩ := Outcome.bind_eq_done.mp hrun
    cases hr
    rw [List.length_cons, ih hloop]

end MySQLSyncer.Slave
