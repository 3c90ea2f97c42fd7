import MySQLSyncer.Lib.Bitmap
import MySQLSyncer.Lib.Outcome
import MySQLSyncer.Lib.Slice
import MySQLSyncer.Core.Code
import MySQLSyncer.Core.PallocFits
import MySQLSyncer.Master.ParseBinlog
import MySQLSyncer.Slave.ColumnMeta

/-! # How the slave decodes the rows of an event

The second half of `rs_dm_binlog_row`, from the event body on. Pointers into the body and into
the copied arrays are offsets. A read behind the end of an array is undefined, and so is a
loop that never ends. `before_parse_handle` and `after_parse_handle` only get the object and
are left out.
-/
namespace MySQLSyncer.Slave
open Lib MySQLSyncer.Core Master

def rsDmDataStack : ℤ := 0
def rsDmDataPool : ℤ := 1
def rsDmTypeHex : ℤ := 1

structure RsDmPosAlloc where
  pos : ℤ
  alloc : ℤ
  type : ℤ

inductive RowHandle where
  | write
  | beforeUpdate
  | update
  | delete
  deriving DecidableEq, Repr

/-- What the caller of `rs_dm_binlog_row` brings: its array; the pool, of which no call changes the
sizes of the classes, and whether it has a chunk for one request after the other; and the handlers
with their answers for one row after the other. -/
structure RowEnv where
  pasArr : ℕ → RsDmPosAlloc
  dpool : RsPool
  palloc : ℕ → Bool
  handle : RowHandle → Option (ℕ → RsCode)
  freeHandle : Option (ℕ → RsCode)

/-- A value written into the object at `pos`, or copied to a chunk of `room` bytes for the `rs_pstr_t`
there. The copy is as long as the value, whatever the room. -/
inductive RowStore where
  | stack (pos : ℤ) (bytes : List UInt8)
  | pool (pos : ℤ) (room : ℕ) (data : List UInt8)
  deriving DecidableEq

/-- Where the metadata cursor stands at a column, and the bit of `null_bits` that is tested. -/
structure Visit where
  cmp : ℕ
  bit : Option ℕ
  deriving DecidableEq

/-- What is seen of a row: the length of its `null_bits`, its `ubp`, its columns, what was
stored, and which handler it went to. -/
structure RowTrace where
  nullLen : ℕ
  used : List UInt8
  columns : List Visit
  stores : List RowStore
  handle : RowHandle
  deriving DecidableEq

structure RowArrays where
  ct : List UInt8
  cm : List UInt8
  body : List UInt8
  ubp : List UInt8
  nullBits : List UInt8

/-- The variables of the column loop besides `i`. `columnMeta` is the pointer `meta`, as the type of
the entry it points to; `pooled` counts the requests to the pool. -/
structure RowCursor where
  p : ℕ
  j : ℕ
  cmp : ℕ
  columnMeta : Option UInt8
  pooled : ℕ

def nextCol (c : RowCursor) : Outcome RowCursor := do
  let t ← .defined c.columnMeta
  .done { c with j := c.j + 1, cmp := c.cmp + (rsColumnMeta t).metaLen }

/-- The part behind the comment `parse`. The pool has no class for an empty value. -/
def placeColumn (env : RowEnv) (body : List UInt8) (i dl : ℕ) (c : RowCursor) :
    Outcome (RowCursor × List RowStore) :=
  let pas := env.pasArr i
  if pas.pos = -1 then .done (c, [])
  else if pas.alloc = rsDmDataStack then do
    let value ← .defined (slice body c.p dl)
    .done (c, [.stack pas.pos (if pas.type = rsDmTypeHex then leBytes 4 dl ++ value else value)])
  else if pas.alloc = rsDmDataPool then
    if dl = 0 then .undefined
    else do
      Outcome.checked (env.palloc c.pooled)
      let value ← .defined (slice body c.p dl)
      .done ({ c with pooled := c.pooled + 1 }, [.pool pas.pos (env.dpool.room dl) value])
  else .failed

/-- A column with a value: from the assignment of `meta` to `skip_col`. -/
def parseColumn (env : RowEnv) (a : RowArrays) (i : ℕ) (t : UInt8) (c : RowCursor) :
    Outcome (RowCursor × List RowStore) :=
  let m := rsColumnMeta t
  match m.parseHandle with
  | none => .failed
  | some parse => do
    let (packLen, dl) ← .defined (parse (a.body.drop c.p) (a.cm.drop c.cmp) m.metaLen m.fixedLen)
    let (c, stores) ← placeColumn env a.body i dl { c with p := c.p + packLen, columnMeta := some t }
    .done ({ c with p := c.p + dl }, stores)

def rsDmBinlogColumn (env : RowEnv) (a : RowArrays) (i : ℕ) (c : RowCursor) :
    Outcome (RowCursor × Visit × List RowStore) := do
  let t ← .defined a.ct[i]?
  let used ← .defined (bitAt a.ubp i)
  if !used then
    let c' ← nextCol c
    .done (c', ⟨c.cmp, none⟩, [])
  else
    let isNull ← .defined (bitAt a.nullBits c.j)
    if isNull then
      let c' ← nextCol c
      .done (c', ⟨c.cmp, some c.j⟩, [])
    else
      let (c', stores) ← parseColumn env a i t c
      let c' ← nextCol c'
      .done (c', ⟨c.cmp, some c.j⟩, stores)

def rsDmBinlogColumns (env : RowEnv) (a : RowArrays) :
    ℕ → ℕ → RowCursor → Outcome (RowCursor × List Visit × List RowStore)
  | 0, _, c => .done (c, [], [])
  | n + 1, i, c => do
    let (c, v, stores) ← rsDmBinlogColumn env a i c
    let (c, vs, rest) ← rsDmBinlogColumns env a n (i + 1) c
    .done (c, v :: vs, stores ++ rest)

/-- What stands in front of the rows: `cn`, `un`, the bitmaps, and where the rows begin. Only an
update has the second bitmap. -/
structure RowHead where
  cn : UInt32
  un : UInt32
  useBits : List UInt8
  useBitsAfter : List UInt8
  p : ℕ

def rowHead (type : UInt8) (body : List UInt8) : Option RowHead := do
  let (n, cl) ← rsParsePackedInteger (body.drop 8)
  let cn := UInt32.ofNat n
  let un := (cn + 7) / 8
  let p := 8 + cl
  let useBits ← slice body p un.toNat
  let p := p + un.toNat
  if type = rsUpdateRowsEvent then
    let useBitsAfter ← slice body p un.toNat
    some ⟨cn, un, useBits, useBitsAfter, p + un.toNat⟩
  else some ⟨cn, un, useBits, [], p⟩

structure RowState where
  p : ℕ
  before : ℕ
  columnMeta : Option UInt8
  pooled : ℕ
  row : ℕ
  deriving DecidableEq

def rowHandle (type : UInt8) (before : ℕ) : Outcome (RowHandle × ℕ) :=
  if type = rsWriteRowsEvent then .done (.write, before)
  else if type = rsUpdateRowsEvent then
    if before = 1 then .done (.update, 0) else .done (.beforeUpdate, before + 1)
  else if type = rsDeleteRowsEvent then .done (.delete, before)
  else .failed

/-- A handler that is registered and does not answer `RS_ERR`, or none. -/
def answersOk (handle : Option (ℕ → RsCode)) (row : ℕ) : Bool :=
  handle.all fun f => f row ≠ .err

def rsDmBinlogRowStep (env : RowEnv) (d : RowData) (type : UInt8) (h : RowHead) (s : RowState) :
    Outcome (RowState × RowTrace) := do
  let nn := (h.un * 8 + 7) / 8
  let nullBits ← .defined (slice d.body s.p nn.toNat)
  let ubp := if type ≠ rsUpdateRowsEvent ∨ s.before = 0 then h.useBits else h.useBitsAfter
  let (c, columns, stores) ← rsDmBinlogColumns env ⟨d.ct, d.cm, d.body, ubp, nullBits⟩ h.cn.toNat 0
    ⟨s.p + nn.toNat, 0, 0, s.columnMeta, s.pooled⟩
  let (handle, before) ← rowHandle type s.before
  Outcome.checked (answersOk (env.handle handle) s.row)
  Outcome.checked (answersOk env.freeHandle s.row)
  .done (⟨c.p, before, c.columnMeta, c.pooled, s.row + 1⟩, ⟨nn.toNat, ubp, columns, stores, handle⟩)

/-- The row loop. Every turn of a table with columns takes at least one byte. -/
def rsDmBinlogRows (env : RowEnv) (d : RowData) (type : UInt8) (h : RowHead) :
    ℕ → RowState → Outcome (RowState × List RowTrace)
  | 0, _ => .undefined
  | fuel + 1, s =>
    if s.p < d.body.length then do
      let (s, r) ← rsDmBinlogRowStep env d type h s
      let (s, rs) ← rsDmBinlogRows env d type h fuel s
      .done (s, r :: rs)
    else .done (s, [])

/-- `rs_dm_binlog_row`; `done` stands for `RS_OK`, with the variables at the end. -/
def rsDmBinlogRowEvent (env : RowEnv) (data : List UInt8) (len : ℕ) (type : UInt8) :
    Outcome (RowState × List RowTrace) := do
  let d ← .defined (rsDmBinlogRow data len)
  let h ← .defined (rowHead type d.body)
  rsDmBinlogRows env d type h (d.body.length + 1) ⟨h.p, 0, none, 0, 0⟩

variable {env : RowEnv} {a : RowArrays} {c c' : RowCursor} {i n dl : ℕ} {type : UInt8} {d : RowData}
  {h : RowHead} {s s' : RowState}

theorem nextCol_p (hnext : nextCol c = .done c') : c'.p = c.p := by
  obtain ⟨t, -, hdone⟩ := Outcome.bind_eq_done.mp hnext
  cases hdone
  rfl

theorem placeColumn_p {body : List UInt8} {stores : List RowStore}
    (hplace : placeColumn env body i dl c = .done (c', stores)) : c'.p = c.p := by
  simp only [placeColumn] at hplace
  split at hplace
  · cases hplace
    rfl
  split at hplace
  · obtain ⟨value, -, hdone⟩ := Outcome.bind_eq_done.mp hplace
    cases hdone
    rfl
  split at hplace
  · split at hplace
    · cases hplace
    obtain ⟨-, -, hplace⟩ := Outcome.bind_eq_done.mp hplace
    obtain ⟨value, -, hdone⟩ := Outcome.bind_eq_done.mp hplace
    cases hdone
    rfl
  · cases hplace

theorem parseColumn_p {t : UInt8} {stores : List RowStore}
    (hparse : parseColumn env a i t c = .done (c', stores)) : c.p ≤ c'.p := by
  simp only [parseColumn] at hparse
  split at hparse
  · cases hparse
  · obtain ⟨⟨packLen, dl⟩, -, hparse⟩ := Outcome.bind_eq_done.mp hparse
    obtain ⟨⟨c1, stores1⟩, hplace, hdone⟩ := Outcome.bind_eq_done.mp hparse
    cases hdone
    have hp := placeColumn_p hplace
    change c.p ≤ c1.p + dl
    rw [hp]
    change c.p ≤ c.p + packLen + dl
    omega

theorem column_p {v : Visit} {stores : List RowStore}
    (hcol : rsDmBinlogColumn env a i c = .done (c', v, stores)) : c.p ≤ c'.p := by
  obtain ⟨t, -, hcol⟩ := Outcome.bind_eq_done.mp hcol
  obtain ⟨used, -, hcol⟩ := Outcome.bind_eq_done.mp hcol
  split_ifs at hcol
  · obtain ⟨c1, hnext, hdone⟩ := Outcome.bind_eq_done.mp hcol
    cases hdone
    exact (nextCol_p hnext).ge
  obtain ⟨isNull, -, hcol⟩ := Outcome.bind_eq_done.mp hcol
  split_ifs at hcol
  · obtain ⟨c1, hnext, hdone⟩ := Outcome.bind_eq_done.mp hcol
    cases hdone
    exact (nextCol_p hnext).ge
  · obtain ⟨⟨c1, stores1⟩, hparse, hcol⟩ := Outcome.bind_eq_done.mp hcol
    obtain ⟨c2, hnext, hdone⟩ := Outcome.bind_eq_done.mp hcol
    cases hdone
    exact (parseColumn_p hparse).trans (nextCol_p hnext).ge

theorem columns_p {vs : List Visit} {ss : List RowStore}
    (hrun : rsDmBinlogColumns env a n i c = .done (c', vs, ss)) : c.p ≤ c'.p := by
  induction n generalizing i c c' vs ss with
  | zero =>
    cases hrun
    exact le_rfl
  | succ n ih =>
    obtain ⟨⟨c1, v, stores⟩, hcol, hrun⟩ := Outcome.bind_eq_done.mp hrun
    obtain ⟨⟨c2, vs2, rest⟩, hloop, hdone⟩ := Outcome.bind_eq_done.mp hrun
    cases hdone
    exact (column_p hcol).trans (ih hloop)

theorem step_p {r : RowTrace} (hstep : rsDmBinlogRowStep env d type h s = .done (s', r)) :
    s.p + ((h.un * 8 + 7) / 8).toNat ≤ s'.p := by
  obtain ⟨nullBits, -, hstep⟩ := Outcome.bind_eq_done.mp hstep
  obtain ⟨⟨c, columns, stores⟩, hcols, hstep⟩ := Outcome.bind_eq_done.mp hstep
  obtain ⟨⟨handle, before⟩, -, hstep⟩ := Outcome.bind_eq_done.mp hstep
  obtain ⟨-, -, hstep⟩ := Outcome.bind_eq_done.mp hstep
  obtain ⟨-, -, hdone⟩ := Outcome.bind_eq_done.mp hstep
  cases hdone
  exact columns_p hcols

theorem rows_turn {fuel : ℕ} {t : RowState} {r : RowTrace} {rs : List RowTrace} (hlt : s.p < d.body.length)
    (hstep : rsDmBinlogRowStep env d type h s = .done (t, r))
    (hrun : rsDmBinlogRows env d type h fuel t = .done (s', rs)) :
    rsDmBinlogRows env d type h (fuel + 1) s = .done (s', r :: rs) := by
  rw [rsDmBinlogRows, if_pos hlt, hstep, Outcome.done_bind]
  simp only [hrun, Outcome.done_bind]

/-- The row loop ends at the end of the body, or behind a turn and the rest of the loop. -/
theorem rows_cases {fuel : ℕ} {rs : List RowTrace}
    (hrun : rsDmBinlogRows env d type h fuel s = .done (s', rs)) : (s' = s ∧ rs = []) ∨
      ∃ k t r rest, rsDmBinlogRowStep env d type h s = .done (t, r) ∧
        rsDmBinlogRows env d type h k t = .done (s', rest) ∧ rs = r :: rest := by
  cases fuel with
  | zero => cases hrun
  | succ k =>
    rw [rsDmBinlogRows] at hrun
    split_ifs at hrun
    · obtain ⟨⟨t, r⟩, hstep, hrun⟩ := Outcome.bind_eq_done.mp hrun
      obtain ⟨⟨_, rest⟩, hloop, hdone⟩ := Outcome.bind_eq_done.mp hrun
      cases hdone
      exact Or.inr ⟨k, t, r, rest, hstep, hloop, rfl⟩
    · cases hrun
      exact Or.inl ⟨rfl, rfl⟩

/-- The row loop of a table with a null bitmap has fuel enough: more of it changes nothing. -/
theorem rows_fuel (hnn : 0 < ((h.un * 8 + 7) / 8).toNat) {k l : ℕ} (hk : d.body.length ≤ k + s.p)
    (hl : d.body.length ≤ l + s.p) :
    rsDmBinlogRows env d type h (k + 1) s = rsDmBinlogRows env d type h (l + 1) s := by
  induction k generalizing l s with
  | zero => rw [rsDmBinlogRows, rsDmBinlogRows, if_neg (by omega), if_neg (by omega)]
  | succ k ih =>
    rw [rsDmBinlogRows, rsDmBinlogRows]
    split_ifs with hlt
    · cases hstep : rsDmBinlogRowStep env d type h s with
      | undefined => rfl
      | failed => rfl
      | done r =>
        have hp := step_p hstep
        cases l with
        | zero => omega
        | succ l =>
          have hrest : rsDmBinlogRows env d type h (k + 1) r.1 = rsDmBinlogRows env d type h (l + 1) r.1 :=
            ih (by omega) (by omega)
          simp only [Outcome.done_bind, hrest]
    · rfl

end MySQLSyncer.Slave
