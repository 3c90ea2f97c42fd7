import MySQLSyncer.Slave.DecodeRows
import MySQLSyncer.Slave.MessageChunks

/-! # Full images

Without nulls they are decoded. A null column skips the assignment of `meta`, so the metadata
cursor moves on by the length that belongs to the last column with a value.
-/
namespace MySQLSyncer.Slave
open Lib MySQLSyncer.Core

def RowsEvent.Full (ev : RowsEvent) : Prop := ∀ img ∈ ev.images, ∀ x ∈ img.row, x.2 ≠ .unused

/-- Every null column has a column with a value before it, in its row or an earlier one, and the
last such column has metadata of the same length unless the null column ends its row. -/
def Row.NullsRight : Option UInt8 → Row → Prop
  | _, [] => True
  | last, (c, cell) :: row => (cell = .null → ∃ t, last = some t ∧
      (row = [] ∨ (rsColumnMeta t).metaLen = c.metas.length)) ∧
      NullsRight (cell.nextMeta c last) row

/-- The condition for the null columns of a whole event, together with the entries taking the values. -/
def RowsEvent.NullsRight (env : RowEnv) (ev : RowsEvent) : Prop :=
  AlongImages (fun last img => img.row.NullsRight last ∧ img.row.Taken env 0) none ev.images

variable {env : RowEnv} {row : Row} {last : Option UInt8}

theorem usedFlags_full (h : ∀ x ∈ row, x.2 ≠ .unused) : ∀ b ∈ row.usedFlags, b = true := by
  intro b hb
  obtain ⟨x, hx, rfl⟩ := List.mem_map.mp hb
  have hne := h x hx
  cases hcell : x.2 with
  | unused => exact absurd hcell hne
  | null => rfl
  | value pre v => rfl

theorem ranksRight_full (h : ∀ x ∈ row, x.2 ≠ .unused) (j : ℕ) : row.RanksRight j j := by
  apply Row.ranksRight_iff_usedFirst.mpr
  exact List.pairwise_of_forall_mem_list fun a ha _ _ _ => usedFlags_full h a ha

theorem length_nullFlags_full (h : ∀ x ∈ row, x.2 ≠ .unused) : row.nullFlags.length = row.length := by
  have hall : ∀ b ∈ row.usedFlags, true = b := fun b hb => (usedFlags_full h b hb).symm
  rw [Row.length_nullFlags, List.count_eq_length.mpr hall, Row.usedFlags, List.length_map]

/-- A cursor that is right at every column is one that every column moves by its own length. -/
theorem cursorRight_iff_nullsRight (h : ∀ x ∈ row, x.2 ≠ .unused) (hconsumed : row.Consumed) (cmp : ℕ) :
    row.CursorRight (fun _ => True) last cmp cmp ↔ row.NullsRight last := by
  induction row generalizing last cmp with
  | nil => rfl
  | cons x row ih =>
    obtain ⟨c, cell⟩ := x
    have hrow : ∀ y ∈ row, y.2 ≠ .unused := fun y hy => h y (List.mem_cons_of_mem _ hy)
    have hrest : Row.Consumed row := fun c pre v hmem => hconsumed c pre v (List.mem_cons_of_mem _ hmem)
    cases cell with
    | unused => exact absurd rfl (h _ (List.mem_cons_self ..))
    | value pre v =>
      have hlen := (hconsumed c pre v List.mem_cons_self).metas_length
      have hih := @ih (some c.code) hrow hrest (cmp + c.metas.length)
      simp [Row.CursorRight, Row.NullsRight, Cell.nextMeta, ← hlen, hih]
    | null =>
      constructor
      · rintro ⟨-, t, ht, hcursor⟩
        change last = some t at ht
        cases row with
        | nil => exact ⟨fun _ => ⟨t, ht, Or.inl rfl⟩, trivial⟩
        | cons y row =>
          have heq : (rsColumnMeta t).metaLen = c.metas.length := by
            have hmoved := hcursor.1 trivial
            omega
          rw [heq, ih hrow hrest] at hcursor
          refine ⟨fun _ => ⟨t, ht, Or.inr heq⟩, ?_⟩
          change Row.NullsRight last _
          rw [ht]
          exact hcursor
      · rintro ⟨hnull, hright⟩
        obtain ⟨t, ht, hend⟩ := hnull rfl
        refine ⟨fun _ => rfl, t, ht, ?_⟩
        change Row.NullsRight last _ at hright
        rw [ht] at hright
        rcases hend with rfl | heq
        · trivial
        · rw [heq]
          exact (ih hrow hrest _).mpr hright

/-- A value that is found behind its length only has to be taken. -/
theorem allFine_iff_taken {i : ℕ} (h : ∀ c pre v, (c, .value pre v) ∈ row → Encodes c.code c.metas pre v) :
    row.AllFine env i ↔ row.Taken env i := by
  induction row generalizing i with
  | nil => rfl
  | cons x row ih =>
    obtain ⟨c, cell⟩ := x
    have hrest := @ih (i + 1) fun c pre v hmem => h c pre v (List.mem_cons_of_mem _ hmem)
    refine and_congr ?_ hrest
    cases cell with
    | unused | null => rfl
    | value pre v => exact ⟨And.left, fun htakes => ⟨htakes, Or.inl (h c pre v List.mem_cons_self).measures⟩⟩

/-- A full image is right exactly when its null columns are. -/
theorem right_iff_nullsRight {img : RowImage} (h : ∀ x ∈ img.row, x.2 ≠ .unused)
    (hplain : ∀ c pre v, (c, .value pre v) ∈ img.row → Encodes c.code c.metas pre v) (last : Option UInt8) :
    img.Right (fun _ => True) env last ↔ img.row.NullsRight last ∧ img.row.Taken env 0 := by
  have hconsumed : img.row.Consumed := fun c pre v hmem => (hplain c pre v hmem).measures.consumes
  rw [← cursorRight_iff_nullsRight h hconsumed 0, ← allFine_iff_taken hplain]
  constructor
  · intro hright
    exact ⟨hright.cursor, hright.fine⟩
  · rintro ⟨hcursor, hfine⟩
    refine ⟨ranksRight_full h 0, ?_, hcursor, hfine⟩
    rw [img.isBitmap.length, length_nullFlags_full h]

theorem RowsEvent.Plain.consumed {ev : RowsEvent} (hplain : ev.Plain) : ev.Consumed :=
  fun img himg c pre v hmem => (hplain img himg c pre v hmem).measures.consumes

/-- With full images, every column is decoded exactly when the count takes one byte, every null
column finds the metadata length it needs in the last column with a value, the values are taken, and
those that go to the pool get a chunk that is long enough. -/
theorem full_decodes_iff (henv : env.Ok) (ev : RowsEvent) (hplain : ev.Plain) (hfull : ev.Full) :
    DecodesInChunks (fun _ => True) env ev ↔ ev.schema.length ≤ 250 ∧ ev.NullsRight env ∧ ev.PoolFits env := by
  rw [decodesInChunks_iff, ← and_assoc]
  refine and_congr_left fun _ => ?_
  have hiff := decodes_iff_images (P := fun _ => True) henv (fun _ _ => trivial) ev
  rw [and_iff_right hplain.consumed] at hiff
  rw [hiff]
  exact and_congr_right fun _ =>
    alongImages_congr fun img hmem last => right_iff_nullsRight (hfull img hmem) (hplain img hmem) last

def RowsEvent.AllValues (ev : RowsEvent) : Prop := ∀ img ∈ ev.images, img.row.Filled

/-- No empty value is to be copied to the pool. -/
def RowsEvent.PoolFilled (env : RowEnv) (ev : RowsEvent) : Prop :=
  ∀ img ∈ ev.images, ∀ i c pre v, img.row[i]? = some (c, .value pre v) →
    (env.pasArr i).pos ≠ -1 → (env.pasArr i).alloc = rsDmDataPool → v ≠ []

/-- The entries for `n` columns ask for nothing or for one of the two places that there are. -/
def RowEnv.Known (env : RowEnv) (n : ℕ) : Prop := ∀ i < n, (env.pasArr i).pos = -1 ∨
  (env.pasArr i).alloc = rsDmDataStack ∨ (env.pasArr i).alloc = rsDmDataPool

theorem taken_iff_getElem? {i : ℕ} :
    row.Taken env i ↔ ∀ k (x : Column × Cell), row[k]? = some x → x.2.Takes (env.pasArr (i + k)) := by
  induction row generalizing i with
  | nil => simp [Row.Taken]
  | cons y row ih =>
    rw [Row.Taken, ih]
    constructor
    · rintro ⟨hhead, htail⟩ k x hx
      cases k with
      | zero =>
        obtain rfl : y = x := by simpa using hx
        exact hhead
      | succ k =>
        have h := htail k x (by simpa using hx)
        rwa [Nat.add_assoc, Nat.add_comm 1] at h
    · intro h
      refine ⟨h 0 y rfl, fun k x hx => ?_⟩
      rw [Nat.add_assoc, Nat.add_comm 1]
      exact h (k + 1) x (by simpa using hx)

theorem Row.Filled.full (h : row.Filled) : ∀ x ∈ row, x.2 ≠ .unused := by
  intro x hx
  obtain ⟨pre, v, hv⟩ := h x hx
  rw [hv]
  exact nofun

theorem nullsRight_of_values (h : row.Filled) : row.NullsRight last := by
  induction row generalizing last with
  | nil => trivial
  | cons x row ih =>
    obtain ⟨c, cell⟩ := x
    obtain ⟨pre, v, rfl⟩ := h _ (List.mem_cons_self ..)
    exact ⟨nofun, ih fun y hy => h y (List.mem_cons_of_mem _ hy)⟩

theorem alongImages_of_forall {Q : Option UInt8 → RowImage → Prop} {images : List RowImage}
    (h : ∀ img ∈ images, ∀ last, Q last img) : AlongImages Q last images := by
  induction images generalizing last with
  | nil => trivial
  | cons img images ih => exact ⟨h img (by simp) last, ih fun img' hmem => h img' (List.mem_cons_of_mem _ hmem)⟩

/-- Decoding undoes the encoding. Every value is stored where its entry says and nothing else is;
the handlers are called once for each image, by turns; and the call ends with `RS_OK` at the end
of the body. -/
theorem values_decode (henv : env.Ok) (ev : RowsEvent) (hplain : ev.Plain) (hn : ev.schema.length ≤ 250)
    (hvalues : ev.AllValues) (hknown : env.Known ev.schema.length) (hpool : ev.PoolFilled env) :
    Decodes (fun _ => True) env ev := by
  apply And.right
  rw [decodes_iff_images henv (fun _ _ => trivial) ev]
  refine ⟨hn, alongImages_of_forall fun img himg last => ?_⟩
  have hvals := hvalues img himg
  rw [right_iff_nullsRight hvals.full (hplain img himg) last, taken_iff_getElem?]
  refine ⟨nullsRight_of_values hvals, fun k x hx => ?_⟩
  obtain ⟨c, cell⟩ := x
  obtain ⟨pre, v, rfl⟩ := hvals _ (List.mem_of_getElem? hx)
  have hk : k < ev.schema.length := by
    rw [← ev.columns img himg, List.length_map]
    exact (List.getElem?_eq_some_iff.mp hx).1
  rw [Nat.zero_add]
  by_cases hpos : (env.pasArr k).pos = -1
  · exact Or.inl hpos
  · exact Or.inr (((hknown k hk).resolve_left hpos).imp id fun halloc =>
      ⟨halloc, hpool img himg k c pre v hx hpos halloc⟩)

def sampleEnv : RowEnv :=
  ⟨fun i => ⟨8 * i, rsDmDataStack, 0⟩, defaultPool, fun _ => true, fun _ => none, none⟩

theorem sampleEnv_ok : sampleEnv.Ok := ⟨fun _ => rfl, fun _ _ => rfl, fun _ => rfl⟩

def intColumn : Column := ⟨3, [], by decide, fun _ => rfl⟩

def intRow (cells : List Cell) : Row := cells.map fun cell => (intColumn, cell)

theorem intRow_encodes {cells : List Cell} (h : ∀ cell ∈ cells, ∀ pre v, cell = .value pre v →
    pre = [] ∧ v.length = 4)
    (c : Column) (pre v : List UInt8) (hmem : (c, .value pre v) ∈ intRow cells) : Encodes c.code c.metas pre v := by
  obtain ⟨cell, hcell, heq⟩ := List.mem_map.mp hmem
  cases heq
  obtain ⟨rfl, hv⟩ := h _ hcell pre v rfl
  exact .fixed (by simp [fixedTypes, intColumn]) hv

theorem length_noHead : (leBytes 8 0).length = 8 := length_leBytes 8 0

def intEvent (cells : List Cell) (useBitmap nullBitmap : List UInt8) (hne : cells ≠ [])
    (hlen : cells.length ≤ 4096) (huse : IsBitmap useBitmap (intRow cells).usedFlags)
    (hnull : IsBitmap nullBitmap (intRow cells).nullFlags)
    (hcells : ∀ cell ∈ cells, ∀ pre v, cell = .value pre v → pre = [] ∧ v.length = 4) : RowsEvent where
  type := rsWriteRowsEvent
  schema := cells.map fun _ => intColumn
  head := leBytes 8 0
  used := (intRow cells).usedFlags
  usedAfter := (intRow cells).usedFlags
  useBitmap := useBitmap
  useBitmapAfter := useBitmap
  images := [{
    row := intRow cells
    nullBitmap := nullBitmap
    isBitmap := hnull
    sent := fun c pre v hmem => .encoded (intRow_encodes hcells c pre v hmem) }]
  isRowsEvent := isRowsEvent_write
  schema_ne := by simpa using hne
  schema_length := by simpa using hlen
  head_length := length_noHead
  used_length := by simp [Row.usedFlags, intRow]
  usedAfter_length := by simp [Row.usedFlags, intRow]
  isUseBitmap := huse
  isUseBitmapAfter := huse
  columns := by simp [intRow]
  alternate := ⟨rfl, trivial⟩

theorem intEvent_plain {cells : List Cell} (useBitmap nullBitmap : List UInt8)
    (hne hlen huse hnull hcells) : (intEvent cells useBitmap nullBitmap hne hlen huse hnull hcells).Plain := by
  intro img himg c pre v hmem
  obtain rfl := List.mem_singleton.mp himg
  exact intRow_encodes hcells c pre v hmem

theorem intEvent_full {cells : List Cell} (hused : .unused ∉ cells) (useBitmap nullBitmap : List UInt8)
    (hne hlen huse hnull hcells) : (intEvent cells useBitmap nullBitmap hne hlen huse hnull hcells).Full := by
  intro img himg x hx
  obtain rfl := List.mem_singleton.mp himg
  obtain ⟨cell, hcell, rfl⟩ := List.mem_map.mp hx
  rintro rfl
  exact hused hcell

def sampleNulls : RowsEvent :=
  intEvent [.value [] [7, 0, 0, 0], .null] [3] [2] (by simp) (by decide) (by decide) (by decide) (by simp)

def sampleNullFirst : RowsEvent :=
  intEvent [.null] [1] [1] (by simp) (by decide) (by decide) (by decide) (by simp)

theorem sampleEnv_poolFits (ev : RowsEvent) : ev.PoolFits sampleEnv :=
  fun _ _ _ _ _ _ _ _ hstack => absurd rfl hstack

theorem full_decodes_sample : DecodesInChunks (fun _ => True) sampleEnv sampleNulls := by
  refine (full_decodes_iff sampleEnv_ok sampleNulls (intEvent_plain _ _ _ _ _ _ _)
    (intEvent_full (by simp) _ _ _ _ _ _ _)).mpr ⟨by decide, ⟨⟨?_, ?_⟩, trivial⟩, sampleEnv_poolFits sampleNulls⟩
  · simp [intRow, Row.NullsRight, Cell.nextMeta, intColumn]
  · simp [intRow, Row.Taken, Cell.Takes, RsDmPosAlloc.Takes, sampleEnv]

theorem nullFirst_undefined : rsDmBinlogRowEvent sampleEnv sampleNullFirst.data
    sampleNullFirst.data.length sampleNullFirst.type = .undefined := by
  decide +kernel

/-- The null column comes before any value, and `meta` is read as it was set: a null pointer. -/
theorem not_full_decodes : ¬ ∀ (env : RowEnv) (ev : RowsEvent), env.Ok → ev.Plain → ev.Full →
    Decodes (fun _ => True) env ev := by
  intro h
  obtain ⟨s, rs, hrun, -⟩ := h sampleEnv sampleNullFirst sampleEnv_ok (intEvent_plain _ _ _ _ _ _ _)
    (intEvent_full (by simp) _ _ _ _ _ _ _)
  rw [nullFirst_undefined] at hrun
  cases hrun

def sampleValues : RowsEvent :=
  intEvent [.value [] [7, 0, 0, 0], .value [] [8, 0, 0, 0]] [3] [0] (by simp) (by decide) (by decide)
    (by decide) (by simp)

theorem sampleValues_allValues : sampleValues.AllValues := by
  intro img himg x hx
  obtain rfl := List.mem_singleton.mp himg
  obtain ⟨cell, hcell, rfl⟩ := List.mem_map.mp hx
  rcases List.mem_pair.mp hcell with rfl | rfl <;> exact ⟨_, _, rfl⟩

theorem values_decode_sample : Decodes (fun _ => True) sampleEnv sampleValues :=
  values_decode sampleEnv_ok sampleValues (intEvent_plain _ _ _ _ _ _ _) (by decide) sampleValues_allValues
    (fun _ _ => Or.inr (Or.inl rfl)) (fun _ _ _ _ _ _ _ _ h => absurd h.symm rsDmDataPool_ne)

def unknownAllocEnv : RowEnv := { sampleEnv with pasArr := fun _ => ⟨0, 2, 0⟩ }

theorem unknownAlloc_failed : rsDmBinlogRowEvent unknownAllocEnv sampleValues.data
    sampleValues.data.length sampleValues.type = .failed := by
  decide +kernel

theorem not_values_decode : ¬ ∀ (env : RowEnv) (ev : RowsEvent), env.Ok → ev.Plain → ev.schema.length ≤ 250 →
    ev.AllValues → ev.PoolFilled env → Decodes (fun _ => True) env ev := by
  intro h
  obtain ⟨s, rs, hrun, -⟩ := h unknownAllocEnv sampleValues ⟨fun _ => rfl, fun _ _ => rfl, fun _ => rfl⟩
    (intEvent_plain _ _ _ _ _ _ _) (by decide) sampleValues_allValues
    (fun _ _ _ _ _ _ _ _ h => absurd (show (2 : ℤ) = 1 from h) (by decide))
  rw [unknownAlloc_failed] at hrun
  cases hrun

end MySQLSyncer.Slave
