import MySQLSyncer.Slave.PartialImages

/-! # Rows without nulls

Both cursors keep right as long as every value is consumed. What is stored of an `ENUM` or a `SET` lacks
its first byte, so that such a column must not be asked for.
-/
namespace MySQLSyncer.Slave
open Lib MySQLSyncer.Core Master

/-- A row is delivered: its handler is called behind all its columns, with the values stored. -/
structure RowTrace.Delivers (env : RowEnv) (t : Turn) (img : RowImage) (r : RowTrace) : Prop where
  handle : r.handle = t.1
  columns : r.columns.length = img.row.length
  stores : r.stores = img.row.stores env 0

/-- The call ends with `RS_OK` at the end of the body, every row is delivered, and no copy to the pool leaves
its chunk. -/
def RowsEvent.Delivered (env : RowEnv) (ev : RowsEvent) : Prop :=
  ev.Traced (fun t img r => r.Delivers env t img ∧ r.InChunks) env

variable {env : RowEnv} {img : RowImage}

theorem RowTrace.Right.delivers {P : Cell → Prop} {t : Turn} {r : RowTrace} (h : r.Right P env t img) :
    r.Delivers env t img := ⟨h.handle, h.columns.length_eq, h.stores⟩

/-- Where every column has a value, the cursors begin right and the null bitmap has its length. -/
theorem RowImage.shownBy_delivers (henv : env.Ok) (hfilled : img.row.Filled) (hconsumed : img.row.Consumed) :
    img.ShownBy (fun _ => True) env fun t img r => r.Delivers env t img := by
  intro schema type d h s s' used used' images r htype ho hb hrun hr
  have hlen : img.nullBitmap.length = (schema.length + 7) / 8 := by
    rw [img.isBitmap.length, length_nullFlags_full hfilled.full, hb.length_row]
  exact hb.step_right henv (fun _ _ => trivial) htype ho hconsumed hrun hlen hr.stores (Or.inr ⟨hfilled, rfl, rfl⟩)

/-- An image without nulls is right exactly when its values are fine. -/
theorem right_iff_allFine (hfilled : img.row.Filled) (last : Option UInt8) :
    img.Right (fun _ => True) env last ↔ img.row.AllFine env 0 := by
  refine ⟨RowImage.Right.fine, fun hfine => ?_⟩
  have hnull : img.nullBitmap.length = (img.row.length + 7) / 8 := by
    rw [img.isBitmap.length, length_nullFlags_full hfilled.full]
  have hcursor : img.row.CursorRight (fun _ => True) last 0 0 :=
    (cursorRight_iff_nullsRight hfilled.full hfine.consumed 0).mpr (nullsRight_of_values hfilled)
  exact ⟨ranksRight_full hfilled.full 0, hnull, hcursor, hfine⟩

theorem imagesRight_iff_allFine {images : List RowImage} (hvalues : ∀ img ∈ images, img.row.Filled)
    (last : Option UInt8) : ImagesRight (fun _ => True) env last images ↔ ∀ img ∈ images, img.row.AllFine env 0 := by
  induction images generalizing last with
  | nil => exact iff_of_true trivial fun _ hmem => absurd hmem List.not_mem_nil
  | cons img images ih =>
    rw [List.forall_mem_cons]
    exact and_congr (right_iff_allFine (hvalues img List.mem_cons_self) last)
      (ih (fun img' hmem => hvalues img' (List.mem_cons_of_mem _ hmem)) _)

/-- For every schema and every list of full images without nulls: all values are consumed and delivered exactly
when the count takes one byte, every value is readable, and those that go to the pool get a chunk that is long
enough. -/
theorem mixed_delivered_iff (henv : env.Ok) (ev : RowsEvent) (hvalues : ev.AllValues) :
    ev.Consumed ∧ ev.Delivered env ↔ ev.schema.length ≤ 250 ∧ ev.Readable env ∧ ev.PoolFits env := by
  have hfits : ev.Delivered env ↔ ev.Traced (fun t img r => r.Delivers env t img) env ∧ ev.PoolFits env :=
    traced_inChunks_iff fun _ _ _ hr => hr.stores
  have htraced := traced_iff (P := fun _ => True) (R := fun t img r => r.Delivers env t img) henv
      (fun _ _ => trivial) ev
    (fun _ _ _ hr => hr.delivers) (fun _ _ _ hr => hr.columns)
    fun hconsumed img hmem => RowImage.shownBy_delivers henv (hvalues img hmem) (hconsumed img hmem)
  rw [hfits, ← and_assoc, htraced, imagesRight_iff_allFine hvalues, allFine_iff_readable, and_assoc]

def insertOne (img : RowImage) (useBitmap : List UInt8) (hne : img.row ≠ []) (hlen : img.row.length ≤ 4096)
    (huse : IsBitmap useBitmap img.row.usedFlags) : RowsEvent where
  type := rsWriteRowsEvent
  schema := img.row.map Prod.fst
  head := leBytes 8 0
  used := img.row.usedFlags
  usedAfter := img.row.usedFlags
  useBitmap := useBitmap
  useBitmapAfter := useBitmap
  images := [img]
  isRowsEvent := isRowsEvent_write
  schema_ne := by simpa using hne
  schema_length := by simpa using hlen
  head_length := length_noHead
  used_length := by simp [Row.usedFlags]
  usedAfter_length := by simp [Row.usedFlags]
  isUseBitmap := huse
  isUseBitmapAfter := huse
  columns := by simp
  alternate := ⟨rfl, trivial⟩

def enumColumn : Column := ⟨254, [247, 1], by decide, fun _ => rfl⟩

theorem enumColumn_width : WidthColumn 254 [247, 1] 1 :=
  @WidthColumn.enum 247 1 (Or.inl rfl) (by decide) (by decide)

def enumImage : RowImage where
  row := [(enumColumn, .value [] [0]), (intColumn, .value [] [7, 0, 0, 0])]
  nullBitmap := [0]
  isBitmap := by decide
  sent := by
    intro c pre v hmem
    rcases List.mem_pair.mp hmem with heq | heq
    all_goals
      obtain ⟨rfl, hcell⟩ := Prod.mk.inj heq
      obtain ⟨rfl, rfl⟩ := Cell.value.inj hcell
    · exact .width enumColumn_width
    · exact .encoded (.fixed (by simp [fixedTypes, intColumn]) rfl)

def secondOnlyEnv : RowEnv :=
  { sampleEnv with pasArr := fun i => ⟨if i = 0 then -1 else 8, rsDmDataStack, 0⟩ }

theorem enumColumn_readable : Readable (secondOnlyEnv.pasArr 0) enumColumn [] [0] where
  parsed := nofun
  notBit := by decide
  counted := fun _ => ⟨0, [], rfl, rfl⟩
  varstring := fun hcode => absurd hcode (by decide)
  skipped := fun _ => rfl
  takes := Or.inl rfl

theorem mixed_delivered_sample : ∃ ev : RowsEvent, ev.images = [enumImage] ∧
    (ev.Consumed ∧ ev.Delivered secondOnlyEnv) := by
  have henv : secondOnlyEnv.Ok := ⟨fun _ => rfl, fun _ _ => rfl, fun _ => rfl⟩
  have hvalues : (insertOne enumImage [3] (by simp [enumImage]) (by decide) (by decide)).AllValues := by
    intro img himg x hx
    obtain rfl := List.mem_singleton.mp himg
    rcases List.mem_pair.mp hx with rfl | rfl <;> exact ⟨_, _, rfl⟩
  refine ⟨_, rfl, (mixed_delivered_iff henv _ hvalues).mpr ⟨by decide, fun img himg i c pre v hi => ?_, ?_⟩⟩
  · obtain rfl := List.mem_singleton.mp himg
    match i with
    | 0 =>
      obtain ⟨rfl, heq⟩ := Prod.mk.inj (Option.some.inj hi)
      obtain ⟨rfl, rfl⟩ := Cell.value.inj heq
      exact enumColumn_readable
    | 1 =>
      obtain ⟨rfl, heq⟩ := Prod.mk.inj (Option.some.inj hi)
      obtain ⟨rfl, rfl⟩ := Cell.value.inj heq
      exact intColumn_readable (Or.inr (Or.inl rfl))
    | i + 2 => cases hi
  · exact fun _ _ _ _ _ _ _ _ hstack => absurd rfl hstack

/-- The value zero of a `BIT(8)`. -/
def bitImage : RowImage where
  row := [(⟨16, [0, 1], by decide, fun _ => rfl⟩, .value [] [0])]
  nullBitmap := [0]
  isBitmap := by decide
  sent := by
    intro c pre v hmem
    obtain ⟨rfl, heq⟩ := Prod.mk.inj (List.mem_singleton.mp hmem)
    obtain ⟨rfl, rfl⟩ := Cell.value.inj heq
    exact .width (.bit (n := 8) (by decide) (by decide))

theorem not_mixed_delivered : ¬ ∀ (env : RowEnv) (ev : RowsEvent), env.Ok → ev.AllValues → ev.schema.length ≤ 250 →
    (∀ i, (env.pasArr i).alloc = rsDmDataStack) → ev.Delivered env := by
  intro h
  have hvalues : (insertOne bitImage [1] (by simp [bitImage]) (by decide) (by decide)).AllValues := by
    intro img himg x hx
    obtain rfl := List.mem_singleton.mp himg
    obtain rfl := List.mem_singleton.mp hx
    exact ⟨_, _, rfl⟩
  obtain ⟨s, rs, hrun, -, hrs⟩ := h sampleEnv _ sampleEnv_ok hvalues (by decide) fun _ => rfl
  have htwo : rsDmBinlogRowEvent sampleEnv (insertOne bitImage [1] (by simp [bitImage]) (by decide) (by decide)).data
      (insertOne bitImage [1] (by simp [bitImage]) (by decide) (by decide)).data.length rsWriteRowsEvent =
      .done (⟨12, 0, some 16, 0, 2⟩, [⟨1, [1], [⟨0, some 0⟩], [.stack 0 []], .write⟩,
        ⟨1, [1], [⟨0, some 0⟩], [.stack 0 []], .write⟩]) := by
    decide +kernel
  obtain ⟨-, rfl⟩ := Prod.mk.inj (Outcome.done.inj (hrun.symm.trans htwo))
  exact hrs.2

end MySQLSyncer.Slave
