import MySQLSyncer.Slave.FullImages
import MySQLSyncer.Slave.WidthColumns

/-! # Images that leave columns out

The null bitmap of such an image has a bit for every used column. The code reads a bitmap for all
columns, takes the index of a column for its rank, and moves the metadata cursor over an unused
column by the length that belongs to the last column with a value.
-/
namespace MySQLSyncer.Slave
open Lib MySQLSyncer.Core

def Cell.IsValue : Cell → Prop
  | .value _ _ => True
  | _ => False

def RowsEvent.Partial (ev : RowsEvent) : Prop :=
  false ∈ ev.used ∨ (ev.type = rsUpdateRowsEvent ∧ false ∈ ev.usedAfter)

def lastLen (last : Option UInt8) : ℕ := (last.map fun t => (rsColumnMeta t).metaLen).getD 0

namespace Row

/-- The columns in front of a value that have none, back to the last value or to the beginning of
the row, have as much metadata as if each had that of the last type with a value. Every column
without a value has such a type before it. -/
def GapsRight : Option UInt8 → List Column → Row → Prop
  | _, _, [] => True
  | last, gap, (c, cell) :: row => match cell with
    | .value _ _ => (gap.map fun g => g.metas.length).sum = gap.length * lastLen last ∧
        GapsRight (some c.code) [] row
    | _ => last ≠ none ∧ GapsRight last (gap ++ [c]) row

end Row

/-- The condition for the columns of an event that have no value: the used columns come first, their bitmap is
as long as one of all columns, and the gaps are right. -/
def RowsEvent.GapsRight (ev : RowsEvent) : Prop :=
  AlongImages (fun last img => img.row.UsedFirst ∧
    (img.row.usedFlags.count true + 7) / 8 = (img.row.length + 7) / 8 ∧ img.row.GapsRight last []) none ev.images

variable {env : RowEnv} {row : Row} {last : Option UInt8} {j rank : ℕ}

/-- The metadata cursor is right at every value exactly when the gaps in front of them are. -/
theorem cursorRight_iff_gapsRight (hconsumed : row.Consumed) (gap : List Column) (base : ℕ) :
    row.CursorRight Cell.IsValue last (base + gap.length * lastLen last)
      (base + (gap.map fun g => g.metas.length).sum) ↔ row.GapsRight last gap := by
  induction row generalizing last gap base with
  | nil => rfl
  | cons x row ih =>
    obtain ⟨c, cell⟩ := x
    have hrest : Row.Consumed row := fun c pre v hmem => hconsumed c pre v (List.mem_cons_of_mem _ hmem)
    cases cell with
    | value pre v =>
      have hlen := (hconsumed c pre v List.mem_cons_self).metas_length
      have hih := @ih (some c.code) hrest [] (base + gap.length * lastLen last + c.metas.length)
      simp only [List.length_nil, List.map_nil, List.sum_nil, Nat.zero_mul, Nat.add_zero] at hih
      constructor
      · rintro ⟨hcmp, t, ht, hcursor⟩
        obtain rfl : c.code = t := by simpa [Cell.nextMeta] using ht
        have heq := hcmp trivial
        rw [← heq, ← hlen] at hcursor
        exact ⟨by omega, hih.mp hcursor⟩
      · rintro ⟨hsum, hgaps⟩
        refine ⟨fun _ => by omega, c.code, rfl, ?_⟩
        rw [hsum, ← hlen]
        exact hih.mpr hgaps
    | unused | null =>
      constructor
      · rintro ⟨-, t, ht, hcursor⟩
        obtain rfl : last = some t := ht
        refine ⟨Option.some_ne_none t, (ih hrest (gap ++ [c]) base).mp ?_⟩
        simpa [lastLen, Nat.add_mul, Nat.add_assoc] using hcursor
      · rintro ⟨hne, hgaps⟩
        obtain ⟨t, rfl⟩ := Option.ne_none_iff_exists'.mp hne
        refine ⟨False.elim, t, rfl, ?_⟩
        simpa [lastLen, Nat.add_mul, Nat.add_assoc] using (ih hrest (gap ++ [c]) base).mpr hgaps

/-- An image is right at its values exactly when it meets the conditions and its values are fine. -/
theorem right_iff_gapsRight {img : RowImage} (last : Option UInt8) :
    img.Right Cell.IsValue env last ↔ (img.row.UsedFirst ∧
      (img.row.usedFlags.count true + 7) / 8 = (img.row.length + 7) / 8 ∧ img.row.GapsRight last []) ∧
      img.row.AllFine env 0 := by
  have hnull := img.isBitmap.length
  rw [Row.length_nullFlags] at hnull
  have hcursor (hfine : img.row.AllFine env 0) :
      img.row.CursorRight Cell.IsValue last 0 0 ↔ img.row.GapsRight last [] := by
    have h := @cursorRight_iff_gapsRight img.row last hfine.consumed [] 0
    simpa only [List.length_nil, List.map_nil, List.sum_nil, Nat.zero_mul, Nat.add_zero] using h
  rw [← @Row.ranksRight_iff_usedFirst img.row 0, ← hnull]
  constructor
  · intro h
    exact ⟨⟨h.ranks, h.nullLen, (hcursor h.fine).mp h.cursor⟩, h.fine⟩
  · rintro ⟨⟨hranks, hlen, hgaps⟩, hfine⟩
    exact ⟨hranks, hlen, (hcursor hfine).mpr hgaps, hfine⟩

/-- Images of any columns, with values of any types, are read as they are written exactly when the count takes one
byte, the columns without a value are right, the values are readable, and those that go to the pool get a chunk
that is long enough. -/
theorem partial_decodes_iff (henv : env.Ok) (ev : RowsEvent) : ev.Consumed ∧ DecodesInChunks Cell.IsValue env ev ↔
    ev.schema.length ≤ 250 ∧ ev.GapsRight ∧ ev.Readable env ∧ ev.PoolFits env := by
  have himages : ImagesRight Cell.IsValue env none ev.images ↔ ev.GapsRight ∧ ev.Readable env := by
    rw [← allFine_iff_readable, RowsEvent.GapsRight, ← alongImages_and_iff]
    exact alongImages_congr fun img _ last => right_iff_gapsRight last
  rw [decodesInChunks_iff, ← and_assoc, decodes_iff_images henv (fun _ _ => trivial) ev, himages]
  simp only [and_assoc]

def samplePartial : RowsEvent :=
  intEvent [.value [] [7, 0, 0, 0], .unused] [1] [0] (by simp) (by decide) (by decide) (by decide) (by simp)

theorem intColumn_readable {pas : RsDmPosAlloc} {v : List UInt8} (h : pas.Takes v) : Readable pas intColumn [] v where
  parsed := nofun
  notBit := by decide
  counted := fun hcounted => absurd hcounted.1 (by decide)
  varstring := fun hcode => absurd hcode (by decide)
  skipped := fun hcounted => absurd hcounted.1 (by decide)
  takes := h

theorem partial_decodes_sample : samplePartial.Consumed ∧ DecodesInChunks Cell.IsValue sampleEnv samplePartial := by
  refine (partial_decodes_iff sampleEnv_ok samplePartial).mpr
    ⟨by decide, ⟨⟨?_, by decide, ?_⟩, trivial⟩, ?_, sampleEnv_poolFits samplePartial⟩
  · simp [Row.UsedFirst, Row.usedFlags, intRow, Cell.used]
  · simp [Row.GapsRight, intRow]
  · intro img himg i c pre v hi
    obtain rfl := List.mem_singleton.mp himg
    obtain ⟨cell, hcell, heq⟩ := List.mem_map.mp (List.mem_of_getElem? hi)
    obtain ⟨rfl, rfl⟩ := Prod.mk.inj heq
    obtain ⟨rfl, rfl⟩ : pre = [] ∧ v = [7, 0, 0, 0] := by simpa using hcell
    exact intColumn_readable (Or.inr (Or.inl rfl))

def sampleGap : RowsEvent :=
  intEvent [.value [] [7, 0, 0, 0], .unused, .null] [5] [2] (by simp) (by decide) (by decide) (by decide)
    (by simp)

/-- The third bit of the null bitmap is tested in place of the second, and a value is looked for
behind the end of the body. -/
theorem gap_undefined : rsDmBinlogRowEvent sampleEnv sampleGap.data sampleGap.data.length
    sampleGap.type = .undefined := by
  decide +kernel

theorem not_partial_decodes : ¬ ∀ (env : RowEnv) (ev : RowsEvent), env.Ok → ev.Plain → ev.Partial →
    Decodes Cell.IsValue env ev := by
  intro h
  have hpartial : sampleGap.Partial := Or.inl (by decide)
  obtain ⟨s, rs, hrun, -⟩ := h sampleEnv sampleGap sampleEnv_ok (intEvent_plain _ _ _ _ _ _ _) hpartial
  rw [gap_undefined] at hrun
  cases hrun

end MySQLSyncer.Slave
