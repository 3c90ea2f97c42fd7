import MySQLSyncer.Master.PackedCount
import MySQLSyncer.Slave.DecodeColumns

/-! # Decoding the images of an event

The row loop takes one image after the other. An update has two turns, with a handler and a
bitmap each; the other events have one. An event is decoded when every image is.
-/
namespace MySQLSyncer.Slave
open Lib MySQLSyncer.Core Master

abbrev Turn := RowHandle × List UInt8

def turn (type : UInt8) (useBits useBitsAfter : List UInt8) (before : ℕ) : Turn :=
  if type = rsWriteRowsEvent then (.write, useBits)
  else if type = rsUpdateRowsEvent then
    if before = 0 then (.beforeUpdate, useBits) else (.update, useBitsAfter)
  else (.delete, useBits)

def nextBefore (type : UInt8) (before : ℕ) : ℕ := if type = rsUpdateRowsEvent then 1 - before else before

/-- What is seen of a row is right for its image: the handler and the bitmap of its turn, the
length of the null bitmap, the columns as far as they are watched, and the stores. -/
structure RowTrace.Right (P : Cell → Prop) (env : RowEnv) (t : Turn) (img : RowImage)
    (r : RowTrace) : Prop where
  handle : r.handle = t.1
  used : r.used = t.2
  nullLen : r.nullLen = img.nullBitmap.length
  columns : img.row.VisitsRight P 0 0 r.columns
  stores : r.stores = img.row.stores env 0

def RowTrace.InChunks (r : RowTrace) : Prop :=
  ∀ pos room data, .pool pos room data ∈ r.stores → data.length ≤ room

def Traces (R : Turn → RowImage → RowTrace → Prop) : Turn → Turn → List RowImage → List RowTrace → Prop
  | _, _, [], [] => True
  | first, second, img :: images, r :: rs => R first img r ∧ Traces R second first images rs
  | _, _, _, _ => False

structure RowImage.Right (P : Cell → Prop) (env : RowEnv) (last : Option UInt8) (img : RowImage) : Prop where
  ranks : img.row.RanksRight 0 0
  nullLen : img.nullBitmap.length = (img.row.length + 7) / 8
  cursor : img.row.CursorRight P last 0 0
  fine : img.row.AllFine env 0

/-- A property of every image and of the type that `meta` points to in front of it; the pointer
survives from one row to the next. -/
def AlongImages (Q : Option UInt8 → RowImage → Prop) : Option UInt8 → List RowImage → Prop
  | _, [] => True
  | last, img :: images => Q last img ∧ AlongImages Q (img.row.lastMeta last) images

def ImagesRight (P : Cell → Prop) (env : RowEnv) : Option UInt8 → List RowImage → Prop :=
  AlongImages fun last img => img.Right P env last

/-- The call ends with `RS_OK` and the cursor at the end of the body, and `R` holds of every row. -/
def RowsEvent.Traced (R : Turn → RowImage → RowTrace → Prop) (env : RowEnv) (ev : RowsEvent) : Prop :=
  ∃ s rs, rsDmBinlogRowEvent env ev.data ev.data.length ev.type = .done (s, rs) ∧ s.p = ev.body.length ∧
    Traces R (turn ev.type ev.useBitmap ev.useBitmapAfter 0)
      (turn ev.type ev.useBitmap ev.useBitmapAfter (nextBefore ev.type 0)) ev.images rs

def Decodes (P : Cell → Prop) (env : RowEnv) (ev : RowsEvent) : Prop :=
  ev.Traced (fun t img r => r.Right P env t img) env

def DecodesInChunks (P : Cell → Prop) (env : RowEnv) (ev : RowsEvent) : Prop :=
  ev.Traced (fun t img r => r.Right P env t img ∧ r.InChunks) env

/-- The chunk for every value that goes to the pool is as long as the value. -/
def RowsEvent.PoolFits (env : RowEnv) (ev : RowsEvent) : Prop :=
  ∀ img ∈ ev.images, ∀ i c pre v, img.row[i]? = some (c, .value pre v) →
    (env.pasArr i).pos ≠ -1 → (env.pasArr i).alloc ≠ rsDmDataStack → env.dpool.Fits v.length

variable {P : Cell → Prop} {env : RowEnv} {type : UInt8} {schema : List Column} {d : RowData}
  {h : RowHead} {s : RowState} {img : RowImage} {images : List RowImage} {before : ℕ}
  {used used' : List Bool} {first second : Turn} {R : Turn → RowImage → RowTrace → Prop}

theorem alongImages_congr {Q Q' : Option UInt8 → RowImage → Prop} {last : Option UInt8}
    (hQ : ∀ img ∈ images, ∀ last, Q last img ↔ Q' last img) :
    AlongImages Q last images ↔ AlongImages Q' last images := by
  induction images generalizing last with
  | nil => rfl
  | cons img images ih =>
    have hhead := hQ img (by simp) last
    have htail := @ih (img.row.lastMeta last) fun img' hmem => hQ img' (List.mem_cons_of_mem _ hmem)
    exact and_congr hhead htail

/-- What does not depend on the pointer can be asked of the images. -/
theorem alongImages_and_iff {Q : Option UInt8 → RowImage → Prop} {C : RowImage → Prop} {last : Option UInt8} :
    AlongImages (fun last img => Q last img ∧ C img) last images ↔
      AlongImages Q last images ∧ ∀ img ∈ images, C img := by
  induction images generalizing last with
  | nil => exact iff_of_true trivial ⟨trivial, fun _ hmem => absurd hmem List.not_mem_nil⟩
  | cons img images ih =>
    rw [AlongImages, AlongImages, ih, List.forall_mem_cons]
    exact and_and_and_comm

theorem nextBefore_nextBefore (hbefore : before ≤ 1) : nextBefore type (nextBefore type before) = before := by
  unfold nextBefore
  split_ifs
  · omega
  · rfl

theorem nextBefore_le (hbefore : before ≤ 1) : nextBefore type before ≤ 1 := by
  unfold nextBefore
  split_ifs <;> omega

theorem rowHandle_eq (htype : IsRowsEvent type) (hbefore : before ≤ 1) (useBits useBitsAfter : List UInt8) :
    rowHandle type before = .done ((turn type useBits useBitsAfter before).1, nextBefore type before) := by
  have h01 : before = 0 ∨ before = 1 := by omega
  rcases htype with rfl | rfl | rfl
  · rfl
  · rcases h01 with rfl | rfl <;> rfl
  · rfl

theorem turn_used (htype : IsRowsEvent type) (hbefore : before ≤ 1) (useBits useBitsAfter : List UInt8) :
    (if type ≠ rsUpdateRowsEvent ∨ before = 0 then useBits else useBitsAfter) =
      (turn type useBits useBitsAfter before).2 := by
  have h01 : before = 0 ∨ before = 1 := by omega
  rcases htype with rfl | rfl | rfl
  · rfl
  · rcases h01 with rfl | rfl <;> rfl
  · rfl

theorem turn_first (type : UInt8) (useBits useBitsAfter : List UInt8) :
    (turn type useBits useBitsAfter 0).2 = useBits := by
  simp only [turn, if_true]
  split_ifs <;> rfl

theorem turn_second (htype : IsRowsEvent type) (useBits useBitsAfter : List UInt8) :
    (turn type useBits useBitsAfter (nextBefore type 0)).2 =
      if type = rsUpdateRowsEvent then useBitsAfter else useBits := by
  rcases htype with rfl | rfl | rfl <;> rfl

structure Opened (schema : List Column) (d : RowData) (h : RowHead) : Prop where
  ct : d.ct = schema.map Column.code
  cm : d.cm = schema.flatMap Column.metas
  cn : h.cn.toNat = schema.length
  nn : ((h.un * 8 + 7) / 8).toNat = (schema.length + 7) / 8

structure Before (schema : List Column) (type : UInt8) (d : RowData) (h : RowHead) (s : RowState)
    (used used' : List Bool) (images : List RowImage) : Prop where
  le : s.p ≤ d.body.length
  body : d.body.drop s.p = images.flatMap RowImage.bytes
  before : s.before ≤ 1
  first : BitsFrom (turn type h.useBits h.useBitsAfter s.before).2 0 used
  second : BitsFrom (turn type h.useBits h.useBitsAfter (nextBefore type s.before)).2 0 used'
  columns : ∀ img ∈ images, img.row.map Prod.fst = schema
  alternate : Alternate used used' images

namespace Before

theorem slice_null (hb : Before schema type d h s used used' (img :: images)) :
    slice d.body s.p img.nullBitmap.length = some img.nullBitmap := by
  have hbody := hb.body
  rw [List.flatMap_cons, RowImage.bytes, List.append_assoc] at hbody
  exact slice_of_drop hb.le hbody

theorem reads (ho : Opened schema d h) (hb : Before schema type d h s used used' (img :: images)) :
    Reads ⟨d.ct, d.cm, d.body, (turn type h.useBits h.useBitsAfter s.before).2, img.nullBitmap⟩ 0 0 0
      (s.p + img.nullBitmap.length) img.row (images.flatMap RowImage.bytes) := by
  have hcols := hb.columns img (by simp)
  have hbody := hb.body
  rw [List.flatMap_cons, RowImage.bytes, List.append_assoc] at hbody
  constructor
  · rw [List.drop_zero, Row.codes, ho.ct, ← hcols, List.map_map]
    rfl
  · rw [List.drop_zero, Row.metas, ho.cm, ← hcols, List.flatMap_map]
  · rw [hb.alternate.1]
    exact hb.first
  · exact img.isBitmap.bitsFrom
  · have hlen := congrArg List.length hbody
    have hle := hb.le
    rw [List.length_drop, List.length_append] at hlen
    change _ ≤ d.body.length
    omega
  · change d.body.drop _ = _
    rw [← List.drop_drop, hbody, List.drop_left]

theorem length_row (hb : Before schema type d h s used used' (img :: images)) :
    img.row.length = schema.length := by
  rw [← hb.columns img (by simp), List.length_map]

/-- Behind the first image the loop stands in front of the others, with the turns swapped. -/
theorem next (hb : Before schema type d h s used used' (img :: images)) {s' : RowState}
    (hp : s'.p = s.p + img.bytes.length) (hbefore : s'.before = nextBefore type s.before) :
    Before schema type d h s' used' used images := by
  have hlen := congrArg List.length hb.body
  have hle := hb.le
  rw [List.flatMap_cons, List.length_drop, List.length_append] at hlen
  constructor
  · rw [hp]
    omega
  · rw [hp, ← List.drop_drop, hb.body, List.flatMap_cons, List.drop_left]
  · rw [hbefore]
    exact nextBefore_le hb.before
  · rw [hbefore]
    exact hb.second
  · rw [hbefore, nextBefore_nextBefore hb.before]
    exact hb.first
  · exact fun img' hmem => hb.columns img' (List.mem_cons_of_mem _ hmem)
  · exact hb.alternate.2

end Before

/-- With the null bitmap read at its length, a turn of the loop is the column loop, and the
handlers let it pass. -/
theorem step_eq (henv : env.Ok) (htype : IsRowsEvent type) (ho : Opened schema d h)
    (hb : Before schema type d h s used used' (img :: images))
    (hlen : img.nullBitmap.length = (schema.length + 7) / 8) :
    rsDmBinlogRowStep env d type h s = (do
      let (c, columns, stores) ← rsDmBinlogColumns env
        ⟨d.ct, d.cm, d.body, (turn type h.useBits h.useBitsAfter s.before).2, img.nullBitmap⟩ img.row.length 0
        ⟨s.p + img.nullBitmap.length, 0, 0, s.columnMeta, s.pooled⟩
      .done (⟨c.p, nextBefore type s.before, c.columnMeta, c.pooled, s.row + 1⟩,
        ⟨img.nullBitmap.length, (turn type h.useBits h.useBitsAfter s.before).2, columns, stores,
          (turn type h.useBits h.useBitsAfter s.before).1⟩)) := by
  simp only [rsDmBinlogRowStep, ho.nn, ho.cn, ← hb.length_row, turn_used htype hb.before,
    rowHandle_eq htype hb.before h.useBits h.useBitsAfter]
  rw [hb.length_row, ← hlen, hb.slice_null]
  simp only [Outcome.defined_some, Outcome.done_bind, henv.handle, henv.freeHandle, Outcome.checked_true]

/-- How long the null bitmap and how many the columns are does not depend on the image. -/
theorem step_counts {r : RowTrace} {s' : RowState} (hrun : rsDmBinlogRowStep env d type h s = .done (s', r)) :
    r.nullLen = ((h.un * 8 + 7) / 8).toNat ∧ r.columns.length = h.cn.toNat := by
  obtain ⟨nullBits, -, hrun⟩ := Outcome.bind_eq_done.mp hrun
  obtain ⟨⟨c, columns, stores⟩, hcols, hrun⟩ := Outcome.bind_eq_done.mp hrun
  obtain ⟨⟨handle, before⟩, -, hrun⟩ := Outcome.bind_eq_done.mp hrun
  obtain ⟨-, -, hrun⟩ := Outcome.bind_eq_done.mp hrun
  obtain ⟨-, -, hr⟩ := Outcome.bind_eq_done.mp hrun
  cases hr
  exact ⟨rfl, columns_length hcols⟩

theorem Before.step_done (henv : env.Ok) (hP : ∀ pre v, P (.value pre v)) (htype : IsRowsEvent type)
    (ho : Opened schema d h) (hb : Before schema type d h s used used' (img :: images))
    (hright : img.Right P env s.columnMeta) :
    ∃ s' r, rsDmBinlogRowStep env d type h s = .done (s', r) ∧ s'.p = s.p + img.bytes.length ∧
      s'.before = nextBefore type s.before ∧ s'.columnMeta = img.row.lastMeta s.columnMeta ∧
      r.Right P env (turn type h.useBits h.useBitsAfter s.before) img := by
  have hlen := hright.nullLen
  rw [hb.length_row] at hlen
  obtain ⟨c, vs, hrun, hp, hmeta, hvisits⟩ := (hb.reads ho).columns_done
    (s := ⟨s.p + img.nullBitmap.length, 0, 0, s.columnMeta, s.pooled⟩) henv hP hright.ranks hright.cursor
    hright.fine
  refine ⟨_, _, (step_eq henv htype ho hb hlen).trans (by rw [hrun, Outcome.done_bind]), ?_, rfl, hmeta,
    rfl, rfl, rfl, hvisits, rfl⟩
  rw [hp, RowImage.bytes, List.length_append, Nat.add_assoc]

theorem Before.step_right (henv : env.Ok) (hP : ∀ pre v, P (.value pre v)) (htype : IsRowsEvent type)
    (ho : Opened schema d h) (hb : Before schema type d h s used used' (img :: images))
    (hconsumed : img.row.Consumed) {s' : RowState} {r : RowTrace}
    (hrun : rsDmBinlogRowStep env d type h s = .done (s', r))
    (hlen : img.nullBitmap.length = (schema.length + 7) / 8) (hstores : r.stores = img.row.stores env 0)
    (hsteered : img.row.Steered P 0 0 0 0 r.columns) : img.Right P env s.columnMeta := by
  rw [step_eq henv htype ho hb hlen] at hrun
  obtain ⟨⟨c, columns, stores⟩, hcols, hdone⟩ := Outcome.bind_eq_done.mp hrun
  cases hdone
  obtain rfl : stores = img.row.stores env 0 := hstores
  obtain ⟨hranks, hcursor, hfine⟩ := Reads.columns_right
    (s := ⟨s.p + img.nullBitmap.length, 0, 0, s.columnMeta, s.pooled⟩) henv hP (hb.reads ho) hconsumed hcols hsteered
  exact ⟨hranks, by rw [hlen, hb.length_row], hcursor, hfine⟩

def RowImage.ShownBy (P : Cell → Prop) (env : RowEnv) (R : Turn → RowImage → RowTrace → Prop)
    (img : RowImage) : Prop :=
  ∀ {schema : List Column} {type : UInt8} {d : RowData} {h : RowHead} {s s' : RowState} {used used' : List Bool}
    {images : List RowImage} {r : RowTrace}, IsRowsEvent type → Opened schema d h →
    Before schema type d h s used used' (img :: images) → rsDmBinlogRowStep env d type h s = .done (s', r) →
    R (turn type h.useBits h.useBitsAfter s.before) img r → img.Right P env s.columnMeta

theorem RowImage.shownBy_right (henv : env.Ok) (hP : ∀ pre v, P (.value pre v)) (hconsumed : img.row.Consumed) :
    img.ShownBy P env fun t img r => r.Right P env t img := by
  intro schema type d h s s' used used' images r htype ho hb hrun hr
  have hlen : img.nullBitmap.length = (schema.length + 7) / 8 := by
    rw [← hr.nullLen, (step_counts hrun).1, ho.nn]
  exact hb.step_right henv hP htype ho hconsumed hrun hlen hr.stores (Or.inl hr.columns)

theorem Traces.imp {R' : Turn → RowImage → RowTrace → Prop} (hR : ∀ t img r, R t img r → R' t img r)
    {rs : List RowTrace} (h : Traces R first second images rs) : Traces R' first second images rs := by
  induction images generalizing first second rs with
  | nil =>
    cases rs with
    | nil => trivial
    | cons r rs => exact h.elim
  | cons img images ih =>
    cases rs with
    | nil => exact h.elim
    | cons r rs => exact ⟨hR _ _ _ h.1, ih h.2⟩

/-- What the rows say of the images besides can be asked of the images. -/
theorem traces_and_iff {S : RowTrace → Prop} {C : RowImage → Prop}
    (hS : ∀ t img r, R t img r → (S r ↔ C img)) (images : List RowImage) (first second : Turn) (rs : List RowTrace) :
    Traces (fun t img r => R t img r ∧ S r) first second images rs ↔
      Traces R first second images rs ∧ ∀ img ∈ images, C img := by
  induction images generalizing first second rs with
  | nil =>
    cases rs with
    | nil => exact iff_of_true trivial ⟨trivial, fun _ hmem => absurd hmem List.not_mem_nil⟩
    | cons r rs => exact iff_of_false id fun h => h.1
  | cons img images ih =>
    cases rs with
    | nil => exact iff_of_false id fun h => h.1
    | cons r rs =>
      rw [Traces, Traces, ih, List.forall_mem_cons]
      constructor
      · rintro ⟨⟨hr, hs⟩, hrs, hall⟩
        exact ⟨⟨hr, hrs⟩, (hS _ _ _ hr).mp hs, hall⟩
      · rintro ⟨⟨hr, hrs⟩, hs, hall⟩
        exact ⟨⟨hr, (hS _ _ _ hr).mpr hs⟩, hrs, hall⟩

/-- By induction on the images, each of which takes at least a byte of the body. -/
theorem Before.rows_done (henv : env.Ok) (hP : ∀ pre v, P (.value pre v)) (htype : IsRowsEvent type)
    (hne : schema ≠ []) (ho : Opened schema d h) (hb : Before schema type d h s used used' images)
    (hright : ImagesRight P env s.columnMeta images) {fuel : ℕ} (hfuel : d.body.length < fuel + s.p) :
    ∃ s' rs, rsDmBinlogRows env d type h fuel s = .done (s', rs) ∧ s'.p = d.body.length ∧
      Traces (fun t img r => r.Right P env t img) (turn type h.useBits h.useBitsAfter s.before)
        (turn type h.useBits h.useBitsAfter (nextBefore type s.before)) images rs := by
  induction images generalizing s used used' fuel with
  | nil =>
    have hend : s.p = d.body.length := by
      have hlen := congrArg List.length hb.body
      have hle := hb.le
      simp only [List.length_drop, List.flatMap_nil, List.length_nil] at hlen
      omega
    cases fuel with
    | zero => omega
    | succ fuel => exact ⟨s, [], by rw [rsDmBinlogRows, if_neg (by omega)], hend, trivial⟩
  | cons img images ih =>
    have hpos : 0 < schema.length := List.length_pos_iff.mpr hne
    have hnull := hright.1.nullLen
    rw [hb.length_row] at hnull
    have hlen := congrArg List.length hb.body
    simp only [List.length_drop, List.flatMap_cons, List.length_append, RowImage.bytes] at hlen
    cases fuel with
    | zero => omega
    | succ fuel =>
      obtain ⟨s1, r, hstep, hp, hbefore, hmeta, hr⟩ := hb.step_done henv hP htype ho hright.1
      have hrest := hright.2
      rw [← hmeta] at hrest
      have hbytes : img.bytes.length = img.nullBitmap.length + img.row.bytes.length := List.length_append
      have hfuel : d.body.length < fuel + s1.p := by omega
      obtain ⟨s2, rs, hrun, hend, hrs⟩ := ih (hb.next hp hbefore) hrest hfuel
      rw [hbefore, nextBefore_nextBefore hb.before] at hrs
      exact ⟨s2, r :: rs, rows_turn (by omega) hstep hrun, hend, hr, hrs⟩

/-- The row loop gets to the end with `R` of every row only if each image is right when its turn comes. -/
theorem Before.rows_right (henv : env.Ok) (hP : ∀ pre v, P (.value pre v)) (htype : IsRowsEvent type)
    (ho : Opened schema d h) (hb : Before schema type d h s used used' images)
    (hshown : ∀ img ∈ images, img.ShownBy P env R) {fuel : ℕ} {s' : RowState} {rs : List RowTrace}
    (hrun : rsDmBinlogRows env d type h fuel s = .done (s', rs))
    (hrs : Traces R (turn type h.useBits h.useBitsAfter s.before)
      (turn type h.useBits h.useBitsAfter (nextBefore type s.before)) images rs) :
    ImagesRight P env s.columnMeta images := by
  induction images generalizing s used used' fuel s' rs with
  | nil => trivial
  | cons img images ih =>
    rcases rows_cases hrun with ⟨-, rfl⟩ | ⟨k, s1, r, rest, hstep, hloop, rfl⟩
    · exact hrs.elim
    · have hright := hshown img List.mem_cons_self htype ho hb hstep hrs.1
      obtain ⟨s1', r', hstep', hp, hbefore, hmeta, -⟩ := hb.step_done henv hP htype ho hright
      obtain ⟨rfl, -⟩ := by simpa using hstep'.symm.trans hstep
      have hrest := hrs.2
      have hback : nextBefore type s1'.before = s.before := by
        rw [hbefore, nextBefore_nextBefore hb.before]
      rw [← hbefore, ← hback] at hrest
      have hih := ih (hb.next hp hbefore) (fun img' hmem => hshown img' (List.mem_cons_of_mem _ hmem)) hloop hrest
      rw [hmeta] at hih
      exact ⟨hright, hih⟩

/-- No other number of columns is right for the first image, nor a body that ends elsewhere when
there is none. -/
theorem rows_misread (hR : ∀ t img r, R t img r → r.columns.length = img.row.length)
    (hcols : ∀ img ∈ images, img.row.length = schema.length)
    (hcn : h.cn.toNat ≠ schema.length) (hend : images = [] → s.p ≠ d.body.length) {fuel : ℕ}
    {s' : RowState} {rs : List RowTrace} (hrun : rsDmBinlogRows env d type h fuel s = .done (s', rs))
    (hrs : Traces R first second images rs) : s'.p ≠ d.body.length := by
  rcases rows_cases hrun with ⟨rfl, rfl⟩ | ⟨k, s1, r, rest, hstep, -, rfl⟩
  · cases images with
    | nil => exact hend rfl
    | cons img images => exact hrs.elim
  · cases images with
    | nil => exact hrs.elim
    | cons img images =>
      have hcount := hR _ _ _ hrs.1
      rw [(step_counts hstep).2, hcols img (by simp)] at hcount
      exact absurd hcount hcn

def bitmaps (type : UInt8) : ℕ := if type = rsUpdateRowsEvent then 2 else 1

/-- The counts and the place of the rows follow from the packed count. -/
theorem rowHead_spec {body : List UInt8} (hh : rowHead type body = some h) :
    ∃ n cl, rsParsePackedInteger (body.drop 8) = some (n, cl) ∧ h.cn = UInt32.ofNat n ∧
      h.un = (h.cn + 7) / 8 ∧ h.p = 8 + cl + bitmaps type * h.un.toNat := by
  obtain ⟨⟨n, cl⟩, hn, hh⟩ := Option.bind_eq_some_iff.mp hh
  obtain ⟨useBits, -, hh⟩ := Option.bind_eq_some_iff.mp hh
  refine ⟨n, cl, hn, ?_⟩
  unfold bitmaps
  split_ifs at hh ⊢ with hupdate
  · obtain ⟨useBitsAfter, -, hh⟩ := Option.bind_eq_some_iff.mp hh
    cases hh
    refine ⟨rfl, rfl, ?_⟩
    rw [Nat.two_mul, ← Nat.add_assoc]
  · cases hh
    refine ⟨rfl, rfl, ?_⟩
    rw [Nat.one_mul]

theorem un_eq (cn : UInt32) : ((cn + 7) / 8).toNat = (cn.toNat + 7) % 2 ^ 32 / 8 := by
  have hsum := UInt32.toNat_add cn 7
  change _ = (cn.toNat + 7) % 2 ^ 32 at hsum
  rw [UInt32.toNat_div, hsum]
  rfl

theorem un_toNat {cn : UInt32} (hcn : cn.toNat < 2 ^ 17) : ((cn + 7) / 8).toNat = (cn.toNat + 7) / 8 := by
  rw [un_eq, Nat.mod_eq_of_lt (by omega)]

/-- The null bitmap is read as long as a bitmap of all columns. -/
theorem nn_toNat {cn : UInt32} (hcn : cn.toNat < 2 ^ 17) :
    (((cn + 7) / 8 * 8 + 7) / 8).toNat = (cn.toNat + 7) / 8 := by
  have hmul := UInt32.toNat_mul ((cn + 7) / 8) 8
  rw [un_toNat hcn] at hmul
  change _ = (cn.toNat + 7) / 8 * 8 % 2 ^ 32 at hmul
  rw [Nat.mod_eq_of_lt (by omega)] at hmul
  rw [un_eq, hmul]
  omega

variable {head useBits useBitsAfter rest : List UInt8} {n : ℕ}

/-- A count of one byte is read as it is meant, and so are the bitmaps behind it. -/
theorem rowHead_narrow (hhead : head.length = 8) (hn : n ≤ 250) (hu : useBits.length = (n + 7) / 8)
    (hu' : useBitsAfter.length = (n + 7) / 8) (rest : List UInt8) :
    rowHead type (head ++ (packedInteger n ++ (useBits ++
      ((if type = rsUpdateRowsEvent then useBitsAfter else []) ++ rest)))) =
      some ⟨UInt32.ofNat n, (UInt32.ofNat n + 7) / 8, useBits,
        if type = rsUpdateRowsEvent then useBitsAfter else [], 9 + bitmaps type * ((n + 7) / 8)⟩ := by
  have hcn : (UInt32.ofNat n).toNat = n := by
    rw [UInt32.toNat_ofNat']
    omega
  have hun : ((UInt32.ofNat n + 7) / 8).toNat = (n + 7) / 8 := by
    rw [un_toNat (by omega), hcn]
  have hlen : (packedInteger n).length = 1 := by rw [length_packedInteger, if_pos hn]
  have hfirst := slice_append (head ++ packedInteger n) useBits
    ((if type = rsUpdateRowsEvent then useBitsAfter else []) ++ rest)
  rw [List.length_append, hhead, hlen, hu] at hfirst
  have hsecond := slice_append (head ++ packedInteger n ++ useBits) useBitsAfter rest
  rw [List.length_append, List.length_append, hhead, hlen, hu, hu'] at hsecond
  simp only [List.append_assoc] at hfirst hsecond
  simp only [rowHead, bitmaps, List.drop_left' hhead, rsParsePackedInteger_small hn, Option.bind_eq_bind,
    Option.bind_some, hun, hfirst]
  split_ifs with hupdate
  · rw [hsecond, Option.bind_some]
    congr 2
    omega
  · congr 2
    omega

/-- A longer count is not: of its two bytes, the first is the marker. -/
theorem rowHead_wide (hhead : head.length = 8) (hn : 250 < n) (hlt : n < 2 ^ 16)
    (hh : rowHead type (head ++ (packedInteger n ++ rest)) = some h) :
    h.cn.toNat = 252 + 256 * (n % 256) ∧ h.p = 10 + bitmaps type * ((h.cn.toNat + 7) / 8) := by
  obtain ⟨k, cl, hk, hcn, hun, hp⟩ := rowHead_spec hh
  rw [List.drop_left' hhead, rsParsePackedInteger_two hn hlt] at hk
  obtain ⟨rfl, rfl⟩ := by simpa using hk
  have hcn' : h.cn.toNat = 252 + 256 * (n % 256) := by
    rw [hcn, UInt32.toNat_ofNat']
    omega
  rw [hun, un_toNat (by omega)] at hp
  exact ⟨hcn', hp⟩

namespace RowsEvent

variable {ev : RowsEvent}

theorem length_metas_le (ev : RowsEvent) : ev.metas.length ≤ 2 * ev.schema.length := by
  unfold metas
  induction ev.schema with
  | nil => exact Nat.zero_le _
  | cons c schema ih =>
    have hle := c.metas_le
    rw [List.flatMap_cons, List.length_append, List.length_cons]
    omega

theorem rowEvent_eq (env : RowEnv) (ev : RowsEvent) :
    rsDmBinlogRowEvent env ev.data ev.data.length ev.type = (do
      let h ← .defined (rowHead ev.type ev.body)
      rsDmBinlogRows env ⟨ev.types.length, ev.types, ev.metas.length, ev.metas, ev.body⟩ ev.type h
        (ev.body.length + 1) ⟨h.p, 0, none, 0, 0⟩) := by
  have hlen := ev.schema_length
  have hmetas := ev.length_metas_le
  have htypes : ev.types.length = ev.schema.length := List.length_map _
  have hparse := @rsDmBinlogRow_rowLayout ev.types ev.metas (by omega) (by omega) ev.body
  simp only [rsDmBinlogRowEvent, data, hparse, Outcome.defined_some, Outcome.done_bind]

theorem length_useBitmap (ev : RowsEvent) : ev.useBitmap.length = (ev.schema.length + 7) / 8 := by
  rw [ev.isUseBitmap.length, ev.used_length]

theorem length_useBitmapAfter (ev : RowsEvent) :
    ev.useBitmapAfter.length = (ev.schema.length + 7) / 8 := by
  rw [ev.isUseBitmapAfter.length, ev.usedAfter_length]

def rowHeadOf (ev : RowsEvent) : RowHead :=
  ⟨UInt32.ofNat ev.schema.length, (UInt32.ofNat ev.schema.length + 7) / 8, ev.useBitmap,
    if ev.type = rsUpdateRowsEvent then ev.useBitmapAfter else [],
    9 + bitmaps ev.type * ((ev.schema.length + 7) / 8)⟩

theorem rowHead_body (hn : ev.schema.length ≤ 250) : rowHead ev.type ev.body = some ev.rowHeadOf :=
  rowHead_narrow ev.head_length hn ev.length_useBitmap ev.length_useBitmapAfter _

theorem opened (hn : ev.schema.length ≤ 250) :
    Opened ev.schema ⟨ev.types.length, ev.types, ev.metas.length, ev.metas, ev.body⟩ ev.rowHeadOf := by
  have hcn : (UInt32.ofNat ev.schema.length).toNat = ev.schema.length := by
    rw [UInt32.toNat_ofNat']
    omega
  refine ⟨rfl, rfl, hcn, ?_⟩
  rw [rowHeadOf, nn_toNat (by omega), hcn]

theorem length_front (hn : ev.schema.length ≤ 250) :
    (ev.head ++ packedInteger ev.schema.length ++ ev.useBitmap ++
      (if ev.type = rsUpdateRowsEvent then ev.useBitmapAfter else [])).length = ev.rowHeadOf.p := by
  have hu := ev.length_useBitmap
  have hu' := ev.length_useBitmapAfter
  simp only [List.length_append, ev.head_length, length_packedInteger, if_pos hn, hu, rowHeadOf, bitmaps]
  split_ifs with hupdate
  · omega
  · rw [List.length_nil]
    omega

theorem body_eq (ev : RowsEvent) : ev.body = ev.head ++ packedInteger ev.schema.length ++ ev.useBitmap ++
    (if ev.type = rsUpdateRowsEvent then ev.useBitmapAfter else []) ++ ev.images.flatMap RowImage.bytes := by
  simp only [body, List.append_assoc]

theorem standsBefore (hn : ev.schema.length ≤ 250) :
    Before ev.schema ev.type ⟨ev.types.length, ev.types, ev.metas.length, ev.metas, ev.body⟩ ev.rowHeadOf
      ⟨ev.rowHeadOf.p, 0, none, 0, 0⟩ ev.used
      (if ev.type = rsUpdateRowsEvent then ev.usedAfter else ev.used) ev.images := by
  have hfront := length_front hn
  constructor
  · rw [ev.body_eq, List.length_append, hfront]
    exact Nat.le_add_right _ _
  · rw [ev.body_eq, List.drop_left' hfront]
  · exact Nat.zero_le _
  · rw [turn_first]
    exact ev.isUseBitmap.bitsFrom
  · rw [turn_second ev.isRowsEvent]
    unfold rowHeadOf
    split_ifs with hupdate
    · exact ev.isUseBitmapAfter.bitsFrom
    · exact ev.isUseBitmap.bitsFrom
  · exact ev.columns
  · exact ev.alternate

/-- The bytes of a bitmap, and of one for the count that is read instead, never make up for the
byte by which the count is misread. -/
theorem bitmap_shift {n : ℕ} (hn : n ≤ 4096) : (252 + 256 * (n % 256) + 7) / 8 ≠ (n + 7) / 8 + 1 := by
  have hread : (252 + 256 * (n % 256) + 7) / 8 = 32 + 32 * (n % 256) := by omega
  have hmeant : (n + 7) / 8 = 32 * (n / 256) + (n % 256 + 7) / 8 := by omega
  rw [hread, hmeant]
  by_cases hlt : n % 256 < n / 256
  · omega
  · omega

/-- Where the rows begin when the count takes more than a byte. -/
theorem rowHead_long (hn : 250 < ev.schema.length) {h : RowHead} (hh : rowHead ev.type ev.body = some h) :
    h.cn.toNat ≠ ev.schema.length ∧ (ev.images = [] → h.p ≠ ev.body.length) := by
  have hlen := ev.schema_length
  have hu := ev.length_useBitmap
  have hu' := ev.length_useBitmapAfter
  obtain ⟨hcn, hp⟩ := rowHead_wide ev.head_length hn (by omega) hh
  have hshift := bitmap_shift hlen
  refine ⟨by omega, fun himages => ?_⟩
  rw [hp, hcn]
  simp only [body, himages, List.flatMap_nil, List.length_append, ev.head_length, length_packedInteger,
    if_neg (not_le.mpr hn), if_pos (by omega : ev.schema.length < 2 ^ 16), hu, bitmaps, List.length_nil]
  split_ifs with hupdate
  · omega
  · rw [List.length_nil]
    omega

end RowsEvent

theorem ImagesRight.consumed {last : Option UInt8} (h : ImagesRight P env last images) :
    ∀ img ∈ images, img.row.Consumed := by
  induction images generalizing last with
  | nil => exact fun img hmem => absurd hmem List.not_mem_nil
  | cons img images ih => exact List.forall_mem_cons.mpr ⟨h.1.fine.consumed, ih h.2⟩

/-- The values of an event are consumed, and `R` holds of every row, exactly when the count is short and every
image is right in its turn. -/
theorem traced_iff (henv : env.Ok) (hP : ∀ pre v, P (.value pre v)) (ev : RowsEvent)
    (hright : ∀ t img r, r.Right P env t img → R t img r)
    (hcount : ∀ t img r, R t img r → r.columns.length = img.row.length)
    (hshown : ev.Consumed → ∀ img ∈ ev.images, img.ShownBy P env R) :
    ev.Consumed ∧ ev.Traced R env ↔ ev.schema.length ≤ 250 ∧ ImagesRight P env none ev.images := by
  have htype := ev.isRowsEvent
  unfold RowsEvent.Traced
  rw [RowsEvent.rowEvent_eq]
  by_cases hn : ev.schema.length ≤ 250
  · have ho := RowsEvent.opened hn
    have hb := RowsEvent.standsBefore hn
    rw [RowsEvent.rowHead_body hn, Outcome.defined_some, Outcome.done_bind]
    have hturn : turn ev.type ev.useBitmap ev.useBitmapAfter = turn ev.type ev.rowHeadOf.useBits
        ev.rowHeadOf.useBitsAfter := by
      funext before
      unfold turn RowsEvent.rowHeadOf
      split_ifs <;> rfl
    rw [hturn]
    constructor
    · rintro ⟨hconsumed, s, rs, hrun, -, hrs⟩
      exact ⟨hn, hb.rows_right henv hP htype ho (hshown hconsumed) hrun hrs⟩
    · rintro ⟨-, himages⟩
      have hfuel : ev.body.length < ev.body.length + 1 + ev.rowHeadOf.p := by omega
      obtain ⟨s, rs, hrun, hend, hrs⟩ := hb.rows_done henv hP htype ev.schema_ne ho himages hfuel
      exact ⟨himages.consumed, s, rs, hrun, hend, hrs.imp hright⟩
  · refine iff_of_false ?_ fun himages => hn himages.1
    rintro ⟨-, s, rs, hrun, hend, hrs⟩
    obtain ⟨h, hh, hrun⟩ := Outcome.bind_eq_done.mp hrun
    obtain ⟨hcn, hempty⟩ := RowsEvent.rowHead_long (by omega) (Outcome.defined_eq_done.mp hh)
    have hcols : ∀ img ∈ ev.images, img.row.length = ev.schema.length := by
      intro img hmem
      rw [← ev.columns img hmem, List.length_map]
    exact rows_misread hcount hcols hcn hempty hrun hrs hend

/-- An event whose values are consumed is decoded exactly when its count is short and every image is right in
its turn. -/
theorem decodes_iff_images (henv : env.Ok) (hP : ∀ pre v, P (.value pre v)) (ev : RowsEvent) :
    ev.Consumed ∧ Decodes P env ev ↔ ev.schema.length ≤ 250 ∧ ImagesRight P env none ev.images :=
  traced_iff henv hP ev (fun _ _ _ h => h) (fun _ _ _ h => h.columns.length_eq)
    fun hconsumed img hmem => RowImage.shownBy_right henv hP (hconsumed img hmem)

/-- The copy that is made of a value stays in its chunk exactly when the chunk fits. -/
theorem store_inChunk_iff {q : RsPool} {pas : RsDmPosAlloc} {v : List UInt8} :
    (∀ pos room data, .pool pos room data ∈ pas.store q v → data.length ≤ room) ↔
      (pas.pos ≠ -1 → pas.alloc ≠ rsDmDataStack → q.Fits v.length) := by
  unfold RsDmPosAlloc.store
  by_cases hpos : pas.pos = -1
  · simp [hpos]
  by_cases hstack : pas.alloc = rsDmDataStack
  · simp [hpos, hstack]
  rw [if_neg hpos, if_neg hstack, RsPool.fits_iff_le_room]
  constructor
  · exact fun h _ _ => h _ _ _ List.mem_cons_self
  · rintro h pos room data hmem
    obtain ⟨-, rfl, rfl⟩ := RowStore.pool.inj (List.mem_singleton.mp hmem)
    exact h hpos hstack

theorem Row.mem_stores {row : Row} {i : ℕ} {x : RowStore} : x ∈ row.stores env i ↔
    ∃ k c pre v, row[k]? = some (c, .value pre v) ∧ x ∈ (env.pasArr (i + k)).store env.dpool v := by
  induction row generalizing i with
  | nil => simp [Row.stores]
  | cons y row ih =>
    obtain ⟨c, cell⟩ := y
    rw [Row.stores, List.mem_append, ih]
    constructor
    · rintro (hmem | ⟨k, c', pre, v, hk, hmem⟩)
      · cases cell with
        | value pre v => exact ⟨0, c, pre, v, rfl, hmem⟩
        | unused | null => exact absurd hmem List.not_mem_nil
      · rw [Nat.add_assoc, Nat.add_comm 1] at hmem
        exact ⟨k + 1, c', pre, v, hk, hmem⟩
    · rintro ⟨k, c', pre, v, hk, hmem⟩
      cases k with
      | zero =>
        obtain ⟨rfl, rfl⟩ := Prod.mk.inj (Option.some.inj hk)
        exact Or.inl hmem
      | succ k =>
        rw [Nat.add_comm k, ← Nat.add_assoc] at hmem
        exact Or.inr ⟨k, c', pre, v, hk, hmem⟩

/-- Where the stores are those of the images, no copy leaves its chunk exactly when the chunks fit. -/
theorem traced_inChunks_iff {ev : RowsEvent} (hR : ∀ t img r, R t img r → r.stores = img.row.stores env 0) :
    ev.Traced (fun t img r => R t img r ∧ r.InChunks) env ↔ ev.Traced R env ∧ ev.PoolFits env := by
  have hchunks (t : Turn) (img : RowImage) (r : RowTrace) (hr : R t img r) : r.InChunks ↔
      ∀ i c pre v, img.row[i]? = some (c, .value pre v) →
        (env.pasArr i).pos ≠ -1 → (env.pasArr i).alloc ≠ rsDmDataStack → env.dpool.Fits v.length := by
    rw [RowTrace.InChunks, hR t img r hr]
    simp only [Row.mem_stores, Nat.zero_add]
    constructor
    · intro h i c pre v hi
      exact store_inChunk_iff.mp fun pos room data hmem => h pos room data ⟨i, c, pre, v, hi, hmem⟩
    · rintro h pos room data ⟨i, c, pre, v, hi, hmem⟩
      exact store_inChunk_iff.mpr (h i c pre v hi) pos room data hmem
  have hall := traces_and_iff hchunks ev.images
  constructor
  · rintro ⟨s, rs, hrun, hend, hrs⟩
    obtain ⟨hrs, hfits⟩ := (hall _ _ _).mp hrs
    exact ⟨⟨s, rs, hrun, hend, hrs⟩, hfits⟩
  · rintro ⟨⟨s, rs, hrun, hend, hrs⟩, hfits⟩
    exact ⟨s, rs, hrun, hend, (hall _ _ _).mpr ⟨hrs, hfits⟩⟩

theorem decodesInChunks_iff (env : RowEnv) (ev : RowsEvent) :
    DecodesInChunks P env ev ↔ Decodes P env ev ∧ ev.PoolFits env :=
  traced_inChunks_iff fun _ _ _ hr => hr.stores

end MySQLSyncer.Slave
