import MySQLSyncer.Lib.Bitmap
import MySQLSyncer.Lib.PackedInteger
import MySQLSyncer.Slave.ColumnMeta

/-! # The row events of the server

The first version of the format, as the server writes it. A column has a type and the bytes of
its metadata. A row image has a bitmap with a bit for every used column and the values of those
that are not null.
-/
namespace MySQLSyncer.Slave
open Lib MySQLSyncer.Core

def fixedTypes : List (UInt8 × List UInt8 × ℕ) :=
  [(1, [], 1), (2, [], 2), (3, [], 4), (4, [4], 4), (5, [8], 8), (7, [], 4), (8, [], 8), (9, [], 3),
    (10, [], 3), (11, [], 3), (12, [], 8), (13, [], 1)]

def lengthBytes (max n : ℕ) : List UInt8 := leBytes (if max < 256 then 1 else 2) n

def stringMetas (max : ℕ) : List UInt8 :=
  [UInt8.ofNat (254 ^^^ ((max &&& 0x300) >>> 4)), UInt8.ofNat (max &&& 0xff)]

def digitBytes (digits : ℕ) : ℕ := 4 * (digits / 9) + (digits % 9 + 1) / 2

/-- A value `v` of a type, by its code and metadata, stands behind the bytes `pre`. -/
inductive Encodes : UInt8 → List UInt8 → List UInt8 → List UInt8 → Prop
  | fixed {code : UInt8} {metas : List UInt8} {width : ℕ} {v : List UInt8}
      (htype : (code, metas, width) ∈ fixedTypes) (hv : v.length = width) : Encodes code metas [] v
  | varchar {max : ℕ} {v : List UInt8} (hmax : max < 2 ^ 16) (hv : v.length ≤ max) :
      Encodes 15 (leBytes 2 max) (lengthBytes max v.length) v
  | string {max : ℕ} {v : List UInt8} (hmax : max < 2 ^ 10) (hv : v.length ≤ max) :
      Encodes 254 (stringMetas max) (lengthBytes max v.length) v
  | blob {k : ℕ} {v : List UInt8} (hpos : 1 ≤ k) (hk : k ≤ 4) (hv : v.length < 256 ^ k) :
      Encodes 252 [UInt8.ofNat k] (leBytes k v.length) v
  | newdecimal {precision scale : ℕ} {v : List UInt8} (hp : precision < 256) (hs : scale ≤ precision)
      (hv : v.length = digitBytes (precision - scale) + digitBytes scale) :
      Encodes 246 [UInt8.ofNat precision, UInt8.ofNat scale] [] v

/-- The code and the metadata of a column that has the width of its values in them: `BIT(n)`; `ENUM` and
`SET`, which have the code of `CHAR` and their own in the metadata. -/
inductive WidthColumn : UInt8 → List UInt8 → ℕ → Prop
  | bit {n : ℕ} (hpos : 1 ≤ n) (hn : n < 2 ^ 11) :
      WidthColumn 16 [UInt8.ofNat (n % 8), UInt8.ofNat (n / 8)] ((n + 7) / 8)
  | enum {real : UInt8} {width : ℕ} (hreal : real = 247 ∨ real = 248) (hpos : 1 ≤ width) (hwidth : width ≤ 8) :
      WidthColumn 254 [real, UInt8.ofNat width] width

/-- What the server may write for a value of any type. Nothing is said about the types that the slave has
no parse function for. -/
inductive Sent : UInt8 → List UInt8 → List UInt8 → List UInt8 → Prop
  | encoded {code : UInt8} {metas pre v : List UInt8} (h : Encodes code metas pre v) : Sent code metas pre v
  | width {code : UInt8} {metas v : List UInt8} (h : WidthColumn code metas v.length) : Sent code metas [] v
  | varstring {m m' : UInt8} {k : ℕ} {v : List UInt8} (hpos : 1 ≤ k) (hk : k ≤ 4) (hv : v.length < 256 ^ k) :
      Sent 253 [m, m'] (leBytes k v.length) v
  | geometry {k : ℕ} {v : List UInt8} (hpos : 1 ≤ k) (hk : k ≤ 4) (hv : v.length < 256 ^ k) :
      Sent 255 [UInt8.ofNat k] (leBytes k v.length) v
  | unsupported {code : UInt8} {metas pre v : List UInt8} (h : (rsColumnMeta code).parseHandle = none) :
      Sent code metas pre v

/-- A column of a table. Only a type that the slave has a parse function for need have as much metadata as
the slave's table of types says. -/
structure Column where
  code : UInt8
  metas : List UInt8
  metas_le : metas.length ≤ 2
  metas_length : (rsColumnMeta code).parseHandle ≠ none → metas.length = (rsColumnMeta code).metaLen

inductive Cell where
  | unused
  | null
  | value (pre v : List UInt8)
  deriving DecidableEq

def Cell.used : Cell → Bool
  | .unused => false
  | _ => true

def Cell.bytes : Cell → List UInt8
  | .value pre v => pre ++ v
  | _ => []

abbrev Row := List (Column × Cell)

namespace Row

def bytes (row : Row) : List UInt8 := row.flatMap fun x => x.2.bytes

def codes (row : Row) : List UInt8 := row.map fun x => x.1.code

def metas (row : Row) : List UInt8 := row.flatMap fun x => x.1.metas

def usedFlags (row : Row) : List Bool := row.map fun x => x.2.used

def nullFlags (row : Row) : List Bool :=
  row.filterMap fun x => match x.2 with
    | .unused => none
    | .null => some true
    | .value _ _ => some false

end Row

structure RowImage where
  row : Row
  nullBitmap : List UInt8
  isBitmap : IsBitmap nullBitmap row.nullFlags
  sent : ∀ c pre v, (c, .value pre v) ∈ row → Sent c.code c.metas pre v

def RowImage.bytes (img : RowImage) : List UInt8 := img.nullBitmap ++ img.row.bytes

def Alternate : List Bool → List Bool → List RowImage → Prop
  | _, _, [] => True
  | first, second, img :: images => img.row.usedFlags = first ∧ Alternate second first images

/-- A row event of a table that has columns, and no more than the server allows. The images of
an update are by turns before and after images. -/
structure RowsEvent where
  type : UInt8
  schema : List Column
  head : List UInt8
  used : List Bool
  usedAfter : List Bool
  useBitmap : List UInt8
  useBitmapAfter : List UInt8
  images : List RowImage
  isRowsEvent : IsRowsEvent type
  schema_ne : schema ≠ []
  schema_length : schema.length ≤ 4096
  head_length : head.length = 8
  used_length : used.length = schema.length
  usedAfter_length : usedAfter.length = schema.length
  isUseBitmap : IsBitmap useBitmap used
  isUseBitmapAfter : IsBitmap useBitmapAfter usedAfter
  columns : ∀ img ∈ images, img.row.map Prod.fst = schema
  alternate : Alternate used (if type = rsUpdateRowsEvent then usedAfter else used) images

namespace RowsEvent

def body (ev : RowsEvent) : List UInt8 :=
  ev.head ++ (packedInteger ev.schema.length ++ (ev.useBitmap ++
    ((if ev.type = rsUpdateRowsEvent then ev.useBitmapAfter else []) ++ ev.images.flatMap RowImage.bytes)))

def types (ev : RowsEvent) : List UInt8 := ev.schema.map Column.code

def metas (ev : RowsEvent) : List UInt8 := ev.schema.flatMap Column.metas

def data (ev : RowsEvent) : List UInt8 := rowLayout ev.types ev.metas ev.body

/-- The values are of a fixed width, or `VARCHAR`, `CHAR`, `BLOB` or `NEWDECIMAL`. -/
def Plain (ev : RowsEvent) : Prop :=
  ∀ img ∈ ev.images, ∀ c pre v, (c, .value pre v) ∈ img.row → Encodes c.code c.metas pre v

end RowsEvent

/-- Whatever follows them and the metadata of the column, the parse function finds these two lengths at the
bytes. -/
def Measures (c : Column) (bytes : List UInt8) (packLen dl : ℕ) : Prop :=
  ∀ rest rest', ∃ parse, (rsColumnMeta c.code).parseHandle = some parse ∧
    parse (bytes ++ rest) (c.metas ++ rest') (rsColumnMeta c.code).metaLen (rsColumnMeta c.code).fixedLen =
      some (packLen, dl)

def Consumes (c : Column) (bytes : List UInt8) : Prop :=
  ∃ packLen dl, Measures c bytes packLen dl ∧ packLen + dl = bytes.length

/-- The parse function of every value moves over just the bytes of the value. -/
def RowsEvent.Consumed (ev : RowsEvent) : Prop :=
  ∀ img ∈ ev.images, ∀ c pre v, (c, .value pre v) ∈ img.row → Consumes c (pre ++ v)

theorem Row.length_nullFlags (row : Row) : row.nullFlags.length = row.usedFlags.count true := by
  induction row with
  | nil => rfl
  | cons x row ih =>
    obtain ⟨c, cell⟩ := x
    cases cell with
    | unused => exact ih
    | null => simpa [Row.nullFlags, Row.usedFlags, Cell.used] using ih
    | value pre v => simpa [Row.nullFlags, Row.usedFlags, Cell.used] using ih

theorem readNat_append (w rest : List UInt8) : readNat w.length (w ++ rest) = some (leNat w) := by
  rw [readNat, takeBytes_append rfl, Option.map_some]

theorem readLength_append {k n : ℕ} (hk : k ≤ 4) (hn : n < 256 ^ k) (rest : List UInt8) :
    readLength k (leBytes k n ++ rest) = some (k, n) := by
  have h := readNat_append (leBytes k n) rest
  rw [length_leBytes, leNat_leBytes, Nat.mod_eq_of_lt hn] at h
  rw [readLength, if_neg (by omega), h, Option.map_some]

theorem readLength_lengthBytes {max n : ℕ} (hmax : max < 2 ^ 16) (hn : n ≤ max) (rest : List UInt8) :
    readLength (if max < 256 then 1 else 2) (lengthBytes max n ++ rest) =
      some ((lengthBytes max n).length, n) := by
  unfold lengthBytes
  rw [length_leBytes]
  split_ifs with h
  · exact readLength_append (by omega) (by omega) rest
  · exact readLength_append (by omega) (by omega) rest

theorem readNat_one {n : ℕ} (hn : n < 256) (rest : List UInt8) :
    readNat 1 (UInt8.ofNat n :: rest) = some n := by
  have h := readNat_append [UInt8.ofNat n] rest
  rw [leNat_cons, leNat_nil, UInt8.toNat_ofNat', Nat.mod_eq_of_lt (by omega)] at h
  exact h

/-- The slave gets back the length that the server has hidden in the type. -/
theorem stringMetas_length : ∀ max < 2 ^ 10,
    (if (254 ^^^ ((max &&& 0x300) >>> 4)) &&& 0x30 ≠ 0x30 then
      (max &&& 0xff) ||| ((((254 ^^^ ((max &&& 0x300) >>> 4)) &&& 0x30) ^^^ 0x30) <<< 4)
    else max &&& 0xff) = max := by
  decide +kernel

theorem dig2bytes_getD : ∀ d < 9, dig2bytes.getD d 0 = (d + 1) / 2 := by decide

theorem digits_toNat {d : UInt32} (h : d.toNat < 256) :
    (d / 9).toNat * 4 + dig2bytes.getD (d - d / 9 * 9).toNat 0 = digitBytes d.toNat := by
  have hdiv : (d / 9).toNat = d.toNat / 9 := UInt32.toNat_div d 9
  have hmul : (d / 9 * 9).toNat = d.toNat / 9 * 9 := by
    have h9 := UInt32.toNat_mul (d / 9) 9
    rw [hdiv] at h9
    change _ = d.toNat / 9 * 9 % 2 ^ 32 at h9
    omega
  have hsub : (d - d / 9 * 9).toNat = d.toNat % 9 := by
    rw [UInt32.toNat_sub_of_le _ _ (UInt32.le_iff_toNat_le.mpr (by omega)), hmul]
    omega
  rw [hdiv, hsub, dig2bytes_getD _ (by omega), digitBytes]
  omega

theorem rsBinlogDecimalBinsize_eq {precision scale : ℕ} (hp : precision < 256) (hs : scale ≤ precision) :
    (rsBinlogDecimalBinsize (UInt32.ofNat precision) (UInt32.ofNat scale)).toNat =
      digitBytes (precision - scale) + digitBytes scale := by
  have hscale : (UInt32.ofNat scale).toNat = scale := UInt32.toNat_ofNat_of_lt' (by simp only [UInt32.size]; omega)
  have hprec : (UInt32.ofNat precision).toNat = precision :=
      UInt32.toNat_ofNat_of_lt' (by simp only [UInt32.size]; omega)
  have hintg : (UInt32.ofNat precision - UInt32.ofNat scale).toNat = precision - scale := by
    rw [UInt32.toNat_sub_of_le _ _ (UInt32.le_iff_toNat_le.mpr (by omega)), hprec, hscale]
  have h1 := digits_toNat (d := UInt32.ofNat precision - UInt32.ofNat scale) (by omega)
  have h2 := digits_toNat (d := UInt32.ofNat scale) (by omega)
  rw [hintg] at h1
  rw [hscale] at h2
  rw [rsBinlogDecimalBinsize, Nat.add_assoc, h2, h1, UInt32.toNat_ofNat']
  unfold digitBytes
  omega

theorem fixedTypes_meta {code : UInt8} {metas : List UInt8} {width : ℕ} (h : (code, metas, width) ∈ fixedTypes) :
    (rsColumnMeta code).parseHandle = some rsBinlogParseDef ∧ (rsColumnMeta code).fixedLen = width ∧
      metas.length ≤ 1 := by
  simp only [fixedTypes, List.mem_cons, Prod.mk.injEq, List.not_mem_nil, or_false] at h
  rcases h with h | h | h | h | h | h | h | h | h | h | h | h
  all_goals
    obtain ⟨rfl, rfl, rfl⟩ := h
    exact ⟨rfl, rfl, by simp⟩

theorem Encodes.parse {code : UInt8} {metas pre v : List UInt8} (h : Encodes code metas pre v)
    (rest rest' : List UInt8) : ∃ parse, (rsColumnMeta code).parseHandle = some parse ∧
      parse (pre ++ (v ++ rest)) (metas ++ rest') (rsColumnMeta code).metaLen
        (rsColumnMeta code).fixedLen = some (pre.length, v.length) := by
  cases h with
  | fixed htype hv =>
    obtain ⟨hparse, hlen, -⟩ := fixedTypes_meta htype
    exact ⟨rsBinlogParseDef, hparse, by rw [hlen, hv]; rfl⟩
  | @varchar max _ hmax hv =>
    refine ⟨rsBinlogParseVarchar, rfl, ?_⟩
    have hread : readNat 2 (leBytes 2 max ++ rest') = some max := by
      have h := readNat_append (leBytes 2 max) rest'
      rwa [length_leBytes, leNat_leBytes, Nat.mod_eq_of_lt (by omega)] at h
    change rsBinlogParseVarchar _ _ 2 0 = _
    simp only [rsBinlogParseVarchar, hread, Option.bind_eq_bind, Option.bind_some]
    exact readLength_lengthBytes hmax hv _
  | @string max _ hmax hv =>
    refine ⟨rsBinlogParseString, rfl, ?_⟩
    have hbits : (max &&& 0x300) >>> 4 < 2 ^ 8 := by
      have hle : max &&& 0x300 ≤ 0x300 := Nat.and_le_right
      rw [Nat.shiftRight_eq_div_pow]
      omega
    have hbyte : 254 ^^^ ((max &&& 0x300) >>> 4) < 256 := Nat.xor_lt_two_pow (by decide) hbits
    have htype : readNat 1 (stringMetas max ++ rest') = some (254 ^^^ ((max &&& 0x300) >>> 4)) :=
      readNat_one hbyte _
    have hlow : readNat 1 ((stringMetas max ++ rest').drop 1) = some (max &&& 0xff) :=
      readNat_one (Nat.lt_of_le_of_lt Nat.and_le_right (by decide)) _
    simp only [rsBinlogParseString, htype, hlow, Option.bind_eq_bind, Option.bind_some,
      stringMetas_length max hmax]
    exact readLength_lengthBytes (by omega) hv _
  | @blob k _ hpos hk hv =>
    refine ⟨rsBinlogParseBlob, rfl, ?_⟩
    have hread : readNat 1 ([UInt8.ofNat k] ++ rest') = some k := readNat_one (by omega) _
    change rsBinlogParseBlob _ _ 1 0 = _
    simp only [rsBinlogParseBlob, hread, Option.bind_eq_bind, Option.bind_some]
    rw [readLength_append hk hv, length_leBytes]
  | newdecimal hp hs hv =>
    refine ⟨rsBinlogParseDecimal, rfl, ?_⟩
    change rsBinlogParseDecimal _ (_ :: _ :: rest') _ _ = _
    simp only [rsBinlogParseDecimal, readNat_one hp, List.drop_succ_cons, List.drop_zero,
      readNat_one (Nat.lt_of_le_of_lt hs hp), Option.bind_eq_bind, Option.bind_some,
      rsBinlogDecimalBinsize_eq hp hs, hv]
    rfl

theorem Encodes.measures {c : Column} {pre v : List UInt8} (h : Encodes c.code c.metas pre v) :
    Measures c (pre ++ v) pre.length v.length := by
  intro rest rest'
  rw [List.append_assoc]
  exact h.parse rest rest'

theorem Measures.consumes {c : Column} {pre v : List UInt8} (h : Measures c (pre ++ v) pre.length v.length) :
    Consumes c (pre ++ v) := ⟨_, _, h, List.length_append.symm⟩

/-- Such a column has as much metadata as the table of types says. -/
theorem Consumes.metas_length {c : Column} {bytes : List UInt8} (h : Consumes c bytes) :
    c.metas.length = (rsColumnMeta c.code).metaLen := by
  obtain ⟨packLen, dl, hmeasures, -⟩ := h
  obtain ⟨parse, hparse, -⟩ := hmeasures [] []
  exact c.metas_length (hparse ▸ Option.some_ne_none parse)

end MySQLSyncer.Slave
