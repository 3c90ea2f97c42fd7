import MySQLSyncer.Slave.RowFormat

/-! # What a parse function reads

The two lengths that it finds, by the type, the metadata and the bytes, without the function.
-/
namespace MySQLSyncer.Slave
open Lib MySQLSyncer.Core

def charMax (type low : ℕ) : ℕ :=
  if type &&& 0x30 ≠ 0x30 then low ||| (((type &&& 0x30) ^^^ 0x30) <<< 4) else low

/-- By its type, the metadata from its place on and the bytes from the cursor on, a value of `dl`
bytes stands behind `k` bytes of length. -/
inductive Measured : UInt8 → List UInt8 → List UInt8 → ℕ → ℕ → Prop
  | fixed {code : UInt8} {cm p : List UInt8} {width : ℕ} (htype : ∃ metas, (code, metas, width) ∈ fixedTypes) :
      Measured code cm p 0 width
  | varchar {m cm pre p : List UInt8} (hm : m.length = 2)
      (hpre : pre.length = if leNat m < 256 then 1 else 2) :
      Measured 15 (m ++ cm) (pre ++ p) pre.length (leNat pre)
  | bit {m : UInt8} {cm p : List UInt8} : Measured 16 (m :: cm) p 0 (m.toNat / 8)
  | decimal {m m' : UInt8} {cm p : List UInt8} : Measured 246 (m :: m' :: cm) p 0
      (rsBinlogDecimalBinsize (UInt32.ofNat m.toNat) (UInt32.ofNat m'.toNat)).toNat
  | blob {code m : UInt8} {cm pre p : List UInt8} (htype : code = 252 ∨ code = 255)
      (hpre : pre.length = m.toNat) (hle : pre.length ≤ 4) :
      Measured code (m :: cm) (pre ++ p) pre.length (leNat pre)
  | varstring {m m' : UInt8} {cm pre p : List UInt8} (hpre : pre.length = m'.toNat) (hle : pre.length ≤ 4) :
      Measured 253 (m :: m' :: cm) (pre ++ p) pre.length (leNat pre)
  | string {m m' : UInt8} {cm pre p : List UInt8}
      (hpre : pre.length = if charMax m.toNat m'.toNat < 256 then 1 else 2) :
      Measured 254 (m :: m' :: cm) (pre ++ p) pre.length (leNat pre)

theorem readNat_eq_some {n k : ℕ} {p : List UInt8} :
    readNat n p = some k ↔ ∃ w rest, p = w ++ rest ∧ w.length = n ∧ leNat w = k := by
  constructor
  · intro h
    obtain ⟨r, hr, rfl⟩ := Option.map_eq_some_iff.mp h
    unfold takeBytes at hr
    split_ifs at hr with hle
    cases hr
    exact ⟨p.take n, p.drop n, (List.take_append_drop n p).symm, by simpa using hle, rfl⟩
  · rintro ⟨w, rest, rfl, rfl, rfl⟩
    exact readNat_append w rest

theorem readLength_eq_some {n k dl : ℕ} {p : List UInt8} : readLength n p = some (k, dl) ↔
    k = n ∧ n ≤ 4 ∧ ∃ w rest, p = w ++ rest ∧ w.length = n ∧ leNat w = dl := by
  unfold readLength
  split_ifs with h
  · exact iff_of_false nofun fun hle => h.not_ge hle.2.1
  · rw [Option.map_eq_some_iff]
    simp only [readNat_eq_some, Prod.mk.injEq]
    constructor
    · rintro ⟨dl', hread, rfl, rfl⟩
      exact ⟨rfl, by omega, hread⟩
    · rintro ⟨rfl, -, hread⟩
      exact ⟨dl, hread, rfl, rfl⟩

theorem readNat_one_eq_some {k : ℕ} {p : List UInt8} :
    readNat 1 p = some k ↔ ∃ (b : UInt8) (rest : List UInt8), p = b :: rest ∧ b.toNat = k := by
  rw [readNat_eq_some]
  constructor
  · rintro ⟨w, rest, rfl, hlen, rfl⟩
    obtain ⟨b, rfl⟩ := List.length_eq_one_iff.mp hlen
    exact ⟨b, rest, rfl, by simp⟩
  · rintro ⟨b, rest, rfl, rfl⟩
    exact ⟨[b], rest, rfl, rfl, by simp⟩

theorem Measured.parse {t : UInt8} {cm p : List UInt8} {k dl : ℕ} (h : Measured t cm p k dl) :
    ∃ parse, (rsColumnMeta t).parseHandle = some parse ∧
      parse p cm (rsColumnMeta t).metaLen (rsColumnMeta t).fixedLen = some (k, dl) := by
  cases h with
  | fixed htype =>
    obtain ⟨metas, htype⟩ := htype
    obtain ⟨hparse, hlen, -⟩ := fixedTypes_meta htype
    exact ⟨rsBinlogParseDef, hparse, by rw [hlen]; rfl⟩
  | @varchar m cm pre p hm hpre =>
    refine ⟨rsBinlogParseVarchar, rfl, ?_⟩
    have hread : readNat 2 (m ++ cm) = some (leNat m) := hm ▸ readNat_append m cm
    change rsBinlogParseVarchar _ _ 2 0 = _
    simp only [rsBinlogParseVarchar, hread, Option.bind_eq_bind, Option.bind_some]
    refine readLength_eq_some.mpr ⟨hpre, ?_, pre, p, rfl, hpre, rfl⟩
    split_ifs <;> omega
  | @bit m cm p =>
    refine ⟨rsBinlogParseBit, rfl, ?_⟩
    have hread : readNat 1 (m :: cm) = some m.toNat := readNat_one_eq_some.mpr ⟨m, cm, rfl, rfl⟩
    simp only [rsBinlogParseBit, hread, Option.bind_eq_bind, Option.bind_some]
  | @decimal m m' cm p =>
    refine ⟨rsBinlogParseDecimal, rfl, ?_⟩
    have hread : readNat 1 (m :: m' :: cm) = some m.toNat := readNat_one_eq_some.mpr ⟨m, _, rfl, rfl⟩
    have hread' : readNat 1 (m' :: cm) = some m'.toNat := readNat_one_eq_some.mpr ⟨m', _, rfl, rfl⟩
    simp only [rsBinlogParseDecimal, hread, List.drop_succ_cons, List.drop_zero, hread', Option.bind_eq_bind,
      Option.bind_some]
  | @blob t m cm pre p htype hpre hle =>
    refine ⟨rsBinlogParseBlob, by rcases htype with rfl | rfl <;> rfl, ?_⟩
    have hread : readNat 1 (m :: cm) = some m.toNat := readNat_one_eq_some.mpr ⟨m, _, rfl, rfl⟩
    have hmeta : (rsColumnMeta t).metaLen = 1 := by rcases htype with rfl | rfl <;> rfl
    rw [hmeta]
    simp only [rsBinlogParseBlob, hread, Option.bind_eq_bind, Option.bind_some]
    exact readLength_eq_some.mpr ⟨hpre, hpre ▸ hle, pre, p, rfl, hpre, rfl⟩
  | @varstring m m' cm pre p hpre hle =>
    refine ⟨rsBinlogParseVarstring, rfl, ?_⟩
    have hread : readNat 1 (m' :: cm) = some m'.toNat := readNat_one_eq_some.mpr ⟨m', _, rfl, rfl⟩
    simp only [rsBinlogParseVarstring, List.drop_succ_cons, List.drop_zero, hread, Option.bind_eq_bind,
      Option.bind_some]
    exact readLength_eq_some.mpr ⟨hpre, hpre ▸ hle, pre, p, rfl, hpre, rfl⟩
  | @string m m' cm pre p hpre =>
    refine ⟨rsBinlogParseString, rfl, ?_⟩
    have hread : readNat 1 (m :: m' :: cm) = some m.toNat := readNat_one_eq_some.mpr ⟨m, _, rfl, rfl⟩
    have hread' : readNat 1 (m' :: cm) = some m'.toNat := readNat_one_eq_some.mpr ⟨m', _, rfl, rfl⟩
    simp only [rsBinlogParseString, hread, List.drop_succ_cons, List.drop_zero, hread', Option.bind_eq_bind,
      Option.bind_some]
    refine readLength_eq_some.mpr ⟨hpre, ?_, pre, p, rfl, hpre, rfl⟩
    split_ifs <;> omega

theorem measured_blob {t : UInt8} {cm p : List UInt8} {k dl : ℕ} (htype : t = 252 ∨ t = 255)
    (hparse : rsBinlogParseBlob p cm 1 0 = some (k, dl)) : Measured t cm p k dl := by
  obtain ⟨n, hn, hread⟩ := Option.bind_eq_some_iff.mp hparse
  obtain ⟨m, cm, rfl, rfl⟩ := readNat_one_eq_some.mp hn
  obtain ⟨rfl, hle, pre, rest, rfl, hpre, rfl⟩ := readLength_eq_some.mp hread
  rw [← hpre]
  exact .blob htype hpre (hpre ▸ hle)

/-- The two bytes of metadata that three of the parse functions look at. -/
theorem readNat_two_eq_some {cm : List UInt8} {n n' : ℕ} (hn : readNat 1 cm = some n)
    (hn' : readNat 1 (cm.drop 1) = some n') :
    ∃ (m m' : UInt8) (rest : List UInt8), cm = m :: m' :: rest ∧ m.toNat = n ∧ m'.toNat = n' := by
  obtain ⟨m, rest, rfl, rfl⟩ := readNat_one_eq_some.mp hn
  obtain ⟨m', rest', hrest, rfl⟩ := readNat_one_eq_some.mp hn'
  exact ⟨m, m', rest', by rw [← hrest]; rfl, rfl, rfl⟩

/-- Every parse function finds just the values that the metadata describes. -/
theorem measured_iff {t : UInt8} {cm p : List UInt8} {k dl : ℕ} : Measured t cm p k dl ↔
    ∃ parse, (rsColumnMeta t).parseHandle = some parse ∧
      parse p cm (rsColumnMeta t).metaLen (rsColumnMeta t).fixedLen = some (k, dl) := by
  refine ⟨Measured.parse, ?_⟩
  rintro ⟨parse, hhandle, hparse⟩
  have hcode : t = UInt8.ofNat t.toNat := by simp
  unfold rsColumnMeta at hhandle hparse
  split at hhandle
  all_goals rename_i htype
  all_goals simp only [htype] at hparse hcode
  all_goals cases hhandle
  case h_13 =>
    obtain ⟨max, hmax, hread⟩ := Option.bind_eq_some_iff.mp hparse
    obtain ⟨m, cm, rfl, hm, rfl⟩ := readNat_eq_some.mp hmax
    obtain ⟨rfl, -, pre, rest, rfl, hpre, rfl⟩ := readLength_eq_some.mp hread
    rw [hcode, ← hpre]
    exact .varchar hm hpre
  case h_14 =>
    obtain ⟨len, hlen, hdone⟩ := Option.bind_eq_some_iff.mp hparse
    obtain ⟨m, cm, rfl, rfl⟩ := readNat_one_eq_some.mp hlen
    cases hdone
    rw [hcode]
    exact .bit
  case h_15 =>
    obtain ⟨decimal, hdecimal, hparse⟩ := Option.bind_eq_some_iff.mp hparse
    obtain ⟨precision, hprecision, hdone⟩ := Option.bind_eq_some_iff.mp hparse
    obtain ⟨m, m', cm, rfl, rfl, rfl⟩ := readNat_two_eq_some hdecimal hprecision
    cases hdone
    rw [hcode]
    exact .decimal
  case h_16 => exact measured_blob (Or.inl hcode) hparse
  case h_17 =>
    obtain ⟨n, hn, hread⟩ := Option.bind_eq_some_iff.mp hparse
    obtain ⟨m', rest', hcm, rfl⟩ := readNat_one_eq_some.mp hn
    obtain ⟨rfl, hle, pre, rest, rfl, hpre, rfl⟩ := readLength_eq_some.mp hread
    cases cm with
    | nil => cases hcm
    | cons m cm =>
      obtain rfl : cm = m' :: rest' := hcm
      rw [hcode, ← hpre]
      exact .varstring hpre (hpre ▸ hle)
  case h_18 =>
    obtain ⟨type, htype, hparse⟩ := Option.bind_eq_some_iff.mp hparse
    obtain ⟨low, hlow, hread⟩ := Option.bind_eq_some_iff.mp hparse
    obtain ⟨m, m', cm, rfl, rfl, rfl⟩ := readNat_two_eq_some htype hlow
    obtain ⟨rfl, -, pre, rest, rfl, hpre, rfl⟩ := readLength_eq_some.mp hread
    rw [hcode, ← hpre]
    exact .string hpre
  case h_19 => exact measured_blob (Or.inr hcode) hparse
  all_goals
    rw [hcode]
    obtain ⟨rfl, rfl⟩ := by simpa [rsBinlogParseDef] using hparse
    exact .fixed (by simp [fixedTypes])

theorem measures_iff {c : Column} {bytes : List UInt8} {k dl : ℕ} : Measures c bytes k dl ↔
    ∀ rest rest', Measured c.code (c.metas ++ rest') (bytes ++ rest) k dl :=
  forall_congr' fun _ => forall_congr' fun _ => measured_iff.symm

end MySQLSyncer.Slave
