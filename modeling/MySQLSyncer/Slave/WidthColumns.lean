import MySQLSyncer.Slave.DecodeColumns
import MySQLSyncer.Slave.Measured

/-! # What the parse functions make of the values

The server writes the values of `BIT`, `ENUM` and `SET` columns without a length in front of them, and
`rs_binlog_parse_varstring` looks for the number of length bytes in the metadata. The other types are
read as they are written.
-/
namespace MySQLSyncer.Slave
open Lib MySQLSyncer.Core

def SelfCounted (v : List UInt8) : Prop := ∃ b u, v = b :: u ∧ b.toNat = u.length

def Column.Counted (c : Column) : Prop := c.code = 254 ∧ ∃ real width, c.metas = [real, width] ∧
    (real = 247 ∨ real = 248)

structure ReadsWhole (c : Column) (pre v : List UInt8) : Prop where
  parsed : (rsColumnMeta c.code).parseHandle ≠ none
  notBit : c.code ≠ 16
  counted : c.Counted → SelfCounted v
  varstring : c.code = 253 → ∃ m, c.metas = [m, UInt8.ofNat pre.length]

/-- The value is read whole, and taken by its entry; of an `ENUM` or a `SET` the first byte would be missing. -/
structure Readable (pas : RsDmPosAlloc) (c : Column) (pre v : List UInt8) : Prop extends ReadsWhole c pre v where
  skipped : c.Counted → pas.pos = -1
  takes : pas.Takes v

def RowsEvent.Readable (env : RowEnv) (ev : RowsEvent) : Prop :=
  ∀ img ∈ ev.images, ∀ i c pre v, img.row[i]? = some (c, .value pre v) → Slave.Readable (env.pasArr i) c pre v

variable {code : UInt8} {metas pre v : List UInt8} {c : Column} {k dl : ℕ}

/-- The length of `BIT(n)` is taken to be the eighth part of its odd bits. -/
theorem bit_measured (n : ℕ) (rest rest' : List UInt8) :
    Measured 16 ([UInt8.ofNat (n % 8), UInt8.ofNat (n / 8)] ++ rest') rest 0 0 := by
  have hodd : (UInt8.ofNat (n % 8)).toNat / 8 = 0 := by
    rw [UInt8.toNat_ofNat']
    omega
  have h := @Measured.bit (UInt8.ofNat (n % 8)) (UInt8.ofNat (n / 8) :: rest') rest
  rwa [hodd] at h

/-- The first byte of an `ENUM` or a `SET` is taken to be its length. -/
theorem enum_measured {real : UInt8} (hreal : real = 247 ∨ real = 248) (width b : UInt8)
    (rest rest' : List UInt8) : Measured 254 ([real, width] ++ rest') (b :: rest) 1 b.toNat := by
  have hmax : charMax real.toNat width.toNat < 256 := by
    rcases hreal with rfl | rfl
    all_goals
      simp only [charMax]
      exact width.toNat_lt
  have h := @Measured.string real width rest' [b] rest (by rw [if_pos hmax]; rfl)
  simpa using h

theorem Measures.unique {bytes : List UInt8} {k' dl' : ℕ} (h : Measures c bytes k dl) (h' : Measures c bytes k' dl') :
    k = k' ∧ dl = dl' := by
  obtain ⟨parse, hparse, heq⟩ := h [] []
  obtain ⟨parse', hparse', heq'⟩ := h' [] []
  obtain rfl := Option.some.inj (hparse.symm.trans hparse')
  exact Prod.mk.inj (Option.some.inj (heq.symm.trans heq'))

theorem Measures.consumes_iff {bytes : List UInt8} (h : Measures c bytes k dl) :
    Consumes c bytes ↔ k + dl = bytes.length := by
  refine ⟨?_, fun hlen => ⟨k, dl, h, hlen⟩⟩
  rintro ⟨k', dl', h', hlen⟩
  obtain ⟨rfl, rfl⟩ := h.unique h'
  exact hlen

/-- The first byte of the metadata tells a `CHAR` from the others. -/
theorem stringMetas_real : ∀ max < 2 ^ 10, UInt8.ofNat (254 ^^^ ((max &&& 0x300) >>> 4)) ≠ 247 ∧
    UInt8.ofNat (254 ^^^ ((max &&& 0x300) >>> 4)) ≠ 248 := by
  decide +kernel

theorem Encodes.readsWhole (h : Encodes c.code c.metas pre v) : ReadsWhole c pre v ∧ ¬ c.Counted := by
  obtain ⟨parse, hparse, -⟩ := h.parse [] []
  have hnot : ¬ c.Counted := by
    rintro ⟨hcode, real, width, hmetas, hreal⟩
    rw [hcode, hmetas] at h
    generalize hpair : [real, width] = metas at h
    cases h with
    | fixed htype hv => simp [fixedTypes] at htype
    | @string max _ hmax hv =>
      have hfirst := stringMetas_real max hmax
      obtain ⟨rfl, -⟩ := List.cons.inj hpair
      exact hreal.elim hfirst.1 hfirst.2
  have htype : c.code ≠ 16 ∧ c.code ≠ 253 := by
    generalize c.code = code at h
    generalize c.metas = metas at h
    cases h with
    | fixed htype hv =>
      constructor
      all_goals
        rintro rfl
        simp [fixedTypes] at htype
    | varchar | string | blob | newdecimal => decide
  exact ⟨⟨hparse ▸ Option.some_ne_none parse, htype.1, fun h => absurd h hnot, fun h => absurd h htype.2⟩, hnot⟩

theorem measures_lengthBytes (hcode : c.code = 252 ∨ c.code = 255) (hk : k ≤ 4)
    (hv : v.length < 256 ^ k) (hmetas : c.metas = [UInt8.ofNat k]) :
    Measures c (leBytes k v.length ++ v) (leBytes k v.length).length v.length := by
  apply measures_iff.mpr
  intro rest rest'
  have hbyte : (leBytes k v.length).length = (UInt8.ofNat k).toNat := by
    rw [length_leBytes, UInt8.toNat_ofNat']
    omega
  have hlen : (leBytes k v.length).length ≤ 4 := by rwa [length_leBytes]
  have h := @Measured.blob c.code (UInt8.ofNat k) rest' (leBytes k v.length) (v ++ rest) hcode hbyte hlen
  rw [leNat_leBytes, Nat.mod_eq_of_lt hv] at h
  rwa [hmetas, List.append_assoc]

/-- What `k` bytes say is no more than what more of them say. -/
theorem leNat_take_le (w : List UInt8) (k : ℕ) : leNat (w.take k) ≤ leNat w := by
  induction w generalizing k with
  | nil => rw [List.take_nil]
  | cons b w ih =>
    cases k with
    | zero => exact Nat.zero_le _
    | succ k =>
      rw [List.take_succ_cons, leNat_cons, leNat_cons]
      have hrest := ih k
      omega

theorem varstring_measures {m m' : UInt8} (hcode : c.code = 253) (hmetas : c.metas = [m, m']) (hm : m'.toNat = k)
    (hk : k ≤ 4) (hv : v.length < 256 ^ k) :
    Measures c (leBytes k v.length ++ v) (leBytes k v.length).length v.length := by
  have hlen : (leBytes k v.length).length = k := length_leBytes k v.length
  apply measures_iff.mpr
  intro rest rest'
  have h := @Measured.varstring m m' rest' (leBytes k v.length) (v ++ rest) (by rw [hlen, hm]) (by rwa [hlen])
  rw [leNat_leBytes, Nat.mod_eq_of_lt hv] at h
  rw [hcode, hmetas, List.append_assoc]
  exact h

/-- With another number of length bytes in the metadata, the lengths do not add up. -/
theorem varstring_consumes_iff {m m' : UInt8} (hcode : c.code = 253) (hmetas : c.metas = [m, m'])
    (hk : k ≤ 4) (hv : v.length < 256 ^ k) : Consumes c (leBytes k v.length ++ v) ↔ m'.toNat = k := by
  have hread : leNat (leBytes k v.length) = v.length := by rw [leNat_leBytes, Nat.mod_eq_of_lt hv]
  have hlen : (leBytes k v.length).length = k := length_leBytes k v.length
  refine ⟨?_, fun hm => (varstring_measures hcode hmetas hm hk hv).consumes⟩
  rintro ⟨k', dl, hsize, hsum⟩
  have hmeasured := measures_iff.mp hsize [] []
  simp only [hcode, hmetas, List.append_nil] at hmeasured
  rw [List.length_append, hlen] at hsum
  generalize hbytes : leBytes k v.length ++ v = bytes at hmeasured
  cases hmeasured with
  | fixed htype => simp [fixedTypes] at htype
  | blob htype => simp at htype
  | @varstring _ _ _ w p hw hle =>
    -- the bytes that are read are some of the length bytes, or all of them and more
    rcases Nat.le_total w.length k with hshort | hlong
    · have htake : w = (leBytes k v.length).take w.length := by
        have h := congrArg (List.take w.length) hbytes
        rwa [List.take_append_of_le_length (by rwa [hlen]), List.take_left, eq_comm] at h
      have hsmall := leNat_take_le (leBytes k v.length) w.length
      rw [← htake, hread] at hsmall
      omega
    · have htake : leBytes k v.length = w.take k := by
        have h := congrArg (List.take k) hbytes
        rwa [List.take_left' hlen, List.take_append_of_le_length hlong] at h
      have hlarge := leNat_take_le w k
      rw [← htake, hread] at hlarge
      omega

theorem WidthColumn.pos {width : ℕ} (h : WidthColumn code metas width) : 0 < width := by
  cases h <;> omega

/-- What is found of a value of a `BIT`, and of one of an `ENUM` or `SET`. -/
theorem WidthColumn.measures (h : WidthColumn c.code c.metas v.length) :
    c.code = 16 ∧ Measures c v 0 0 ∨ c.Counted ∧ ∃ b u, v = b :: u ∧ Measures c v 1 b.toNat := by
  generalize hcode : c.code = code at h
  generalize hmetas : c.metas = metas at h
  generalize hlen : v.length = width at h
  cases h with
  | @bit n hpos hn =>
    refine Or.inl ⟨rfl, measures_iff.mpr fun rest rest' => ?_⟩
    rw [hcode, hmetas]
    exact bit_measured n (v ++ rest) rest'
  | @enum real width hreal hpos hwidth =>
    cases v with
    | nil => exact absurd hpos (by simp [← hlen])
    | cons b u =>
      refine Or.inr ⟨⟨hcode, real, _, hmetas, hreal⟩, b, u, rfl, measures_iff.mpr fun rest rest' => ?_⟩
      rw [hcode, hmetas]
      exact enum_measured hreal _ b (u ++ rest) rest'

theorem Column.Counted.code_ne (h : c.Counted) : c.code ≠ 16 ∧ c.code ≠ 253 ∧
    (rsColumnMeta c.code).parseHandle ≠ none := by
  rw [h.1]
  exact ⟨by decide, by decide, nofun⟩

theorem WidthColumn.consumes_iff (h : WidthColumn c.code c.metas v.length) : Consumes c v ↔ ReadsWhole c [] v := by
  have hpos := h.pos
  rcases h.measures with ⟨hcode, hsize⟩ | ⟨hcounted, b, u, rfl, hsize⟩
  · refine iff_of_false (fun hconsumes => ?_) fun hreads => hreads.notBit hcode
    have hsum := hsize.consumes_iff.mp hconsumes
    omega
  · obtain ⟨hbit, hvarstring, hparsed⟩ := hcounted.code_ne
    rw [hsize.consumes_iff, List.length_cons, Nat.add_comm 1, Nat.add_right_cancel_iff]
    constructor
    · exact fun hb => ⟨hparsed, hbit, fun _ => ⟨b, u, rfl, hb⟩, fun hcode => absurd hcode hvarstring⟩
    · intro hreads
      obtain ⟨b', u', hv, hb⟩ := hreads.counted hcounted
      obtain ⟨rfl, rfl⟩ := List.cons.inj hv
      exact hb

/-- A value is consumed exactly when its type has a parse function other than that of `BIT`, an `ENUM` or a `SET`
happens to count itself, and a `VARSTRING` has its length bytes counted in the metadata. -/
theorem consumes_iff (h : Sent c.code c.metas pre v) : Consumes c (pre ++ v) ↔ ReadsWhole c pre v := by
  generalize hcode : c.code = code at h
  generalize hmetas : c.metas = metas at h
  cases h with
  | encoded h =>
    rw [← hcode, ← hmetas] at h
    exact iff_of_true h.measures.consumes h.readsWhole.1
  | width h =>
    rw [← hcode, ← hmetas] at h
    exact h.consumes_iff
  | @varstring m m' k _ hpos hk hv =>
    have hparsed : (rsColumnMeta c.code).parseHandle ≠ none := by
      rw [hcode]
      exact nofun
    have hcounted : ¬ c.Counted := fun h => h.code_ne.2.1 hcode
    rw [varstring_consumes_iff hcode hmetas hk hv]
    constructor
    · intro hm
      refine ⟨hparsed, by rw [hcode]; decide, fun h => absurd h hcounted, fun _ => ⟨m, ?_⟩⟩
      rw [hmetas, length_leBytes, ← hm, UInt8.ofNat_toNat]
    · intro hreads
      obtain ⟨m1, heq⟩ := hreads.varstring hcode
      rw [hmetas, length_leBytes] at heq
      obtain ⟨-, heq⟩ := List.cons.inj heq
      obtain ⟨rfl, -⟩ := List.cons.inj heq
      rw [UInt8.toNat_ofNat']
      omega
  | @geometry k _ hpos hk hv =>
    refine iff_of_true (measures_lengthBytes (Or.inr hcode) hk hv hmetas).consumes ⟨?_, ?_, ?_, ?_⟩
    · rw [hcode]
      exact nofun
    · rw [hcode]
      decide
    · intro hcounted
      exact absurd (hcode.symm.trans hcounted.1) (by decide)
    · intro hvarstring
      exact absurd (hcode.symm.trans hvarstring) (by decide)
  | unsupported h =>
    rw [← hcode] at h
    refine iff_of_false ?_ fun hreads => hreads.parsed h
    rintro ⟨k, dl, hsize, -⟩
    obtain ⟨parse, hparse, -⟩ := hsize [] []
    exact absurd (hparse.symm.trans h) (Option.some_ne_none parse)

/-- A consumed value is found behind its length exactly when it is no `ENUM` or `SET`. -/
theorem measures_self_iff (h : Sent c.code c.metas pre v) (hconsumes : Consumes c (pre ++ v)) :
    Measures c (pre ++ v) pre.length v.length ↔ ¬ c.Counted := by
  have hreads := (consumes_iff h).mp hconsumes
  generalize hcode : c.code = code at h
  generalize hmetas : c.metas = metas at h
  cases h with
  | encoded h =>
    rw [← hcode, ← hmetas] at h
    exact iff_of_true h.measures h.readsWhole.2
  | width h =>
    rw [← hcode, ← hmetas] at h
    rcases h.measures with ⟨hbit, -⟩ | ⟨hcounted, b, u, rfl, hsize⟩
    · exact absurd hbit hreads.notBit
    · exact iff_of_false (fun hself => absurd (hsize.unique hself).1 one_ne_zero) (not_not_intro hcounted)
  | @varstring m m' k _ hpos hk hv =>
    have hm := (varstring_consumes_iff hcode hmetas hk hv).mp hconsumes
    exact iff_of_true (varstring_measures hcode hmetas hm hk hv) fun hcounted => hcounted.code_ne.2.1 hcode
  | geometry hpos hk hv =>
    exact iff_of_true (measures_lengthBytes (Or.inr hcode) hk hv hmetas)
      fun hcounted => absurd (hcode.symm.trans hcounted.1) (by decide)
  | unsupported h => exact absurd (hcode ▸ h) hreads.parsed

theorem fine_iff {pas : RsDmPosAlloc} (h : Sent c.code c.metas pre v) : Fine pas c pre v ↔ Readable pas c pre v := by
  constructor
  · intro hfine
    have hconsumes := Fine.consumes hfine
    refine ⟨(consumes_iff h).mp hconsumes, fun hcounted => ?_, hfine.1⟩
    exact (hfine.2.resolve_left fun hsize => (measures_self_iff h hconsumes).mp hsize hcounted).1
  · intro hreads
    have hconsumes := (consumes_iff h).mpr hreads.toReadsWhole
    by_cases hcounted : c.Counted
    · exact ⟨hreads.takes, Or.inr ⟨hreads.skipped hcounted, hconsumes⟩⟩
    · exact ⟨hreads.takes, Or.inl ((measures_self_iff h hconsumes).mpr hcounted)⟩

theorem allFine_iff_getElem? {env : RowEnv} {row : Row} {i : ℕ} : row.AllFine env i ↔
    ∀ k c pre v, row[k]? = some (c, .value pre v) → Fine (env.pasArr (i + k)) c pre v := by
  induction row generalizing i with
  | nil => simp [Row.AllFine]
  | cons y row ih =>
    obtain ⟨c, cell⟩ := y
    rw [Row.AllFine, ih]
    constructor
    · rintro ⟨hhead, htail⟩ k c' pre v hk
      cases k with
      | zero =>
        obtain ⟨rfl, rfl⟩ := Prod.mk.inj (Option.some.inj hk)
        exact hhead
      | succ k =>
        rw [Nat.add_comm k, ← Nat.add_assoc]
        exact htail k c' pre v hk
    · intro h
      refine ⟨?_, fun k c' pre v hk => ?_⟩
      · cases cell with
        | value pre v => exact h 0 c pre v rfl
        | unused | null => trivial
      · rw [Nat.add_assoc, Nat.add_comm 1]
        exact h (k + 1) c' pre v hk

theorem allFine_iff_readable (env : RowEnv) (ev : RowsEvent) :
    (∀ img ∈ ev.images, img.row.AllFine env 0) ↔ ev.Readable env := by
  refine forall₂_congr fun img himg => ?_
  rw [allFine_iff_getElem?]
  refine forall₄_congr fun i c pre v => forall_congr' fun hi => ?_
  rw [Nat.zero_add]
  exact fine_iff (img.sent c pre v (List.mem_of_getElem? hi))

end MySQLSyncer.Slave
