import MySQLSyncer.Lib.Lines
import MySQLSyncer.Master.ParseDumpcmd

/-! # The index file, byte by byte

`rs_has_next_binlog` reads the index from its start, line by line, and takes the number of a line
from the last digit on.
-/
namespace MySQLSyncer.Master
open Lib MySQLSyncer.Core

/-- `rs_estr_to_uint32(s + len - 2)`: the last byte is passed over. A search that runs off the
start of the array is undefined. -/
def lineNumber (s : List UInt8) : Option UInt32 :=
  if ∀ b ∈ s.dropLast, IsDigit b then none else some (rsEstrToUint32 s.dropLast)

/-- `dump_file` behind the copy of the line and the zero over its last byte. -/
def lineFile (s : List UInt8) : DumpFile where
  name := ((s.take pathMax).takeWhile (· ≠ 0)).dropLast
  short := by
    have hle := ((s.take pathMax).takeWhile_sublist (· ≠ 0)).length_le
    rw [List.length_take] at hle
    rw [List.length_dropLast]
    omega
  noNul := fun h => by simpa using List.mem_takeWhile_imp (List.mem_of_mem_dropLast h)

/-- The loop of `rs_has_next_binlog`. Every turn takes at least one byte. -/
def scanIndex (broken : Bool) (rd : RsReqdumpData) : ℕ → List UInt8 → Option (RsCode × RsReqdumpData)
  | 0, _ => none
  | fuel + 1, w =>
    match fgets pathMax broken w with
    | none => some (if broken then .err else .noBinlog, rd)
    | some (chunk, rest) => do
      let s := chunk.takeWhile (· ≠ 0)
      let n ← lineNumber s
      if n ≤ rd.dumpNum then scanIndex broken rd fuel rest
      else some (.ok, { rd with dumpFile := lineFile s, dumpNum := n, dumpPos := 0 })

/-- `rs_has_next_binlog` on the bytes of the index; `broken` if reading them ends in an error. -/
def rsHasNextBinlogFile (index : List UInt8) (broken : Bool) (rd : RsReqdumpData) :
    Option (RsCode × RsReqdumpData) :=
  scanIndex broken rd (index.length + 1) index

structure IndexLine where
  stem : List UInt8
  digits : List UInt8
  stem_last : ∃ s b, stem = s ++ [b] ∧ ¬ IsDigit b
  digits_ne : digits ≠ []
  digits_isDigit : ∀ b ∈ digits, IsDigit b
  noNul : 0 ∉ stem ++ digits
  noNewline : newline ∉ stem ++ digits
  short : (stem ++ digits).length < pathMax

namespace IndexLine

def path (l : IndexLine) : List UInt8 := l.stem ++ l.digits

def num (l : IndexLine) : ℕ := decimalValue l.digits

end IndexLine

def indexBytes (lines : List IndexLine) : List UInt8 := lines.flatMap fun l => l.path ++ [newline]

def Increasing (lines : List IndexLine) : Prop := lines.Pairwise fun l l' => l.num < l'.num

/-- The lines up to the next one, and that one: none of the lines that are not yet read has a
smaller number. -/
def UpToNext (rd : RsReqdumpData) (lines : List IndexLine) (l : IndexLine) : Prop :=
  l ∈ lines ∧ ∀ l' ∈ lines, rd.dumpNum.toNat < l'.num → l.num ≤ l'.num

/-- The scan finds the line with the least number above the old one and takes its path, or says
that there is none and changes nothing. -/
def ScanRight (rd : RsReqdumpData) (lines : List IndexLine) (result : Option (RsCode × RsReqdumpData)) : Prop :=
  (∃ rd' l, result = some (.ok, rd') ∧ UpToNext rd lines l ∧ rd.dumpNum.toNat < l.num ∧
    rd'.dumpNum.toNat = l.num ∧ rd'.dumpFile.name = l.path ∧
    rd' = { rd with dumpFile := rd'.dumpFile, dumpNum := rd'.dumpNum, dumpPos := 0 }) ∨
  (result = some (.noBinlog, rd) ∧ ∀ l ∈ lines, l.num ≤ rd.dumpNum.toNat)

/-- The lines that the scan looks at fit its array, and their numbers fit in 32 bits. -/
def ScanFits (rd : RsReqdumpData) (lines : List IndexLine) : Prop :=
  ∀ l, UpToNext rd lines l → l.path.length + 2 ≤ pathMax ∧ l.num < 2 ^ 32

variable {rd rd' : RsReqdumpData} {lines : List IndexLine} {l l' : IndexLine} {fuel : ℕ} {broken : Bool}

theorem IndexLine.takeWhile_noNul (l : IndexLine) : l.path.takeWhile (· ≠ 0) = l.path := by
  rw [List.takeWhile_eq_self_iff]
  intro b hb
  simpa using fun h : b = 0 => l.noNul (h ▸ hb)

theorem IndexLine.takeWhile_line (l : IndexLine) :
    (l.path ++ [newline]).takeWhile (· ≠ 0) = l.path ++ [newline] := by
  rw [List.takeWhile_append_of_pos (List.takeWhile_eq_self_iff.mp l.takeWhile_noNul)]
  rfl

theorem IndexLine.estr (l : IndexLine) {ds : List UInt8} (hds : ∀ b ∈ ds, IsDigit b) :
    rsEstrToUint32 (l.stem ++ ds) = UInt32.ofNat (decimalValue ds) := by
  obtain ⟨s, b, hstem, hb⟩ := l.stem_last
  have hall (x : UInt8) (hx : x ∈ ds.reverse) : decide (48 ≤ x ∧ x ≤ 57) = true :=
    decide_eq_true (hds x (List.mem_reverse.mp hx))
  rw [rsEstrToUint32, hstem, List.reverse_append, List.reverse_append, List.takeWhile_append_of_pos hall,
    List.reverse_singleton, List.singleton_append, List.takeWhile_cons_of_neg (by simpa [IsDigit] using hb),
    List.append_nil, ofDigits_reverse]

theorem IndexLine.not_all_digits (l : IndexLine) (ds : List UInt8) : ¬ ∀ b ∈ l.stem ++ ds, IsDigit b := by
  obtain ⟨s, b, hstem, hb⟩ := l.stem_last
  exact fun hall => hb (hall b (by simp [hstem]))

theorem scanIndex_short (hshort : l.path.length + 2 ≤ pathMax) (rest : List UInt8) :
    scanIndex broken rd (fuel + 1) (l.path ++ newline :: rest) =
      if UInt32.ofNat l.num ≤ rd.dumpNum then scanIndex broken rd fuel rest
      else some (.ok, { rd with
        dumpFile := lineFile (l.path ++ [newline]), dumpNum := UInt32.ofNat l.num, dumpPos := 0 }) := by
  have hnum : lineNumber (l.path ++ [newline]) = some (UInt32.ofNat l.num) := by
    have hdigits : ¬ ∀ b ∈ l.path, IsDigit b := l.not_all_digits l.digits
    have hestr : rsEstrToUint32 l.path = UInt32.ofNat l.num := l.estr l.digits_isDigit
    rw [lineNumber, List.dropLast_concat, if_neg hdigits, hestr]
  have hline : newline ∉ l.path := l.noNewline
  rw [scanIndex, fgets_short hline (by omega)]
  simp only [l.takeWhile_line, hnum, Option.bind_eq_bind, Option.bind_some]

theorem lineFile_short (hshort : l.path.length + 2 ≤ pathMax) : (lineFile (l.path ++ [newline])).name = l.path := by
  have htake : (l.path ++ [newline]).take pathMax = l.path ++ [newline] := by
    rw [List.take_of_length_le]
    rw [List.length_append, List.length_singleton]
    omega
  change (((l.path ++ [newline]).take pathMax).takeWhile (· ≠ 0)).dropLast = l.path
  rw [htake, l.takeWhile_line, List.dropLast_concat]

/-- A newline alone: the search for its number begins in front of the array. -/
theorem scanIndex_newline (rest : List UInt8) : scanIndex broken rd fuel (newline :: rest) = none := by
  cases fuel with
  | zero => rfl
  | succ fuel =>
    have hline := @fgets_short [] pathMax (by simp) (by decide) broken rest
    rw [List.nil_append, List.nil_append] at hline
    have hnumber : lineNumber ([newline].takeWhile (· ≠ 0)) = none := by simp [lineNumber, newline]
    rw [scanIndex, hline]
    simp only [hnumber, Option.bind_eq_bind, Option.bind_none]

/-- A line that is too long by one byte is cut before its newline: its last digit is passed over. -/
theorem scanIndex_long (hlong : pathMax < l.path.length + 2) (rest : List UInt8) :
    scanIndex broken rd (fuel + 1) (l.path ++ newline :: rest) = none ∨
      ∃ rd', scanIndex broken rd (fuel + 1) (l.path ++ newline :: rest) = some (.ok, rd') ∧
        rd'.dumpNum.toNat ≤ l.num ∧ rd'.dumpFile.name ≠ l.path := by
  have hlen : l.path.length + 1 = pathMax := by
    have hshort : l.path.length < pathMax := l.short
    omega
  have hline : newline ∉ l.path := l.noNewline
  have htake : l.path.take (pathMax - 1) = l.path := List.take_of_length_le (by omega)
  have hdrop : l.path.drop (pathMax - 1) = [] := List.drop_of_length_le (by omega)
  have hlast : l.path.dropLast = l.stem ++ l.digits.dropLast := List.dropLast_append_of_ne_nil l.digits_ne
  have hdigits : ∀ b ∈ l.digits.dropLast, IsDigit b := fun b hb => l.digits_isDigit b (List.mem_of_mem_dropLast hb)
  have hnum : lineNumber l.path = some (UInt32.ofNat (decimalValue l.digits.dropLast)) := by
    rw [lineNumber, hlast, if_neg (l.not_all_digits _), l.estr hdigits]
  rw [scanIndex, fgets_long hline (by omega), htake, hdrop, List.nil_append]
  simp only [l.takeWhile_noNul, hnum, Option.bind_eq_bind, Option.bind_some, scanIndex_newline]
  split_ifs
  · exact Or.inl rfl
  refine Or.inr ⟨_, rfl, ?_, ?_⟩
  · have hvalue : decimalValue l.digits.dropLast ≤ l.num := by
      have happend := decimalValue_append l.digits.dropLast (l.digits.getLast l.digits_ne)
      rw [List.dropLast_append_getLast] at happend
      unfold IndexLine.num
      omega
    rw [UInt32.toNat_ofNat']
    exact (Nat.mod_le _ _).trans hvalue
  · intro hname
    change ((l.path.take pathMax).takeWhile (· ≠ 0)).dropLast = l.path at hname
    rw [List.take_of_length_le (by omega), l.takeWhile_noNul] at hname
    have hcut := congrArg List.length hname
    rw [List.length_dropLast] at hcut
    unfold pathMax at hlen
    omega

theorem increasing_cons : Increasing (l :: lines) ↔ (∀ l' ∈ lines, l.num < l'.num) ∧ Increasing lines :=
  List.pairwise_cons

theorem Increasing.le (h : Increasing (l :: lines)) (hmem : l' ∈ l :: lines) : l.num ≤ l'.num := by
  rcases List.mem_cons.mp hmem with rfl | hmem
  · exact le_rfl
  · exact ((increasing_cons.mp h).1 l' hmem).le

theorem Increasing.eq_of_le (h : Increasing (l :: lines)) (hmem : l' ∈ l :: lines) (hle : l'.num ≤ l.num) :
    l' = l := by
  rcases List.mem_cons.mp hmem with rfl | hmem
  · rfl
  · exact absurd hle ((increasing_cons.mp h).1 l' hmem).not_ge

theorem Increasing.upToNext (h : Increasing (l :: lines)) : UpToNext rd (l :: lines) l :=
  ⟨List.mem_cons_self, fun _ hmem _ => h.le hmem⟩

theorem upToNext_cons_of_le (hold : l.num ≤ rd.dumpNum.toNat) :
    UpToNext rd (l :: lines) l' ↔ l' = l ∨ UpToNext rd lines l' := by
  constructor
  · rintro ⟨hmem, hleast⟩
    rcases List.mem_cons.mp hmem with rfl | hmem
    · exact Or.inl rfl
    · exact Or.inr ⟨hmem, fun x hx => hleast x (List.mem_cons_of_mem _ hx)⟩
  · rintro (rfl | ⟨hmem, hleast⟩)
    · exact ⟨List.mem_cons_self, fun x _ hx => by omega⟩
    · refine ⟨List.mem_cons_of_mem _ hmem, fun x hx hnew => ?_⟩
      rcases List.mem_cons.mp hx with rfl | hx
      · omega
      · exact hleast x hx hnew

theorem scanRight_cons_of_le (hold : l.num ≤ rd.dumpNum.toNat) {result : Option (RsCode × RsReqdumpData)} :
    ScanRight rd (l :: lines) result ↔ ScanRight rd lines result := by
  unfold ScanRight
  simp only [upToNext_cons_of_le hold, List.forall_mem_cons]
  constructor
  · rintro (⟨rd', l', hres, hnext, hnew, hrest⟩ | ⟨hres, -, hall⟩)
    · rcases hnext with rfl | hnext
      · exact absurd hold hnew.not_ge
      · exact Or.inl ⟨rd', l', hres, hnext, hnew, hrest⟩
    · exact Or.inr ⟨hres, hall⟩
  · rintro (⟨rd', l', hres, hnext, hrest⟩ | ⟨hres, hall⟩)
    · exact Or.inl ⟨rd', l', hres, Or.inr hnext, hrest⟩
    · exact Or.inr ⟨hres, hold, hall⟩

/-- A line that the array holds, with a number of 32 bits, is understood. -/
theorem scanRight_short (hinc : Increasing (l :: lines)) (hshort : l.path.length + 2 ≤ pathMax)
    (hnum : l.num < 2 ^ 32) (ih : ScanRight rd lines (scanIndex false rd fuel (indexBytes lines)) ↔
        ScanFits rd lines) :
    ScanRight rd (l :: lines) (scanIndex false rd (fuel + 1) (indexBytes (l :: lines))) ↔
      ScanFits rd (l :: lines) := by
  have hbytes : indexBytes (l :: lines) = l.path ++ newline :: indexBytes lines := by simp [indexBytes]
  have hto : (UInt32.ofNat l.num).toNat = l.num := by
    rw [UInt32.toNat_ofNat']
    omega
  rw [hbytes, scanIndex_short hshort]
  by_cases hold : l.num ≤ rd.dumpNum.toNat
  · rw [if_pos (by rw [UInt32.le_iff_toNat_le, hto]; exact hold), scanRight_cons_of_le hold, ih]
    constructor
    · intro h l' hnext
      rcases (upToNext_cons_of_le hold).mp hnext with rfl | hnext
      · exact ⟨hshort, hnum⟩
      · exact h l' hnext
    · exact fun h l' hnext => h l' ((upToNext_cons_of_le hold).mpr (Or.inr hnext))
  · rw [if_neg (by rw [UInt32.le_iff_toNat_le, hto]; exact hold)]
    refine iff_of_true (Or.inl ⟨_, l, rfl, hinc.upToNext, not_le.mp hold, hto, lineFile_short hshort, rfl⟩) ?_
    intro l' hnext
    obtain rfl := hinc.eq_of_le hnext.1 (hnext.2 l List.mem_cons_self (not_le.mp hold))
    exact ⟨hshort, hnum⟩

/-- A first line with a larger number is not found, and nothing is right instead. -/
theorem not_scanRight_large (hinc : Increasing (l :: lines)) (hnum : 2 ^ 32 ≤ l.num)
    (result : Option (RsCode × RsReqdumpData)) : ¬ ScanRight rd (l :: lines) result := by
  have hold := rd.dumpNum.toNat_lt
  rintro (⟨rd', l', -, hnext, -, hto, -⟩ | ⟨-, hall⟩)
  · have hle := hinc.le hnext.1
    have hlt := rd'.dumpNum.toNat_lt
    omega
  · have hle := hall l List.mem_cons_self
    omega

theorem not_scanRight_long (hinc : Increasing (l :: lines)) (hlong : pathMax < l.path.length + 2) :
    ¬ ScanRight rd (l :: lines) (scanIndex false rd (fuel + 1) (indexBytes (l :: lines))) := by
  have hbytes : indexBytes (l :: lines) = l.path ++ newline :: indexBytes lines := by simp [indexBytes]
  rw [hbytes]
  rcases @scanIndex_long rd l fuel false hlong (indexBytes lines) with hnone | ⟨rd1, hok, hle, hne⟩
  · rw [hnone]
    rintro (⟨rd', l', hres, -⟩ | ⟨hres, -⟩) <;> cases hres
  · rw [hok]
    rintro (⟨rd', l', hres, hnext, -, hto, hname, -⟩ | ⟨hres, -⟩)
    · cases hres
      obtain rfl := hinc.eq_of_le hnext.1 (hto ▸ hle)
      exact hne hname
    · cases hres

/-- On every index the scan is right exactly when the lines it looks at fit. The induction is on
the lines that are left. -/
theorem scanIndex_right_iff (hinc : Increasing lines) (hfuel : lines.length < fuel) :
    ScanRight rd lines (scanIndex false rd fuel (indexBytes lines)) ↔ ScanFits rd lines := by
  induction lines generalizing fuel with
  | nil =>
    cases fuel with
    | zero => simp at hfuel
    | succ fuel => exact iff_of_true (Or.inr ⟨rfl, nofun⟩) (fun l h => absurd h.1 (by simp))
  | cons l lines ih =>
    cases fuel with
    | zero => simp at hfuel
    | succ fuel =>
      by_cases hshort : l.path.length + 2 ≤ pathMax
      · by_cases hnum : l.num < 2 ^ 32
        · exact scanRight_short hinc hshort hnum (ih (increasing_cons.mp hinc).2 (by simpa using hfuel))
        · exact iff_of_false (not_scanRight_large hinc (not_lt.mp hnum) _) fun h => hnum (h l hinc.upToNext).2
      · exact iff_of_false (not_scanRight_long hinc (not_le.mp hshort)) fun h => hshort (h l hinc.upToNext).1

/-- Every line takes a byte at least, so the scan has fuel enough. -/
theorem indexBytes_length (lines : List IndexLine) : lines.length < (indexBytes lines).length + 1 := by
  induction lines with
  | nil => simp
  | cons l lines ih =>
    have hbytes : indexBytes (l :: lines) = l.path ++ newline :: indexBytes lines := by simp [indexBytes]
    rw [hbytes, List.length_cons, List.length_append, List.length_cons]
    omega

end MySQLSyncer.Master
