import Mathlib.Data.FinEnum
import MySQLSyncer.Core.Code
import MySQLSyncer.Lib.Slice
import MySQLSyncer.Master.ReadBinlog
import MySQLSyncer.Slave.SendDumpcmd

/-! # The dump command that the master parses

The pool does not run out of memory for the command.
-/
namespace MySQLSyncer.Master
open Lib MySQLSyncer.Core

/-- `rs_size_read`: the loop ends with all bytes, or with `RS_ERR` at the end of the stream. -/
def rsSizeRead (stream : List UInt8) (size : ℕ) : Option (List UInt8 × List UInt8) :=
  if size ≤ stream.length then some (stream.take size, stream.drop size) else none

def IsDigit (b : UInt8) : Prop := 48 ≤ b ∧ b ≤ 57

instance : DecidablePred IsDigit := fun _ => inferInstanceAs (Decidable (_ ∧ _))

/-- The loop of `rs_str_to_uint32`, which ends at the first byte that is no digit. -/
def rsStrToUint32 (i : UInt32) : List UInt8 → Option UInt32
  | [] => none
  | b :: w => if IsDigit b then rsStrToUint32 (i * 10 + b.toUInt32 - 48) w else some i

/-- The fields of the session that the command sets. The array `dump_file` has been zeroed. -/
structure Dumpcmd where
  dumpFile : List UInt8
  dumpNum : UInt32
  dumpPos : UInt32
  filterTables : Option (List UInt8)
  rbEsusec : UInt32
  deriving DecidableEq

/-- `rs_parse_dumpcmd` behind its reads. -/
def parseDumpcmd (cbuf : List UInt8) : Option (RsCode × Option Dumpcmd) := do
  match ← strchr 44 cbuf with
  | none => some (.err, none)
  | some comma =>
    let dumpFile ← copyInto (List.replicate (pathMax + 1) 0) (cbuf.take comma)
    -- the digits of the suffix are read backwards from the comma
    if ∀ b ∈ cbuf.take comma, IsDigit b then none
    else
      let dumpNum := rsEstrToUint32 (cbuf.take comma)
      let dumpPos ← rsStrToUint32 0 (cbuf.drop (comma + 1))
      match ← strchr 10 (cbuf.drop comma) with
      | none => some (.err, none)
      | some newline =>
        let filterTables := cbuf.drop (comma + newline + 1)
        if (← filterTables[0]?) ≠ 44 then some (.err, none)
        else
          match ← strrchr 44 filterTables with
          | none => some (.err, none)
          | some last =>
            if last < 2 then some (.err, none)
            else
              let rbEsusec ← slice filterTables (last + 2) 4
              let list ← cstr filterTables
              some (.ok, some
                { dumpFile := dumpFile
                  dumpNum := dumpNum
                  dumpPos := dumpPos
                  filterTables := if list.take 2 = [44, 44] then none else some list
                  rbEsusec := UInt32.ofNat (leNat rbEsusec) })

def rsParseDumpcmd (stream : List UInt8) : Option (RsCode × Option Dumpcmd) :=
  match rsSizeRead stream 4 with
  | none => some (.err, none)
  | some (len, stream) =>
    match rsSizeRead stream (leNat len) with
    | none => some (.err, none)
    | some (cbuf, _) => parseDumpcmd cbuf

variable {path list stem digits w : List UInt8} {c : UInt8}

theorem rsStrToUint32_digits (hw : ∀ b ∈ w, IsDigit b) (hc : ¬ IsDigit c) (rest : List UInt8)
    (n : ℕ) : rsStrToUint32 (UInt32.ofNat n) (w ++ c :: rest) =
      some (UInt32.ofNat (w.foldl (fun n b => n * 10 + (b.toNat - 48)) n)) := by
  induction w generalizing n with
  | nil => rw [List.nil_append, rsStrToUint32, if_neg hc, List.foldl_nil]
  | cons b w ih =>
    have hb := hw b List.mem_cons_self
    have hle : 48 ≤ b.toNat := UInt8.le_iff_toNat_le.mp hb.1
    have hstep : UInt32.ofNat n * 10 + b.toUInt32 - 48 = UInt32.ofNat (n * 10 + (b.toNat - 48)) := by
      apply UInt32.toNat_inj.mp
      have hb := b.toNat_lt
      simp only [UInt32.toNat_sub, UInt32.toNat_add, UInt32.toNat_mul, UInt8.toNat_toUInt32,
        UInt32.toNat_ofNat', UInt32.reduceToNat]
      omega
    rw [List.cons_append, rsStrToUint32, if_pos hb, hstep,
      ih (fun x hx => hw x (List.mem_cons_of_mem _ hx)), List.foldl_cons]

theorem decimal_isDigit (n : ℕ) : ∀ b ∈ decimal n, IsDigit b := by
  intro b hb
  obtain ⟨hle, hge⟩ := decimal_digit hb
  exact ⟨UInt8.le_iff_toNat_le.mpr hle, UInt8.le_iff_toNat_le.mpr hge⟩

/-- A path as the master names its files: it ends in a number of at most nine digits. -/
structure BinlogPath (stem digits : List UInt8) : Prop where
  short : (stem ++ digits).length ≤ pathMax
  noNul : 0 ∉ stem ++ digits
  noComma : 44 ∉ stem ++ digits
  noNewline : 10 ∉ stem ++ digits
  stem_last : ∃ s b, stem = s ++ [b] ∧ ¬ IsDigit b
  digits_pos : 1 ≤ digits.length
  digits_le : digits.length ≤ 9
  digits : ∀ b ∈ digits, IsDigit b

theorem BinlogPath.num (h : BinlogPath stem digits) :
    (rsEstrToUint32 (stem ++ digits)).toNat = decimalValue digits := by
  obtain ⟨s, b, rfl, hb⟩ := h.stem_last
  have htake : ((s ++ [b] ++ digits).reverse.takeWhile fun b => 48 ≤ b ∧ b ≤ 57) = digits.reverse := by
    have hall (x : UInt8) (hx : x ∈ digits.reverse) : decide (48 ≤ x ∧ x ≤ 57) = true :=
      decide_eq_true (h.digits x (List.mem_reverse.mp hx))
    rw [List.reverse_append, List.reverse_append, List.takeWhile_append_of_pos hall,
      List.reverse_singleton, List.singleton_append, List.takeWhile_cons_of_neg
          (by simpa [IsDigit] using hb), List.append_nil]
  have hlt := decimalValue_lt digits h.digits
  have hpow : 10 ^ digits.length ≤ 10 ^ 9 := Nat.pow_le_pow_right (by decide) h.digits_le
  rw [rsEstrToUint32, htake, ofDigits_reverse, UInt32.toNat_ofNat', Nat.mod_eq_of_lt (by omega)]

theorem BinlogPath.not_all_digits (h : BinlogPath stem digits) :
    ¬ ∀ b ∈ stem ++ digits, IsDigit b := by
  obtain ⟨s, b, rfl, hb⟩ := h.stem_last
  exact fun hall => hb (hall b (by simp))

/-- The text `path,digits` of the command, the digits in whatever order. -/
theorem parseDumpcmd_text (h : BinlogPath stem digits) (hw : ∀ b ∈ w, IsDigit b) (rbEsusec : UInt32)
    (hne : list ≠ []) (hnul : 0 ∉ list) (hcomma : list.head? ≠ some 44) :
    parseDumpcmd (Slave.dumpcmdText (stem ++ digits ++ 44 :: w) list ++
      leBytes 4 rbEsusec.toNat) = some (.ok, some
        { dumpFile := stem ++ digits ++ List.replicate (pathMax + 1 - (stem ++ digits).length) 0
          dumpNum := rsEstrToUint32 (stem ++ digits)
          dumpPos := UInt32.ofNat (decimalValue w)
          filterTables := some (44 :: (list ++ [44]))
          rbEsusec := rbEsusec }) := by
  set path := stem ++ digits with hpath
  set rb := leBytes 4 rbEsusec.toNat with hrb
  have hrblen : rb.length = 4 := length_leBytes 4 _
  set tables := 44 :: (list ++ 44 :: 0 :: rb) with htables
  set cbuf := path ++ 44 :: (w ++ 10 :: tables) with hcbuf
  have htext : Slave.dumpcmdText (path ++ 44 :: w) list ++ rb = cbuf := by
    simp [Slave.dumpcmdText, hcbuf, htables]
  -- the file name in front of the first comma
  have hfirst : strchr 44 cbuf = some (some path.length) := strchr_append h.noNul h.noComma _
  have htake : cbuf.take path.length = path := List.take_left
  have hdigits : ¬ ∀ b ∈ path, IsDigit b := h.not_all_digits
  have hcopy : copyInto (List.replicate (pathMax + 1) 0) path =
      some (path ++ List.replicate (pathMax + 1 - path.length) 0) := by
    have hshort : path.length ≤ pathMax := h.short
    rw [copyInto, if_pos (by rw [List.length_replicate]; omega), List.drop_replicate]
  -- the position behind it, up to the newline
  have hdrop : cbuf.drop path.length = 44 :: (w ++ 10 :: tables) := List.drop_left
  have hdrop' : cbuf.drop (path.length + 1) = w ++ 10 :: tables := by
    rw [← List.drop_drop, hdrop, List.drop_one, List.tail_cons]
  have hpos : rsStrToUint32 0 (w ++ 10 :: tables) = some (UInt32.ofNat (decimalValue w)) :=
    rsStrToUint32_digits hw (by decide) tables 0
  have hline : strchr 10 (44 :: (w ++ 10 :: tables)) =
      some (some (w).length.succ) := by
    have hno (c : UInt8) (hc : ¬ IsDigit c) : c ∉ w := fun hmem => hc (hw c hmem)
    have h := strchr_append (c := 10) (s := 44 :: w) (by simp [hno 0 (by decide)])
      (by simp [hno 10 (by decide)]) tables
    exact h
  have hrest : cbuf.drop (path.length + (w).length.succ + 1) = tables := by
    have hsplit : 44 :: (w ++ 10 :: tables) =
        44 :: (w ++ [10]) ++ tables := by simp
    rw [Nat.add_assoc, ← List.drop_drop, hdrop, hsplit]
    exact List.drop_left' (by simp)
  -- the list between its commas, and the number behind it
  have hlast : strrchr 44 tables = some (some (list.length + 1)) := by
    have h := strrchr_append (c := 44) (s := 44 :: list) (by simp [hnul]) (by decide) rb
    exact h
  have hcstr : cstr tables = some (44 :: (list ++ [44])) := by
    have h := cstr_append (s := 44 :: (list ++ [44])) (by simp [hnul]) rb
    simpa [htables] using h
  have hnum : slice tables (list.length + 1 + 2) 4 = some rb := by
    have h := slice_append (44 :: (list ++ [44, 0])) rb []
    rw [hrblen] at h
    simpa [htables] using h
  have hlen : ¬ list.length + 1 < 2 := by
    have hpos := List.length_pos_iff.mpr hne
    omega
  have hopen : ¬ (44 :: (list ++ [44])).take 2 = [44, 44] := by
    cases list with
    | nil => exact absurd rfl hne
    | cons b bs => simpa using hcomma
  rw [htext, parseDumpcmd]
  simp only [hfirst, htake, hcopy, if_neg hdigits, hdrop, hdrop', hpos, hline, hrest, hlast,
    hcstr, hnum, Option.bind_eq_bind, Option.bind_some, if_neg hlen, if_neg hopen]
  rw [htables]
  simp [hrb, leNat_leBytes]

/-- What the master makes of a command that the slave prints. -/
theorem rsParseDumpcmd_text (h : BinlogPath stem digits) (hw : ∀ b ∈ w, IsDigit b) (rbEsusec : UInt32)
    (hne : list ≠ []) (hnul : 0 ∉ list) (hcomma : list.head? ≠ some 44)
    (hlen : (Slave.dumpcmdText (stem ++ digits ++ 44 :: w) list).length + 4 < 2 ^ 31) :
    ∃ bytes cmd, Slave.rsSendDumpcmd (stem ++ digits ++ 44 :: w) list rbEsusec = some bytes ∧
      rsParseDumpcmd bytes = some (.ok, some cmd) ∧ cstr cmd.dumpFile = some (stem ++ digits) ∧
      cmd.dumpNum.toNat = decimalValue digits ∧ cmd.dumpPos = UInt32.ofNat (decimalValue w) ∧
      cmd.filterTables = some (44 :: (list ++ [44])) ∧ cmd.rbEsusec = rbEsusec := by
  set text := Slave.dumpcmdText (stem ++ digits ++ 44 :: w) list with htext
  have hread : rsSizeRead (leBytes 4 (text.length + 4) ++ (text ++ leBytes 4 rbEsusec.toNat)) 4 =
      some (leBytes 4 (text.length + 4), text ++ leBytes 4 rbEsusec.toNat) := by
    rw [rsSizeRead, if_pos (by simp), List.take_left' (length_leBytes 4 _),
      List.drop_left' (length_leBytes 4 _)]
  have hsize : leNat (leBytes 4 (text.length + 4)) = (text ++ leBytes 4 rbEsusec.toNat).length := by
    rw [leNat_leBytes, Nat.mod_eq_of_lt (by omega), List.length_append, length_leBytes]
  have hread' : rsSizeRead (text ++ leBytes 4 rbEsusec.toNat) (leNat (leBytes 4 (text.length + 4))) =
      some (text ++ leBytes 4 rbEsusec.toNat, []) := by
    rw [hsize, rsSizeRead, if_pos le_rfl, List.take_length, List.drop_length]
  have hparse : rsParseDumpcmd (leBytes 4 (text.length + 4) ++ (text ++ leBytes 4 rbEsusec.toNat)) =
      parseDumpcmd (text ++ leBytes 4 rbEsusec.toNat) := by
    rw [rsParseDumpcmd, hread]
    simp only [hread']
  have hfile : cstr (stem ++ digits ++ List.replicate (pathMax + 1 - (stem ++ digits).length) 0) =
      some (stem ++ digits) := by
    obtain ⟨n, hn⟩ : ∃ n, pathMax + 1 - (stem ++ digits).length = n + 1 :=
      ⟨pathMax - (stem ++ digits).length, by have := h.short; omega⟩
    rw [hn, List.replicate_succ]
    exact cstr_append h.noNul _
  exact ⟨_, _, Slave.rsSendDumpcmd_eq rbEsusec hlen,
    hparse.trans (parseDumpcmd_text h hw rbEsusec hne hnul hcomma), hfile, h.num, rfl, rfl, rfl⟩

/-- The master's parser inverts the slave's writer. -/
theorem rsParseDumpcmd_rsSendDumpcmd (stem digits list : List UInt8) (pos rbEsusec : UInt32)
    (h : BinlogPath stem digits) (hne : list ≠ []) (hnul : 0 ∉ list) (hcomma : list.head? ≠ some 44)
    (hlen : (Slave.dumpcmdText (stem ++ digits ++ 44 :: decimal pos.toNat) list).length + 4 < 2 ^ 31) :
    ∃ bytes cmd, Slave.rsSendDumpcmd (stem ++ digits ++ 44 :: decimal pos.toNat) list rbEsusec =
        some bytes ∧
      rsParseDumpcmd bytes = some (.ok, some cmd) ∧ cstr cmd.dumpFile = some (stem ++ digits) ∧
      cmd.dumpNum.toNat = decimalValue digits ∧ cmd.dumpPos = pos ∧
      cmd.filterTables = some (44 :: (list ++ [44])) ∧ cmd.rbEsusec = rbEsusec := by
  have hpos : UInt32.ofNat (decimalValue (decimal pos.toNat)) = pos := by
    rw [decimalValue_decimal, UInt32.ofNat_toNat]
  obtain ⟨bytes, cmd, hbytes, hcmd, hfile, hnum, hdump, hrest⟩ :=
    rsParseDumpcmd_text h (decimal_isDigit pos.toNat) rbEsusec hne hnul hcomma hlen
  exact ⟨bytes, cmd, hbytes, hcmd, hfile, hnum, hdump.trans hpos, hrest⟩

theorem rsParseDumpcmd_sample : ∃ bytes cmd,
    Slave.rsSendDumpcmd ([98] ++ [48, 48, 49] ++ 44 :: decimal (4 : UInt32).toNat) [100, 46, 97] 1000 =
        some bytes ∧
      rsParseDumpcmd bytes = some (.ok, some cmd) ∧ cstr cmd.dumpFile = some ([98] ++ [48, 48, 49]) ∧
      cmd.dumpNum.toNat = decimalValue [48, 48, 49] ∧ cmd.dumpPos = 4 ∧
      cmd.filterTables = some (44 :: ([100, 46, 97] ++ [44])) ∧ cmd.rbEsusec = 1000 := by
  have hlen : (decimal (4 : UInt32).toNat).length = 1 := by simp [decimal]
  exact rsParseDumpcmd_rsSendDumpcmd [98] [48, 48, 49] [100, 46, 97] 4 1000
    { short := by decide, noNul := by decide, noComma := by decide, noNewline := by decide
      stem_last := ⟨[], 98, rfl, by decide⟩
      digits_pos := by decide, digits_le := by decide, digits := by simp [IsDigit] }
    (by decide) (by decide) (by decide)
    (by rw [Slave.length_dumpcmdText, List.length_append, List.length_cons, hlen]; decide)

end MySQLSyncer.Master
