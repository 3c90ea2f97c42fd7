import MySQLSyncer.Core.LogBase

/-! # The log line of a dump command

`rs_parse_dumpcmd` logs a command with its strings before it goes on.
-/
namespace MySQLSyncer.Master
open Lib MySQLSyncer.Core

def cmdField (name value : List UInt8) : List UInt8 := name ++ [32, 61, 32] ++ value

def dumpcmdText (cmd dumpFile filterTables : List UInt8) (dumpNum dumpPos rbEsusec : UInt32) : List UInt8 :=
  -- `"\n========== SLAVE CMD ==============\n"`
  10 :: List.replicate 10 61 ++ [32, 83, 76, 65, 86, 69, 32, 67, 77, 68, 32] ++ List.replicate 14 61 ++ [10] ++
  -- `cmd`, `dump_file`, `dump_num`, `dump_pos`, `filter_tables`, `ringbuf_susec`
  cmdField [99, 109, 100] cmd ++ [10] ++
  cmdField [100, 117, 109, 112, 95, 102, 105, 108, 101] dumpFile ++ [10] ++
  cmdField [100, 117, 109, 112, 95, 110, 117, 109] (decimal dumpNum.toNat) ++ [10] ++
  cmdField [100, 117, 109, 112, 95, 112, 111, 115] (decimal dumpPos.toNat) ++ [10] ++
  cmdField [102, 105, 108, 116, 101, 114, 95, 116, 97, 98, 108, 101, 115] filterTables ++ [10] ++
  cmdField [114, 105, 110, 103, 98, 117, 102, 95, 115, 117, 115, 101, 99] (decimal rbEsusec.toNat) ++
  [10] ++ List.replicate 35 61 ++ [10]

variable {cmd dumpFile filterTables : List UInt8} {dumpNum dumpPos rbEsusec : UInt32}

theorem length_cmdField (name value : List UInt8) :
    (cmdField name value).length = name.length + 3 + value.length := by
  rw [cmdField, List.length_append, List.length_append]
  rfl

theorem length_dumpcmdText : (dumpcmdText cmd dumpFile filterTables dumpNum dumpPos rbEsusec).length =
    151 + cmd.length + dumpFile.length + (decimal dumpNum.toNat).length + (decimal dumpPos.toNat).length +
      filterTables.length + (decimal rbEsusec.toNat).length := by
  delta dumpcmdText
  simp only [List.length_append, length_cmdField, List.length_replicate, List.length_cons, List.length_nil]
  omega

/-- The list of tables is printed twice, so one of 927 bytes is logged behind the end of the array. -/
theorem dumpcmd_log_outside (hsuffix : filterTables <:+ cmd) (hlong : 927 ≤ filterTables.length)
    {rsLogLevel : UInt32} (hlevel : 1 ≤ rsLogLevel) (sysErrlist : Fin 135 → List UInt8)
    (timestr : Vector UInt8 20) (thread : UInt64) : rsLogBase rsLogLevel sysErrlist timestr thread 0 1
      (dumpcmdText cmd dumpFile filterTables dumpNum dumpPos rbEsusec) = none := by
  have hcmd := hsuffix.length_le
  have hthread := length_decimal_pos thread.toNat
  have hnum := length_decimal_pos dumpNum.toNat
  have hpos := length_decimal_pos dumpPos.toNat
  have husec := length_decimal_pos rbEsusec.toNat
  apply rsLogBase_outside (UInt32.not_lt.mpr hlevel)
  rw [length_dumpcmdText]
  omega

end MySQLSyncer.Master
