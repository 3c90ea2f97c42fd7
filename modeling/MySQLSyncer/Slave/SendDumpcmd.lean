import MySQLSyncer.Lib.Bytes
import MySQLSyncer.Lib.CString

/-! # The dump command that the slave sends -/
namespace MySQLSyncer.Slave
open Lib

/-- The text `slave.info` and `filter.tables` are printed to, under the format `%s\n,%s,%c`. -/
def dumpcmdText (dumpInfo filterTables : List UInt8) : List UInt8 :=
  dumpInfo ++ 10 :: 44 :: (filterTables ++ [44, 0])

/-- The bytes that `rs_send_dumpcmd` writes, for the strings in `dump_info` and `filter_tables`.
A length beyond `int32_t` is undefined. -/
def rsSendDumpcmd (dumpInfo filterTables : List UInt8) (rbEsusec : UInt32) : Option (List UInt8) := do
  let l := dumpInfo.length + 2 + filterTables.length + 2 + 4
  if 2 ^ 31 ≤ l then none
  else
    let buf ← store (freshBlock (4 + l)) 0 (leBytes 4 l)
    let buf ← store buf 4 ((dumpcmdText dumpInfo filterTables).take l ++ [0])
    let buf ← store buf (4 + l - 4) (leBytes 4 rbEsusec.toNat)
    buf.mapM id

variable {dumpInfo filterTables : List UInt8}

theorem length_dumpcmdText (dumpInfo filterTables : List UInt8) :
    (dumpcmdText dumpInfo filterTables).length = dumpInfo.length + 2 + filterTables.length + 2 := by
  simp only [dumpcmdText, List.length_append, List.length_cons, List.length_nil]
  omega

/-- The command is its length, the text, which ends in a zero byte, and the number. -/
theorem rsSendDumpcmd_eq (rbEsusec : UInt32)
    (hlen : (dumpcmdText dumpInfo filterTables).length + 4 < 2 ^ 31) :
    rsSendDumpcmd dumpInfo filterTables rbEsusec =
      some (leBytes 4 ((dumpcmdText dumpInfo filterTables).length + 4) ++
        (dumpcmdText dumpInfo filterTables ++ leBytes 4 rbEsusec.toNat)) := by
  have htext := length_dumpcmdText dumpInfo filterTables
  set text := dumpcmdText dumpInfo filterTables with hdef
  have hl : dumpInfo.length + 2 + filterTables.length + 2 + 4 = text.length + 4 := by omega
  have hl₄ (n : ℕ) : (leBytes 4 n).length = 4 := length_leBytes 4 n
  have hcut : text.take (text.length + 4) = text := List.take_of_length_le (by omega)
  -- the three stores, the last of which covers the terminator of the second
  have h₁ : store (freshBlock (4 + (text.length + 4))) 0 (leBytes 4 (text.length + 4)) =
      some ((leBytes 4 (text.length + 4)).map some ++ freshBlock (text.length + 4)) := by
    have h := @store_append [] (leBytes 4 (text.length + 4)) (freshBlock (4 + (text.length + 4)))
      (by simp [freshBlock])
    simpa [freshBlock, Nat.add_sub_cancel_left] using h
  have h₂ : store ((leBytes 4 (text.length + 4)).map some ++ freshBlock (text.length + 4)) 4
      (text ++ [0]) = some ((leBytes 4 (text.length + 4) ++ (text ++ [0])).map some ++ freshBlock 3) := by
    have h := @store_append (leBytes 4 (text.length + 4)) (text ++ [0]) (freshBlock (text.length + 4))
      (by simp [freshBlock])
    rw [hl₄] at h
    rw [h]
    simp [freshBlock]
  have h₃ : store ((leBytes 4 (text.length + 4) ++ (text ++ [0])).map some ++ freshBlock 3)
      (4 + text.length) (leBytes 4 rbEsusec.toNat) =
      some ((leBytes 4 (text.length + 4) ++ text ++ leBytes 4 rbEsusec.toNat).map some) := by
    have h := @store_append (leBytes 4 (text.length + 4) ++ text) (leBytes 4 rbEsusec.toNat)
      (some 0 :: freshBlock 3) (by simp [freshBlock])
    rw [List.length_append, hl₄] at h
    simpa [freshBlock, List.map_append, List.append_assoc] using h
  rw [rsSendDumpcmd]
  simp only [hl, if_neg (Nat.not_le.mpr hlen), h₁, hcut, Option.bind_eq_bind, Option.bind_some, ← hdef]
  rw [h₂, Option.bind_some, show 4 + (text.length + 4) - 4 = 4 + text.length by omega, h₃,
    Option.bind_some, mapM_written, List.append_assoc]

end MySQLSyncer.Slave
