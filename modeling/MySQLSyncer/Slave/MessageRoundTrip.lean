import MySQLSyncer.Master.Message
import MySQLSyncer.Slave.DmlData

/-! # The slave takes apart what the master builds

The bytes of a message are written down once, without lengths or offsets. The builder
writes exactly these bytes and the parser splits them again.
-/
namespace MySQLSyncer.Slave
open Lib MySQLSyncer.Core Master

/-- The counts, the table description and the body, as both sides lay them out. -/
def rowData (m : Message) : List UInt8 :=
  leBytes 4 m.cn ++ (m.ct ++ (leBytes 4 m.ml ++ (m.cm ++ m.body)))

def layout (m : Message) : List UInt8 :=
  if m.mev = 0 then m.position ++ [10, 0] else m.rowText ++ rowData m

/-- A message as the master can build it: names are C strings, the file name has no newline,
and the message is shorter than 2^31 bytes. -/
structure WellFormed (m : Message) : Prop where
  newline : 10 ∉ m.dumpFile.name
  db : 0 ∉ m.db
  tb : 0 ∉ m.tb
  short : (layout m).length < 2 ^ 31

variable {m : Message}

theorem length_position (m : Message) :
    m.position.length = m.dumpFile.name.length + 1 + (decimal m.dumpPos.toNat).length := by
  rw [Message.position, List.length_append, List.length_cons]
  omega

theorem length_rowText (m : Message) :
    m.rowText.length = m.position.length + m.db.length + m.tb.length + 5 := by
  simp only [Message.rowText, List.length_append, List.length_cons, List.length_nil]
  omega

theorem length_rowData (m : Message) :
    (rowData m).length = 8 + m.cn + m.ml + m.body.length := by
  simp only [rowData, List.length_append, length_leBytes, Message.cn, Message.ml]
  omega

/-- The two sums of constants agree: the announced length is the number of bytes. -/
theorem len_eq (h : WellFormed m) : m.len = (layout m).length := by
  have hshort := h.short
  have hpos := length_position m
  unfold layout at hshort ⊢
  unfold Message.len Message.positionLen Message.el rsBinlogEventHeaderLen
  split_ifs at hshort ⊢ with hmev
  · rw [List.length_append] at hshort ⊢
    change _ + 2 < _ at hshort
    change _ = _ + 2
    rw [Nat.mod_eq_of_lt (by omega)]
    omega
  · rw [List.length_append, length_rowText, length_rowData] at hshort ⊢
    rw [Nat.mod_eq_of_lt (by omega)]
    omega

theorem snprintf_fresh {n : ℕ} {text : List UInt8} (h : text.length < n) :
    snprintf (freshBlock n) n text = some (text.map some ++ some 0 :: freshBlock (n - text.length - 1)) := by
  have hstore := @store_append [] (text ++ [0]) (freshBlock n)
    (by rw [freshBlock, List.length_replicate, List.length_append]; exact h)
  rw [snprintf, if_neg (by omega), List.take_of_length_le (by omega)]
  refine hstore.trans ?_
  rw [freshBlock, List.drop_replicate, List.length_append, List.nil_append, List.map_append,
    List.append_assoc, freshBlock, Nat.sub_sub]
  rfl

theorem fill_position (h : WellFormed m) (hmev : m.mev = 0) : m.fill = some ((layout m).map some) := by
  have hlen := len_eq h
  have hlayout : layout m = m.position ++ [10] ++ [0] := by
    rw [layout, if_pos hmev, List.append_assoc]
    rfl
  have htext : m.positionText = (m.position ++ [10]) ++ [m.mev] := by
    rw [Message.positionText, List.append_assoc]
    rfl
  have hcut : (m.position ++ [10]).length = m.len - 1 := by
    rw [hlen, hlayout, @List.length_append _ _ [0]]
    rfl
  have htake : m.positionText.take (m.len - 1) = m.position ++ [10] := by
    rw [htext, List.take_left' hcut]
  have hne : m.len ≠ 0 := by
    rw [hlen, hlayout, List.length_append]
    exact Nat.succ_ne_zero _
  have hstore := @store_append [] (layout m) (freshBlock m.len)
    (by rw [freshBlock, List.length_replicate, hlen])
  rw [freshBlock, List.drop_replicate, hlen, Nat.sub_self, ← hlen] at hstore
  rw [Message.fill, if_pos hmev, snprintf, if_neg hne, htake, ← hlayout]
  exact hstore.trans (by simp)

/-- One more store behind what is written, into a block with `k` further bytes. -/
theorem store_next (done bytes : List UInt8) (off : ℕ) {rest : List (Option UInt8)} {k : ℕ}
    (hoff : off = done.length) (hk : rest.length = bytes.length + k) :
    ∃ rest', store (done.map some ++ rest) off bytes = some ((done ++ bytes).map some ++ rest') ∧
      rest'.length = k := by
  refine ⟨rest.drop bytes.length, hoff ▸ store_append (by omega), ?_⟩
  rw [List.length_drop]
  omega

theorem fill_row (h : WellFormed m) (hmev : m.mev ≠ 0) : m.fill = some ((layout m).map some) := by
  have hlen := len_eq h
  have hlayout : layout m = m.rowText ++ rowData m := if_neg hmev
  rw [hlayout, List.length_append, length_rowData] at hlen
  have hfull : m.rowText.length < m.len := by omega
  have hleft : m.len - m.rowText.length - 8 - m.cn - m.ml = m.body.length := by omega
  have hrest : (some 0 :: freshBlock (m.len - m.rowText.length - 1)).length =
      (leBytes 4 m.cn).length + (m.cn + (4 + (m.ml + m.body.length))) := by
    rw [List.length_cons, freshBlock, List.length_replicate, length_leBytes]
    omega
  obtain ⟨r1, h1, hr1⟩ := store_next m.rowText (leBytes 4 m.cn) _ rfl hrest
  obtain ⟨r2, h2, hr2⟩ := store_next (m.rowText ++ leBytes 4 m.cn) m.ct (m.rowText.length + 4)
    (by simp) hr1
  obtain ⟨r3, h3, hr3⟩ := store_next (m.rowText ++ leBytes 4 m.cn ++ m.ct) (leBytes 4 m.ml)
    (m.rowText.length + 4 + m.cn) (by simp [Message.cn]; omega) (hr2.trans (by rw [length_leBytes]))
  obtain ⟨r4, h4, hr4⟩ := store_next (m.rowText ++ leBytes 4 m.cn ++ m.ct ++ leBytes 4 m.ml) m.cm
    (m.rowText.length + 4 + m.cn + 4) (by simp [Message.cn]; omega) hr3
  obtain ⟨r5, h5, hr5⟩ := @store_next
    (m.rowText ++ leBytes 4 m.cn ++ m.ct ++ leBytes 4 m.ml ++ m.cm) m.body
    (m.rowText.length + 4 + m.cn + 4 + m.ml) _ 0 (by simp [Message.cn, Message.ml]; omega) hr4
  simp only [Message.fill, if_neg hmev, snprintf_fresh hfull, hleft, lt_irrefl, if_false,
    List.take_length, Option.bind_eq_bind, Option.bind_some, h1, h2, h3, h4, h5]
  rw [List.length_eq_zero_iff.mp hr5, hlayout, rowData, List.append_nil]
  simp only [List.append_assoc]

/-- `rs_binlog_create_data` writes every byte of its chunk and none outside. -/
theorem fill_eq (h : WellFormed m) : m.fill = some ((layout m).map some) := by
  by_cases hmev : m.mev = 0
  · exact fill_position h hmev
  · exact fill_row h hmev

variable {η : Type} {tableFunc : List UInt8 → Option η}

def tableKey (m : Message) : List UInt8 := m.db ++ 46 :: m.tb

theorem layout_eq (m : Message) : layout m = m.position ++ 10 :: m.mev ::
    (if m.mev = 0 then [] else 44 :: (tableKey m ++ 0 :: rowData m)) := by
  unfold layout
  split_ifs with hmev
  · rw [hmev]
  · simp [Message.rowText, tableKey]

theorem not_mem_position {c : UInt8} (hfile : c ∉ m.dumpFile.name) (hlt : c.toNat < 44) :
    c ∉ m.position := by
  intro hc
  rcases List.mem_append.mp hc with hc | hc
  · exact hfile hc
  rcases List.mem_cons.mp hc with rfl | hc
  · exact absurd hlt (by decide)
  · exact not_mem_decimal _ (by omega) hc

theorem length_decimal_le (n : UInt32) : (decimal n.toNat).length ≤ 10 :=
  length_decimal_of_lt (by decide) (by have := n.toNat_lt; omega)

theorem position_fits (m : Message) : ¬ rsSlaveInfoStrLen < m.position.length + 1 := by
  have hname := m.dumpFile.short
  have hdigits := length_decimal_le m.dumpPos
  rw [length_position]
  unfold pathMax at hname
  unfold rsSlaveInfoStrLen
  omega

theorem takeApart_layout (h : WellFormed m) : takeApart tableFunc (layout m) =
    (rsRedisDmlData tableFunc ((layout m).drop m.position.length)
      ((layout m).length - m.position.length)).map fun r => (some m.position, r) := by
  have hchr : strchr 10 (layout m) = some (some m.position.length) := by
    rw [layout_eq]
    exact strchr_append (not_mem_position m.dumpFile.noNul (by decide))
      (not_mem_position h.newline (by decide)) _
  have htake : (layout m).take m.position.length = m.position := by
    rw [layout_eq, List.take_left]
  rw [takeApart, hchr]
  simp only [Option.bind_eq_bind, Option.bind_some, if_neg (position_fits m), htake]
  rw [Option.map_eq_bind]
  rfl

theorem rsRedisDmlData_layout (h : WellFormed m) (hrow : IsRowsEvent m.mev) :
    rsRedisDmlData tableFunc ((layout m).drop m.position.length)
      ((layout m).length - m.position.length) = some (match tableFunc (tableKey m) with
        | none => .failed
        | some handler => .called handler (tableKey m) (rowData m) (rowData m).length m.mev) := by
  have hmev := hrow.ne_zero
  have hshort := h.short
  have hlayout : layout m = m.position ++ 10 :: m.mev :: 44 :: (tableKey m ++ 0 :: rowData m) := by
    rw [layout_eq, if_neg hmev]
  have hkey : cstr (tableKey m ++ 0 :: rowData m) = some (tableKey m) := by
    refine cstr_append ?_ _
    simp [tableKey, h.db, h.tb]
  have hlen : ((layout m).length - m.position.length + 2 ^ 32 - 4 - (tableKey m).length) % 2 ^ 32 =
      (rowData m).length := by
    rw [hlayout] at hshort ⊢
    simp only [List.length_append, List.length_cons] at hshort ⊢
    omega
  have hdrop : (layout m).drop m.position.length =
      10 :: m.mev :: 44 :: (tableKey m ++ 0 :: rowData m) := by
    rw [hlayout, List.drop_left]
  have hrest : (tableKey m ++ 0 :: rowData m).drop ((tableKey m).length + 1) = rowData m := by
    rw [← List.drop_drop, List.drop_left]
    rfl
  rw [rsRedisDmlData, hdrop]
  simp only [List.getElem?_cons_succ, List.getElem?_cons_zero, Option.bind_eq_bind, Option.bind_some,
    rsMysqlSkipData, if_neg hmev, if_pos hrow, List.drop_succ_cons, List.drop_zero, hkey, hlen, hrest]
  cases tableFunc (tableKey m) <;> rfl

theorem rsDmBinlogRow_rowData (hcn : m.cn < 2 ^ 32) (hml : m.ml < 2 ^ 32) :
    rsDmBinlogRow (rowData m) (rowData m).length = some ⟨m.cn, m.ct, m.ml, m.cm, m.body⟩ :=
  rsDmBinlogRow_rowLayout hcn hml m.body

theorem takeApart_position (h : WellFormed m) (hmev : m.mev = 0) :
    takeApart tableFunc (layout m) = some (some m.position, .skipped) := by
  have hdrop : (layout m).drop m.position.length = [10, 0] := by
    rw [layout, if_pos hmev, List.drop_left]
  rw [takeApart_layout h, hdrop]
  rfl

/-- The parser inverts the builder. The chunk is filled to its last byte; a position message
only moves the position; of a row message the position, the type, the key, the table
description and the body come back, and the body ends where the message does. -/
theorem message_roundTrip (h : WellFormed m) (tableFunc : List UInt8 → Option η) :
    m.fill = some ((layout m).map some) ∧ (layout m).length = m.len ∧
    (m.mev = 0 → takeApart tableFunc (layout m) = some (some m.position, .skipped)) ∧
    (IsRowsEvent m.mev →
      takeApart tableFunc (layout m) = some (some m.position, match tableFunc (tableKey m) with
        | none => .failed
        | some handler => .called handler (tableKey m) (rowData m) (rowData m).length m.mev) ∧
      rsDmBinlogRow (rowData m) (rowData m).length = some ⟨m.cn, m.ct, m.ml, m.cm, m.body⟩) := by
  refine ⟨fill_eq h, (len_eq h).symm, takeApart_position h, fun hrow => ⟨?_, ?_⟩⟩
  · rw [takeApart_layout h, rsRedisDmlData_layout h hrow]
    rfl
  · have hshort := h.short
    rw [layout, if_neg hrow.ne_zero, List.length_append, length_rowData] at hshort
    exact rsDmBinlogRow_rowData (by omega) (by omega)

/-- A row of table `d.t` with one column, found in file `b.1` before position 120. -/
def sampleMessage : Message :=
  { dumpFile := ⟨[98, 46, 49], by decide, by decide⟩, dumpPos := 120, mev := rsWriteRowsEvent,
    db := [100], tb := [116], ct := [3], cm := [], body := [1, 0, 0, 0, 0, 0, 1, 0, 1, 1, 0, 7, 0, 0, 0] }

theorem message_roundTrip_sample : WellFormed sampleMessage ∧
    (sampleMessage.fill = some ((layout sampleMessage).map some) ∧
      takeApart (fun _ => some ()) (layout sampleMessage) = some (some sampleMessage.position,
        .called () [100, 46, 116] (rowData sampleMessage) 24 rsWriteRowsEvent)) := by
  have h : WellFormed sampleMessage := ⟨by decide, by decide, by decide, by decide⟩
  have hrt := message_roundTrip h fun _ => some ()
  exact ⟨h, hrt.1, (hrt.2.2.2 (by decide)).1⟩

end MySQLSyncer.Slave
