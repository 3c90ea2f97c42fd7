import MySQLSyncer.Master.ParseDumpcmd
import MySQLSyncer.Slave.MessageRoundTrip
import MySQLSyncer.Slave.RedisThread

/-! # The position after a crash

The process stops inside `rs_flush_slave_info`, which leaves the file as a system call that fails
there does. The next start reads the file and sends what it reads to the master.
-/
namespace MySQLSyncer.Slave
open Lib MySQLSyncer.Core Master

/-- The part of `rs_init_slave_info` that reads the file into `dump_info`. -/
def rsInitSlaveInfo (file : List UInt8) : Option (Option (List UInt8)) :=
  let dumpInfo := file.take rsSlaveInfoStrLen
  if dumpInfo = [] then some none
  -- the terminator goes behind the array
  else if dumpInfo.length = rsSlaveInfoStrLen then none
  else (cstr (dumpInfo ++ [0])).map some

/-- The file and the position that the master gets at the next start of the slave. -/
def nextStart (list : List UInt8) (rbEsusec : UInt32) (file : List UInt8) :
    Option (List UInt8 × UInt32) := do
  let dumpInfo ← (← rsInitSlaveInfo file)
  let bytes ← rsSendDumpcmd dumpInfo list rbEsusec
  let (_, cmd) ← rsParseDumpcmd bytes
  let cmd ← cmd
  let dumpFile ← cstr cmd.dumpFile
  some (dumpFile, cmd.dumpPos)

structure SavedInfo where
  stem : List UInt8
  digits : List UInt8
  pos : UInt32
  path : BinlogPath stem digits

namespace SavedInfo

def name (i : SavedInfo) : List UInt8 := i.stem ++ i.digits

def text (i : SavedInfo) : List UInt8 := i.name ++ 44 :: decimal i.pos.toNat

def value (i : SavedInfo) : List UInt8 × UInt32 := (i.name, i.pos)

end SavedInfo

structure SentTables (list : List UInt8) : Prop where
  ne_nil : list ≠ []
  noNul : 0 ∉ list
  head : list.head? ≠ some 44
  short : list.length < 2 ^ 30

def written (new : List UInt8) : FlushOutcome → ℕ
  | .noClock | .noSeek => 0
  | .shortWrite n => min n new.length
  | .noTruncate | .done => new.length

def mixed (old new : List UInt8) (k : ℕ) : List UInt8 := new.take k ++ old.drop k

variable {list w stem digits : List UInt8} {t : RedisThread} {clock : UInt64} {o : FlushOutcome}

theorem rsFlushSlaveInfo_file (hdue : ¬ t.NotDue clock) (ho : o ≠ .done) :
    (rsFlushSlaveInfo t clock o).2.infoFile = mixed t.infoFile t.dumpInfo (written t.dumpInfo o) := by
  cases o with
  | noClock => rfl
  | done => exact absurd rfl ho
  | noSeek => simp [rsFlushSlaveInfo, hdue, mixed, written]
  | shortWrite n =>
    have hlen : (t.dumpInfo.take n).length = min n t.dumpInfo.length := List.length_take
    have htake : t.dumpInfo.take (min n t.dumpInfo.length) = t.dumpInfo.take n := by
      rw [← List.take_take, List.take_length]
    simp [rsFlushSlaveInfo, hdue, overwrite, mixed, written, htake]
  | noTruncate => simp [rsFlushSlaveInfo, hdue, overwrite, mixed, written]

theorem rsFlushSlaveInfo_done (hdue : ¬ t.NotDue clock) :
    (rsFlushSlaveInfo t clock .done).2.infoFile = t.dumpInfo := by
  simp [rsFlushSlaveInfo, hdue]

/-- A text of the right form is understood, whatever its number. -/
theorem nextStart_text (h : BinlogPath stem digits) (hw : ∀ b ∈ w, IsDigit b) (hlen : w.length ≤ 10)
    (hlist : SentTables list) (rbEsusec : UInt32) :
    nextStart list rbEsusec (stem ++ digits ++ 44 :: w) =
      some (stem ++ digits, UInt32.ofNat (decimalValue w)) := by
  have hshort := h.short
  unfold pathMax at hshort
  have htext : (stem ++ digits ++ 44 :: w).length = (stem ++ digits).length + (w.length + 1) :=
    List.length_append
  have hmax : (stem ++ digits ++ 44 :: w).length < rsSlaveInfoStrLen := by
    unfold rsSlaveInfoStrLen
    omega
  have hnul : 0 ∉ stem ++ digits ++ 44 :: w := by
    intro hmem
    rcases List.mem_append.mp hmem with hmem | hmem
    · exact h.noNul hmem
    · rcases List.mem_cons.mp hmem with hmem | hmem
      · exact absurd hmem (by decide)
      · exact absurd (hw 0 hmem) (by decide)
  have hread : rsInitSlaveInfo (stem ++ digits ++ 44 :: w) = some (some (stem ++ digits ++ 44 :: w)) := by
    have hne : stem ++ digits ++ 44 :: w ≠ [] := by simp
    rw [rsInitSlaveInfo, List.take_of_length_le hmax.le, if_neg hne, if_neg hmax.ne,
      cstr_append hnul, Option.map_some]
  obtain ⟨bytes, cmd, hbytes, hcmd, hfile, -, hpos, -⟩ :=
    rsParseDumpcmd_text h hw rbEsusec hlist.ne_nil hlist.noNul hlist.head (by
      have := hlist.short
      rw [length_dumpcmdText]
      omega)
  simp only [nextStart, hread, Option.bind_eq_bind, Option.bind_some, hbytes, hcmd, hfile, hpos]

theorem nextStart_savedInfo (i : SavedInfo) (hlist : SentTables list) (rbEsusec : UInt32) :
    nextStart list rbEsusec i.text = some i.value := by
  have h := nextStart_text i.path (decimal_isDigit i.pos.toNat) (length_decimal_le i.pos) hlist rbEsusec
  rw [decimalValue_decimal, UInt32.ofNat_toNat] at h
  exact h

/-- Two texts that begin alike are mixed behind what they share. -/
theorem mixed_append (p old new : List UInt8) (k : ℕ) :
    mixed (p ++ old) (p ++ new) k = p ++ mixed old new (k - p.length) := by
  rw [mixed, mixed, List.take_append, List.drop_append, List.append_assoc]
  by_cases hk : k ≤ p.length
  · rw [Nat.sub_eq_zero_of_le hk, List.take_zero, List.nil_append, List.nil_append, ← List.append_assoc,
      List.take_append_drop]
  · rw [List.take_of_length_le (by omega), List.drop_of_length_le (by omega), List.nil_append]

theorem mixed_digits {old new : List UInt8} (hold : ∀ b ∈ old, IsDigit b) (hnew : ∀ b ∈ new, IsDigit b)
    (k : ℕ) : ∀ b ∈ mixed old new k, IsDigit b := by
  intro b hb
  rcases List.mem_append.mp hb with hb | hb
  · exact hnew b (List.mem_of_mem_take hb)
  · exact hold b (List.mem_of_mem_drop hb)

theorem length_mixed_le {old new : List UInt8} {n : ℕ} (hold : old.length ≤ n) (hnew : new.length ≤ n)
    (k : ℕ) : (mixed old new k).length ≤ n := by
  rw [mixed, List.length_append, List.length_take, List.length_drop]
  omega

/-- Where the process stops decides what the next start obtains. -/
theorem flush_crash (old new : SavedInfo) (hold : t.infoFile = old.text) (hnew : t.dumpInfo = new.text)
    (hdue : ¬ t.NotDue clock) (hlist : SentTables list) (rbEsusec : UInt32) (o : FlushOutcome) :
    let file := (rsFlushSlaveInfo t clock o).2.infoFile
    let k := written new.text o
    (file = if o = .done then new.text else mixed old.text new.text k) ∧
    (o ≠ .done → new.text.take k = old.text.take k → nextStart list rbEsusec file = some old.value) ∧
    (o = .done ∨ old.text.drop k = new.text.drop k → nextStart list rbEsusec file = some new.value) ∧
    (o ≠ .done → old.name = new.name → nextStart list rbEsusec file = some (new.name, UInt32.ofNat
      (decimalValue (mixed (decimal old.pos.toNat) (decimal new.pos.toNat) (k - (new.name.length + 1)))))) := by
  intro file k
  have hfile : file = if o = .done then new.text else mixed old.text new.text k := by
    split_ifs with ho
    · subst ho
      exact (rsFlushSlaveInfo_done hdue).trans hnew
    · have h := rsFlushSlaveInfo_file hdue ho
      rwa [hold, hnew] at h
  refine ⟨hfile, fun ho hagree => ?_, fun hagree => ?_, fun ho hname => ?_⟩
  · rw [hfile, if_neg ho, mixed, hagree, List.take_append_drop]
    exact nextStart_savedInfo old hlist rbEsusec
  · have heq : file = new.text := by
      rw [hfile]
      split_ifs with ho
      · rfl
      · rw [mixed, hagree.resolve_left ho, List.take_append_drop]
    rw [heq]
    exact nextStart_savedInfo new hlist rbEsusec
  · have hsplit (i : SavedInfo) : i.text = (i.name ++ [44]) ++ decimal i.pos.toNat := by
      rw [SavedInfo.text, List.append_assoc]
      rfl
    have hlen : (new.name ++ [44]).length = new.name.length + 1 := by rw [List.length_append]; rfl
    rw [hfile, if_neg ho, hsplit old, hsplit new, hname, mixed_append, hlen, List.append_assoc,
      List.singleton_append]
    exact nextStart_text new.path (mixed_digits (decimal_isDigit _) (decimal_isDigit _) _)
      (length_mixed_le (length_decimal_le _) (length_decimal_le _) _) hlist rbEsusec

def firstInfo : SavedInfo := ⟨[98], [48, 48, 49], 100,
  { short := by decide, noNul := by decide, noComma := by decide, noNewline := by decide
    stem_last := ⟨[], 98, rfl, by decide⟩
    digits_pos := by decide, digits_le := by decide, digits := by simp [IsDigit] }⟩

def secondInfo : SavedInfo := ⟨[98], [48, 48, 50], 4,
  { short := by decide, noNul := by decide, noComma := by decide, noNewline := by decide
    stem_last := ⟨[], 98, rfl, by decide⟩
    digits_pos := by decide, digits_le := by decide, digits := by simp [IsDigit] }⟩

/-- The thread that has taken a message with the second position, the first one being in the file. -/
def crashThread : RedisThread := takeMessage (.init 1 60 firstInfo.text) secondInfo.text 0 .ok

theorem sentTables_sample : SentTables [100, 46, 97] := ⟨by decide, by decide, by decide, by decide⟩

/-- The process stops behind the write of `b00`. -/
theorem flush_crash_early : nextStart [100, 46, 97] 1000
    (rsFlushSlaveInfo crashThread 0 (.shortWrite 3)).2.infoFile = some firstInfo.value := by
  have hdue : ¬ crashThread.NotDue 0 := by decide +kernel
  refine (flush_crash firstInfo secondInfo rfl rfl hdue sentTables_sample 1000 (.shortWrite 3)).2.1
    nofun ?_
  have hlen : 3 ≤ secondInfo.text.length := by simp [SavedInfo.text, SavedInfo.name, secondInfo]
  rw [written, Nat.min_eq_left hlen]
  rfl

/-- The process stops in front of `truncate`: the file holds `b002,400`. -/
theorem flush_third_value : ¬ ∀ (old new : SavedInfo) (t : RedisThread) (clock : UInt64) (o : FlushOutcome)
    (list : List UInt8) (rbEsusec : UInt32), t.infoFile = old.text → t.dumpInfo = new.text →
    ¬ t.NotDue clock → SentTables list →
    nextStart list rbEsusec (rsFlushSlaveInfo t clock o).2.infoFile = some old.value ∨
      nextStart list rbEsusec (rsFlushSlaveInfo t clock o).2.infoFile = some new.value := by
  intro h
  have hdue : ¬ crashThread.NotDue 0 := by decide +kernel
  have hfour : decimal 4 = [52] := by simp [decimal]
  have hhundred : decimal 100 = [49, 48, 48] := by simp [decimal]
  have hfile : (rsFlushSlaveInfo crashThread 0 .noTruncate).2.infoFile =
      secondInfo.stem ++ secondInfo.digits ++ 44 :: [52, 48, 48] := by
    rw [rsFlushSlaveInfo_file (o := .noTruncate) hdue (by simp)]
    simp [crashThread, takeMessage, RedisThread.init, mixed, written, SavedInfo.text, SavedInfo.name,
      firstInfo, secondInfo, hfour, hhundred]
  have hthird := nextStart_text secondInfo.path (w := [52, 48, 48]) (by simp [IsDigit]) (by decide)
    sentTables_sample 1000
  rcases h firstInfo secondInfo crashThread 0 .noTruncate [100, 46, 97] 1000 rfl rfl hdue
    sentTables_sample with hold | hnew
  · rw [hfile, hthird] at hold
    exact absurd hold (by decide +kernel)
  · rw [hfile, hthird] at hnew
    exact absurd hnew (by decide +kernel)

end MySQLSyncer.Slave
