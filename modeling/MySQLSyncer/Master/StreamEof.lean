import MySQLSyncer.Master.ReadLog

/-! # The end-of-file indicator of the log file

`fread` sets the indicator at the end of the file, and `clearerr` stands behind the loop of
`rs_eof_read_binlog2` only. With the indicator set, `fread` may return nothing although the file has
grown: this is what the C standard says, and not every library does it.
-/
namespace MySQLSyncer.Master
open Lib MySQLSyncer.Core

/-- The server and the reading thread, with the indicator of `binlog_fp`. -/
structure Stream where
  sys : System
  eof : Bool
  deriving DecidableEq

/-- The indicator behind a part of a call, which ends with `clearerr`. -/
def Eof.indicator (eof : Bool) : Eof → Bool
  | .loop _ _ => eof
  | .ret _ _ => false

def Stream.unread (t : Stream) : List UInt8 := t.sys.reader.unread t.sys.disk

/-- An `fread` that comes short of the size of the buffer has met the end of the file. -/
def Stream.indicator (t : Stream) : ReaderAct → Bool
  | .open => false
  | .call => (rsEofReadBinlog2 t.sys.reader.ioBuf rsBinlogEventHeaderLen).indicator t.eof
  | .fread n =>
    let met := t.eof || decide (n = t.unread.length ∧ n < t.sys.reader.ioBuf.size)
    match t.sys.reader.phase with
    | .reading p copied => if n = 0 then met else
        (rsEofReadBinlog2Fread (t.sys.reader.want p) copied t.sys.reader.ioBuf (t.unread.take n)).indicator met
    | _ => t.eof
  | .scan | .fail => t.eof

def Stream.heed (t : Stream) : Option Stream :=
  match t.sys.reader.phase with
  | .reading p copied =>
    if t.eof then
      some { t with sys := ⟨t.sys.disk, { t.sys.reader with phase := .scanning p copied, grown := false }⟩ }
    else none
  | _ => none

def streamStep (t : Stream) : Act → Option Stream
  | .server a => (systemStep t.sys (.server a)).map fun s => { t with sys := s }
  | .reader a =>
    if a = .fread 0 ∧ t.unread ≠ [] then t.heed
    else (systemStep t.sys (.reader a)).map fun s => ⟨s, t.indicator a⟩

/-- An `fread` returns nothing only where there is nothing. -/
def Stream.FreadSees (t : Stream) (a : Act) : Prop := a = .reader (.fread 0) → t.unread = []

instance (t : Stream) (a : Act) : Decidable (t.FreadSees a) := inferInstanceAs (Decidable (_ → _))

/-- No `fread` passes over bytes, and no change of files misses what was written behind the last one. -/
def Stream.SeesAll (t : Stream) (a : Act) : Prop := t.FreadSees a ∧ (t.sys.Switches a → ¬ t.sys.Missed)

instance (t : Stream) (a : Act) : Decidable (t.SeesAll a) := inferInstanceAs (Decidable (_ ∧ _))

def Stream.init (d : Disk) (ioSize : UInt32) (file : DumpFile) (pos : UInt32) (tables : Option (List UInt8))
    (id : UInt32) : Stream := ⟨.init d ioSize file pos tables id, false⟩

variable {d : Disk} {f : LogFile} {t u : Stream} {a : Act}

theorem streamStep_system (hsees : t.FreadSees a) (hs : streamStep t a = some u) :
    systemStep t.sys a = some u.sys := by
  cases a with
  | server b =>
    obtain ⟨s, hsys, rfl⟩ := Option.map_eq_some_iff.mp hs
    exact hsys
  | reader b =>
    rw [streamStep, if_neg fun h => h.2 (hsees (by rw [h.1]))] at hs
    obtain ⟨s, hsys, rfl⟩ := Option.map_eq_some_iff.mp hs
    exact hsys

theorem systemStep_disk {x y : System} (hs : systemStep x a = some y) :
    y.disk = x.disk ∨ ∃ b, serverStep x.disk b = some y.disk := by
  cases a with
  | server b =>
    obtain ⟨d, hd, rfl⟩ := Option.map_eq_some_iff.mp hs
    exact Or.inr ⟨b, hd⟩
  | reader b =>
    obtain ⟨r, -, rfl⟩ := Option.map_eq_some_iff.mp hs
    exact Or.inl rfl

theorem streamStep_disk (hs : streamStep t a = some u) :
    u.sys.disk = t.sys.disk ∨ ∃ b, serverStep t.sys.disk b = some u.sys.disk := by
  cases a with
  | server b =>
    obtain ⟨s, hsys, rfl⟩ := Option.map_eq_some_iff.mp hs
    exact systemStep_disk hsys
  | reader b =>
    rw [streamStep] at hs
    split_ifs at hs
    · rw [Stream.heed] at hs
      split at hs
      · obtain ⟨-, hs⟩ := Option.ite_none_right_eq_some.mp hs
        obtain rfl := Option.some.inj hs
        exact Or.inl rfl
      · cases hs
    · obtain ⟨s, hsys, rfl⟩ := Option.map_eq_some_iff.mp hs
      exact systemStep_disk hsys

/-- Where `fread` returns nothing only for want of bytes, a run is one without the indicator. -/
theorem exec_stream_system {as : List Act} (hok : Along streamStep Stream.SeesAll t as)
    (hrun : exec streamStep t as = some u) : exec systemStep t.sys as = some u.sys ∧
      Along systemStep (fun s a => s.Switches a → ¬ s.Missed) t.sys as := by
  induction as generalizing t with
  | nil =>
    obtain rfl := Option.some.inj hrun
    exact ⟨rfl, trivial⟩
  | cons a as ih =>
    obtain ⟨v, hv, hrest⟩ := Option.bind_eq_some_iff.mp hrun
    have hstep := streamStep_system hok.1.1 hv
    obtain ⟨hexec, halong⟩ := ih (hok.2 v hv) hrest
    exact ⟨by rw [exec_cons, hstep]; exact hexec, (along_cons hstep).mpr ⟨hok.1.2, halong⟩⟩

/-- Where no `fread` passes over bytes and no change of files misses an event, the thread has put in
the ring what a session does that takes the items of the log from the place that was asked for,
whatever the server does meanwhile. -/
theorem stream_reads_log {ioSize pos id : UInt32} {file : DumpFile} {tables : Option (List UInt8)} (hd : d.Small)
    (hsorted : d.Sorted) (hf : d.file file = some f) (hpos : f.Boundary (startPos pos)) {as : List Act}
    (hrun : exec streamStep (.init d ioSize file pos tables id) as = some t) (hlast : t.sys.disk.StopLast id)
    (hok : Along streamStep Stream.SeesAll (.init d ioSize file pos tables id) as) :
    ∃ k taken behind v, k ≤ t.sys.disk.log.items.length ∧ t.sys.disk.log.placeAt k = (file, startPos pos) ∧
      t.sys.disk.log.items.drop k = taken ++ behind ∧
      exec sessionStep ⟨startSession file file.num pos tables id, false⟩ taken = some v ∧
      t.sys.reader.rd.ring = v.rd.ring ∧ (t.sys.reader.phase = .top → v = ⟨t.sys.reader.rd, false⟩) := by
  obtain ⟨hexec, hall⟩ := exec_stream_system hok hrun
  exact reader_reads_log hd hsorted hf hpos hexec hlast hall

theorem stream_reads_log_switch : ∃ t,
    exec streamStep (.init sampleSwitchDisk 64 sampleFile 0 (some sampleTables) 1) sampleSwitch = some t ∧
    ∃ k taken behind v, k ≤ t.sys.disk.log.items.length ∧ t.sys.disk.log.placeAt k = (sampleFile, startPos 0) ∧
      t.sys.disk.log.items.drop k = taken ++ behind ∧
      exec sessionStep ⟨startSession sampleFile sampleFile.num 0 (some sampleTables) 1, false⟩ taken = some v ∧
      t.sys.reader.rd.ring = v.rd.ring ∧ (t.sys.reader.phase = .top → v = ⟨t.sys.reader.rd, false⟩) := by
  have hrun : (exec streamStep (.init sampleSwitchDisk 64 sampleFile 0 (some sampleTables) 1)
      sampleSwitch).map (fun t => decide (t.sys.disk.StopLast 1)) = some true := by decide +kernel
  obtain ⟨t, ht, hlast⟩ := Option.map_eq_some_iff.mp hrun
  exact ⟨t, ht, stream_reads_log (by decide) (by decide) rfl ⟨_, .start _⟩ ht (of_decide_eq_true hlast)
    (by decide +kernel)⟩

end MySQLSyncer.Master
