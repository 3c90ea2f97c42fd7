import MySQLSyncer.Core.Tmpbuf
import MySQLSyncer.Master.Session

/-! # The reading thread and the server that writes the log

The thread is cut where it reads the file or the index, so that the server can take steps in
between. A wait only delays, and any of its calls may fail, which ends the thread.
-/
namespace MySQLSyncer.Master
open Lib MySQLSyncer.Core

/-- `RS_BINLOG_MAGIC_NUM_LEN` bytes start a file. -/
def binlogMagic : List UInt8 := [254, 98, 105, 110]

structure LogFile where
  name : DumpFile
  events : List Event
  deriving DecidableEq

def LogFile.bytes (f : LogFile) : List UInt8 := binlogMagic ++ f.events.flatMap Event.bytes

/-- `rs_estr_to_uint32` at the last character of a name: the number that the digits there give. -/
def rsEstrToUint32 (s : List UInt8) : UInt32 :=
  UInt32.ofNat (Nat.ofDigits 10
    ((s.reverse.takeWhile fun b => 48 ≤ b ∧ b ≤ 57).map fun b => b.toNat - 48))

def DumpFile.num (f : DumpFile) : UInt32 := rsEstrToUint32 f.name

structure Disk where
  closed : List LogFile
  current : LogFile
  indexed : ℕ
  deriving DecidableEq

def Disk.files (d : Disk) : List LogFile := d.closed ++ [d.current]

def Disk.file (d : Disk) (name : DumpFile) : Option LogFile := d.files.find? fun f => f.name = name

def Disk.index (d : Disk) : List DumpFile := (d.files.take d.indexed).map LogFile.name

/-- What the server does: it appends a whole event to the current file; it closes that file
for a new one, whose number is larger; it adds the name of a file to the index. -/
inductive ServerAct where
  | append (e : Event)
  | create (name : DumpFile)
  | index
  deriving DecidableEq

/-- A file stays below 4 GiB. -/
def serverStep (d : Disk) : ServerAct → Option Disk
  | .append e =>
    let f : LogFile := { d.current with events := d.current.events ++ [e] }
    if f.bytes.length < 2 ^ 32 then some { d with current := f } else none
  | .create name =>
    if ∀ f ∈ d.files, f.name.num < name.num then
      some { d with closed := d.files, current := ⟨name, []⟩ }
    else none
  | .index => if d.indexed < d.files.length then some { d with indexed := d.indexed + 1 } else none

/-- How far a call of `rs_eof_read_binlog2` got: it returned the bytes, or it is in its loop
in front of `fread` with those copied so far. -/
inductive Eof where
  | ret (data : List UInt8) (b : RsBuf)
  | loop (copied : List UInt8) (b : RsBuf)

/-- `rs_eof_read_binlog2` up to its loop. -/
def rsEofReadBinlog2 (b : RsBuf) (size : ℕ) : Eof :=
  let ms := min b.bytes.length size
  let c := { b with pos := b.pos + ms, bytes := b.bytes.drop ms }
  if ms < size then .loop (b.bytes.take ms) c else .ret (b.bytes.take ms) c

/-- A turn of the loop in which `fread` returned some bytes. -/
def rsEofReadBinlog2Fread (size : ℕ) (copied : List UInt8) (b : RsBuf) (chunk : List UInt8) : Eof :=
  let ls := min chunk.length (size - copied.length)
  let c := { b with pos := ls, bytes := chunk.drop ls }
  if copied.length + ls < size then .loop (copied ++ chunk.take ls) c
  else .ret (copied ++ chunk.take ls) c

inductive Part where
  | header
  | body (h : Handler)
  deriving DecidableEq

/-- Where the thread is: before it opens `dump_file`; at the top of the loop of
`rs_read_binlog`; in front of an `fread`; behind one that returned nothing, in front of the
index scan; in the loop of the stop handler; or gone. -/
inductive ReadPhase where
  | opening
  | top
  | reading (p : Part) (copied : List UInt8)
  | scanning (p : Part) (copied : List UInt8)
  | waiting
  | finished
  deriving DecidableEq

/-- The thread with its buffer and the offset of `binlog_fp`. Three fields only record: where
the current file was first opened, the headers parsed in it, and whether it has grown since
the last `fread` that returned nothing. -/
structure Reader where
  rd : RsReqdumpData
  ioBuf : RsBuf
  offset : ℕ
  phase : ReadPhase
  opened : ℕ
  heads : List (List UInt8)
  grown : Bool
  deriving DecidableEq

def rsBufDrop (b : RsBuf) : RsBuf := { b with pos := b.pos + b.bytes.length, bytes := [] }

namespace Reader

/-- The label `free` of `rs_read_binlog`. The thread opens a file again unless the code is
`RS_ERR`. -/
def leave (s : Reader) (code : RsCode) : Reader :=
  { s with ioBuf := rsBufDrop s.ioBuf, phase := if code = .err then .finished else .opening }

/-- The moves of `rs_binlog_finish_handler` in the file. -/
def seekSkip (s : Reader) : Reader :=
  let dl := s.rd.binlogInfo.dl.toNat
  if dl ≤ s.ioBuf.bytes.length then
    { s with ioBuf := { s.ioBuf with pos := s.ioBuf.pos + dl, bytes := s.ioBuf.bytes.drop dl } }
  else { s with ioBuf := rsBufDrop s.ioBuf, offset := s.rd.dumpPos.toNat }

def finish (s : Reader) (r : RsCode × RsReqdumpData) : Option Reader :=
  if r.1 = .ok then (rsBinlogFinishHandler r.2).map fun (code, rd) =>
    if code = .ok then
      let s := if r.2.binlogInfo.skip then { s with rd := r.2 }.seekSkip else s
      { s with rd := rd, phase := .top }
    else { s with rd := rd }.leave code
  else some ({ s with rd := r.2 }.leave r.1)

def afterBody (s : Reader) (h : Handler) : Eof → Option Reader
  | .loop copied b => some { s with ioBuf := b, phase := .reading (.body h) copied }
  | .ret data b => (handlerBody h s.rd data).bind { s with ioBuf := b }.finish

def start (s : Reader) (h : Handler) : Option Reader :=
  match handlerStart h s.rd with
  | .ret code rd => s.finish (code, rd)
  | .read rd => { s with rd := rd }.afterBody h (rsEofReadBinlog2 s.ioBuf rd.binlogInfo.dl.toNat)
  | .wait rd => some { s with rd := rd, phase := .waiting }

/-- Inside the read of a header, or behind it: an unknown type leaves the loop with `RS_OK`. -/
def afterHeader (s : Reader) : Eof → Option Reader
  | .loop copied b => some { s with ioBuf := b, phase := .reading .header copied }
  | .ret eh b =>
    let rd := rsBinlogHeaderHandler s.rd eh
    let s := { s with rd := rd, ioBuf := b, heads := s.heads ++ [eh] }
    match rsBinlogFuncs (eventIdx rd.binlogInfo.t) with
    | none => some (s.leave .ok)
    | some h => s.start h

def after (s : Reader) : Part → Eof → Option Reader
  | .header => s.afterHeader
  | .body h => s.afterBody h

def want (s : Reader) : Part → ℕ
  | .header => rsBinlogEventHeaderLen
  | .body _ => s.rd.binlogInfo.dl.toNat

end Reader

def rsHasNextBinlog (index : List DumpFile) (rd : RsReqdumpData) : Option RsReqdumpData :=
  (index.find? fun f => rd.dumpNum < f.num).map fun f =>
    { rd with dumpFile := f, dumpNum := f.num, dumpPos := 0 }

/-- What the thread does; `fread` may return any number of bytes up to the size of the buffer,
and none only when there is none. -/
inductive ReaderAct where
  | open
  | call
  | fread (n : ℕ)
  | scan
  | fail
  deriving DecidableEq

def Reader.unread (s : Reader) (d : Disk) : List UInt8 :=
  match d.file s.rd.dumpFile with
  | none => []
  | some f => f.bytes.drop s.offset

/-- One step of `rs_start_io_thread`. -/
def readerStep (d : Disk) (s : Reader) : ReaderAct → Option Reader
  | .open =>
    if s.phase = .opening then
      match d.file s.rd.dumpFile with
      | none => some { s with phase := .finished }
      | some _ =>
        let pos := if s.rd.dumpPos = 0 then UInt32.ofNat rsBinlogMagicNumLen else s.rd.dumpPos
        some { s with rd := { s.rd with dumpPos := pos }, offset := pos.toNat, phase := .top }
    else none
  | .call =>
    if s.phase = .top then s.afterHeader (rsEofReadBinlog2 s.ioBuf rsBinlogEventHeaderLen) else none
  | .fread n =>
    match s.phase with
    | .reading p copied =>
      if n = 0 then
        if s.unread d = [] then some { s with phase := .scanning p copied, grown := false } else none
      else if n ≤ s.ioBuf.size ∧ n ≤ (s.unread d).length then
        { s with offset := s.offset + n }.after p
          (rsEofReadBinlog2Fread (s.want p) copied s.ioBuf ((s.unread d).take n))
      else none
    | _ => none
  | .scan =>
    match s.phase with
    | .scanning p copied =>
      match rsHasNextBinlog d.index s.rd with
      | none => some { s with phase := .reading p copied }
      | some rd => some ({ s with rd := rd, opened := rsBinlogMagicNumLen, heads := [] }.leave .hasBinlog)
    | .waiting =>
      match rsHasNextBinlog d.index s.rd with
      | none => some s
      | some rd => some ({ s with rd := rd, opened := rsBinlogMagicNumLen, heads := [] }.leave .hasBinlog)
    | _ => none
  | .fail => if s.phase = .finished then none else some { s with phase := .finished }

structure System where
  disk : Disk
  reader : Reader
  deriving DecidableEq

inductive Act where
  | server (a : ServerAct)
  | reader (a : ReaderAct)
  deriving DecidableEq

def systemStep (s : System) : Act → Option System
  | .server a => (serverStep s.disk a).map fun d =>
      ⟨d, { s.reader with grown := s.reader.grown || decide (s.reader.unread d ≠ s.reader.unread s.disk) }⟩
  | .reader a => (readerStep s.disk s.reader a).map fun r => ⟨s.disk, r⟩

def Reader.init (ioSize : UInt32) (file : DumpFile) (pos : UInt32) (tables : Option (List UInt8))
    (serverId : UInt32) : Reader :=
  { rd := { startSession file file.num pos tables serverId with dumpPos := pos }
    ioBuf := rsCreateTmpbuf ioSize
    offset := 0
    phase := .opening
    opened := if pos = 0 then rsBinlogMagicNumLen else pos.toNat
    heads := []
    grown := false }

end MySQLSyncer.Master
