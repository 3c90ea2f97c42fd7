import MySQLSyncer.Lib.Buffered
import MySQLSyncer.Master.EventStep
import MySQLSyncer.Master.ReadBinlog

/-! # The reader stays in step with the file

However the file is split by `fread`, and in whichever way an event is passed over, the
thread takes one event after the other, and does with it what a session does.
-/
namespace MySQLSyncer.Master
open Lib MySQLSyncer.Core

structure InCall (file : List UInt8) (p size : ℕ) (copied buf : List UInt8) (off : ℕ) : Prop where
  short : copied.length < size
  copied_eq : copied = (file.drop p).take copied.length
  buf_eq : buf = []
  buffered : Buffered file (p + copied.length) [] off

def EofOk (file : List UInt8) (p size off : ℕ) : Eof → Prop
  | .ret data b => data = (file.drop p).take size ∧ data.length = size ∧
      Buffered file (p + size) b.bytes off
  | .loop copied b => InCall file p size copied b.bytes off

variable {file copied chunk : List UInt8} {b : RsBuf} {p size off n : ℕ}

theorem rsEofReadBinlog2_ok (h : Buffered file p b.bytes off) (size : ℕ) :
    EofOk file p size off (rsEofReadBinlog2 b size) := by
  rw [rsEofReadBinlog2]
  by_cases hsize : size ≤ b.bytes.length
  · rw [min_eq_right hsize]
    simp only [lt_irrefl, if_false]
    exact ⟨h.take_held hsize, List.length_take_of_le hsize, h.skip hsize⟩
  · rw [min_eq_left (by omega)]
    simp only [not_le.mp hsize, if_true, List.take_length, List.drop_length]
    refine ⟨not_le.mp hsize, h.held.symm, rfl, ?_⟩
    rw [h.off_eq]
    exact .seek h.off_le

theorem rsEofReadBinlog2Fread_ok (h : InCall file p size copied b.bytes off)
    (hn : off + n ≤ file.length) :
    EofOk file p size (off + n) (rsEofReadBinlog2Fread size copied b ((file.drop off).take n)) := by
  have hoff := h.buffered.off_eq
  rw [List.length_nil, Nat.add_zero] at hoff
  have hlen : ((file.drop off).take n).length = n := by
    rw [List.length_take, List.length_drop]
    omega
  have hshort := h.short
  have hrefill := h.buffered.refill hn
  -- the bytes copied so far and those that are copied now
  have hjoin (k : ℕ) (hk : k ≤ n) : copied ++ ((file.drop off).take n).take k =
      (file.drop p).take (copied.length + k) := by
    rw [take_add, ← h.copied_eq, hoff, List.take_take, min_eq_left hk]
  rw [rsEofReadBinlog2Fread, hlen]
  by_cases hfull : size - copied.length ≤ n
  · rw [min_eq_right hfull]
    simp only [if_neg (show ¬ copied.length + (size - copied.length) < size by omega)]
    have hsize : copied.length + (size - copied.length) = size := by omega
    refine ⟨by rw [hjoin _ hfull, hsize], ?_, ?_⟩
    · rw [List.length_append, List.length_take, hlen]
      omega
    · have hskip := hrefill.skip (n := size - copied.length) (by rw [hlen]; exact hfull)
      rwa [Nat.add_assoc, hsize] at hskip
  · rw [min_eq_left (by omega)]
    simp only [if_pos (show copied.length + n < size by omega)]
    have htake : ((file.drop off).take n).take n = (file.drop off).take n :=
      List.take_of_length_le hlen.le
    have hlen' : (copied ++ ((file.drop off).take n).take n).length = copied.length + n := by
      rw [List.length_append, htake, hlen]
    refine ⟨by rw [hlen']; omega, by rw [hlen']; exact hjoin n le_rfl, ?_, ?_⟩
    · exact List.drop_of_length_le hlen.le
    · rw [hlen', ← Nat.add_assoc, hoff]
      exact .seek hn

theorem InCall.append (h : InCall file p size copied b.bytes off) (more : List UInt8) :
    InCall (file ++ more) p size copied b.bytes off := by
  have hoff := h.buffered.off_eq
  have hle := h.buffered.off_le
  rw [List.length_nil, Nat.add_zero] at hoff
  refine ⟨h.short, ?_, h.buf_eq, h.buffered.append more⟩
  rw [List.drop_append_of_le_length (by omega), List.take_append_of_le_length
    (by rw [List.length_drop]; omega), ← h.copied_eq]

/-- The events of the file from `opened` up to `pos` have been taken, each once and in order;
`after` is to come. -/
def Placed (f : LogFile) (opened : ℕ) (heads : List (List UInt8)) (pos : ℕ) (after : List Event) :
    Prop :=
  ∃ before read, f.events = before ++ (read ++ after) ∧
    opened = rsBinlogMagicNumLen + (before.flatMap Event.bytes).length ∧
    heads = read.map Event.head ∧ pos = opened + (read.flatMap Event.bytes).length

variable {f : LogFile} {opened pos : ℕ} {heads : List (List UInt8)} {after new : List Event} {e : Event}

theorem Placed.start (f : LogFile) : Placed f rsBinlogMagicNumLen [] rsBinlogMagicNumLen f.events :=
  ⟨[], [], rfl, rfl, rfl, rfl⟩

theorem Placed.next (h : Placed f opened heads pos (e :: after)) :
    Placed f opened (heads ++ [e.head]) (pos + e.bytes.length) after := by
  obtain ⟨before, read, hevents, hopened, rfl, rfl⟩ := h
  refine ⟨before, read ++ [e], by simpa using hevents, hopened, by rw [List.map_append]; rfl, ?_⟩
  simp [Nat.add_assoc]

theorem Placed.grow (h : Placed f opened heads pos after) (new : List Event) :
    Placed ⟨f.name, f.events ++ new⟩ opened heads pos (after ++ new) := by
  obtain ⟨before, read, hevents, hrest⟩ := h
  exact ⟨before, read, by rw [hevents]; simp only [List.append_assoc], hrest⟩

theorem Placed.drop (h : Placed f opened heads pos after) :
    f.bytes.drop pos = after.flatMap Event.bytes := by
  obtain ⟨before, read, hevents, rfl, -, rfl⟩ := h
  rw [LogFile.bytes, hevents, List.flatMap_append, List.flatMap_append, ← List.append_assoc,
    ← List.append_assoc]
  exact List.drop_left' (by simp only [List.length_append]; rfl)

theorem Placed.length (h : Placed f opened heads pos after) :
    pos + (after.flatMap Event.bytes).length = f.bytes.length := by
  obtain ⟨before, read, hevents, rfl, -, rfl⟩ := h
  rw [LogFile.bytes, hevents, List.flatMap_append, List.flatMap_append]
  simp only [List.length_append, Nat.add_assoc]
  rfl

theorem Placed.event (h : Placed f opened heads pos (e :: after)) :
    (f.bytes.drop pos).take rsBinlogEventHeaderLen = e.head ∧
      (f.bytes.drop (pos + rsBinlogEventHeaderLen)).take e.body.length = e.body := by
  have hdrop : f.bytes.drop pos = e.head ++ (e.body ++ after.flatMap Event.bytes) := by
    rw [h.drop, List.flatMap_cons, Event.bytes, List.append_assoc]
  constructor
  · rw [hdrop, List.take_left' e.head_length]
  · rw [← List.drop_drop, hdrop, List.drop_left' e.head_length, List.take_left]

/-- Where nineteen bytes are left, they are the header of an event. -/
theorem Placed.header (h : Placed f opened heads pos after)
    (hlen : ((f.bytes.drop pos).take rsBinlogEventHeaderLen).length = rsBinlogEventHeaderLen) :
    ∃ e rest, after = e :: rest ∧ (f.bytes.drop pos).take rsBinlogEventHeaderLen = e.head := by
  cases after with
  | nil =>
    rw [h.drop] at hlen
    exact absurd hlen (by decide)
  | cons e rest => exact ⟨e, rest, rfl, h.event.1⟩

def Reached (start : RsReqdumpData) (s : Session) : Prop :=
  ∃ items, exec sessionStep ⟨start, false⟩ items = some s

/-- `dump_pos` as the thread opens a file. -/
def RsReqdumpData.behindMagic (rd : RsReqdumpData) : RsReqdumpData :=
  { rd with dumpPos := if rd.dumpPos = 0 then UInt32.ofNat rsBinlogMagicNumLen else rd.dumpPos }

variable {start rd r : RsReqdumpData} {s s' : Reader} {t t' : Session} {i : Item} {h : Handler}
  {before : List (List UInt8)} {d d' : Disk}

theorem sessionStep_idle (hidle : t.rd.Idle) (hs : sessionStep t i = some t') : t'.rd.Idle := by
  cases i with
  | event e => exact (sessionStep_event hidle hs).2.idle hidle
  | file name num =>
    obtain rfl := Option.some.inj hs
    exact ⟨hidle.mev, hidle.sent, hidle.skip, hidle.flush⟩

theorem Reached.idle (hstart : start.Idle) (hr : Reached start t) : t.rd.Idle := by
  obtain ⟨items, hrun⟩ := hr
  exact exec_invariant (I := fun t => t.rd.Idle) (fun _ _ _ hidle hs => sessionStep_idle hidle hs)
    hstart hrun

theorem Reached.step (hr : Reached start t) (hs : sessionStep t i = some t') : Reached start t' := by
  obtain ⟨items, hrun⟩ := hr
  refine ⟨items ++ [i], exec_append_eq_some.mpr ⟨t, hrun, ?_⟩⟩
  rw [exec_cons, hs]
  rfl

theorem Reached.openNext {waiting : Bool} (hr : Reached start ⟨rd, waiting⟩) (name : DumpFile)
    (num : UInt32) : Reached start
      ⟨RsReqdumpData.behindMagic { rd with dumpFile := name, dumpNum := num, dumpPos := 0 }, false⟩ :=
  hr.step (i := .file name num) rfl

/-- The thread has read the header of `e`, which stands where the session `rd` is. -/
structure Taking (f : LogFile) (s : Reader) (rd : RsReqdumpData) (e : Event) (after : List Event)
    (before : List (List UInt8)) : Prop where
  name : rd.dumpFile = f.name
  placed : Placed f s.opened before rd.dumpPos.toNat (e :: after)
  heads_eq : s.heads = before ++ [e.head]

theorem Taking.next (ht : Taking f s rd e after before) :
    Placed f s.opened s.heads (rd.dumpPos.toNat + e.bytes.length) after := by
  rw [ht.heads_eq]
  exact ht.placed.next

theorem Taking.dumpPos (ht : Taking f s rd e after before) (hlt : f.bytes.length < 2 ^ 32) :
    (rd.dumpPos + e.el).toNat = rd.dumpPos.toNat + e.bytes.length := by
  have hlen := ht.next.length
  rw [UInt32.toNat_add, e.el_toNat, ← e.length_bytes, Nat.mod_eq_of_lt (by omega)]

/-- The data part is read, or the whole event is passed over. -/
theorem handlerStart_ret {x : RsReqdumpData} {code : RsCode} (hs : handlerStart h x = .ret code r) :
    r.binlogInfo.skip = true ∧ r.binlogInfo.dl = x.binlogInfo.dl ∧ r.dumpPos = x.dumpPos := by
  have hstarted := handlerStart_started h x
  rw [hs] at hstarted
  cases hstarted
  exact ⟨rfl, rfl, rfl⟩

theorem handlerStart_read {x : RsReqdumpData} (hs : handlerStart h x = .read r) :
    r.binlogInfo.skip = x.binlogInfo.skip ∧ r.binlogInfo.dl = x.binlogInfo.dl ∧
      r.dumpFile = x.dumpFile := by
  have hstarted := handlerStart_started h x
  rw [hs] at hstarted
  cases hstarted
  exact ⟨rfl, rfl, rfl⟩

theorem handlerStart_wait {x : RsReqdumpData} (hs : handlerStart h x = .wait r) :
    h = .stop ∧ r = x ∧ x.serverId = x.binlogInfo.svrid := by
  have hstarted := handlerStart_started h x
  rw [hs] at hstarted
  cases hstarted with
  | waits hid => exact ⟨rfl, rfl, hid⟩

theorem handlerBody_skip {x : RsReqdumpData} {code : RsCode} {body : List UInt8}
    (hrows : ∀ mev, h = .rows mev → mev ≠ 0) (hs : handlerBody h x body = some (code, r)) :
    r.binlogInfo.skip = x.binlogInfo.skip := by
  cases h with
  | skip => cases hs
  | stop => cases hs
  | query =>
    obtain ⟨-, _, _, _, -, -, -, rfl⟩ := rsBinlogQueryBody_spec hs
    rfl
  | intvar =>
    obtain ⟨-, ⟨_, -, -, rfl⟩ | ⟨_, -, -, rfl⟩⟩ := rsBinlogIntvarBody_spec hs <;> rfl
  | xid =>
    obtain ⟨-, _, -, rfl⟩ := rsBinlogXidBody_spec hs
    rfl
  | tableMap =>
    obtain ⟨-, _, _, _, _, _, _, _, _, -, -, -, -, -, -, -, -, rfl⟩ := rsBinlogTableMapBody_spec hs
    rfl
  | rows mev =>
    obtain ⟨-, _, _, _, _, -, -, -, -, rfl⟩ := rowsBody_spec (hrows mev rfl) hs
    rfl

/-- How the handler of `e` returned, in the session at `rd`: without a read or behind one. -/
def Returned (rd : RsReqdumpData) (e : Event) (h : Handler) (code : RsCode) (r : RsReqdumpData) : Prop :=
  handlerStart h (rsBinlogHeaderHandler rd e.head) = .ret code r ∨
    ∃ x, handlerStart h (rsBinlogHeaderHandler rd e.head) = .read x ∧
      handlerBody h x e.body = some (code, r)

/-- A handler returns with `RS_OK` in the state that the session has then. -/
theorem Returned.effect {code : RsCode} (hh : e.handler = some h)
    (hret : Returned rd e h code r) :
    code = .ok ∧ Effect (rsBinlogHeaderHandler rd e.head) e.body h r ∧
      turn rd e = finishTurn (.ok, r) := by
  have hrows (mev : UInt8) (hm : h = .rows mev) : mev ≠ 0 :=
    IsRowsEvent.ne_zero (rsBinlogFuncs_rows (hm ▸ hh))
  have hturn : turn rd e = runHandler h (rsBinlogHeaderHandler rd e.head) e.body := by
    rw [turn, hh]
  rw [hturn, runHandler]
  rcases @handler_effect (rsBinlogHeaderHandler rd e.head) h e.body hrows with
    ⟨-, -, hwait⟩ | ⟨u, hu, he⟩ | ⟨x, hx, hbody⟩
  · rcases hret with hret | ⟨x, hx, -⟩
    · cases hwait.symm.trans hret
    · cases hwait.symm.trans hx
  · rcases hret with hret | ⟨x, hx, -⟩
    · obtain ⟨rfl, rfl⟩ := Start.ret.inj (hu.symm.trans hret)
      refine ⟨rfl, he, ?_⟩
      rw [hu]
    · cases hu.symm.trans hx
  · rcases hret with hret | ⟨y, hy, hb⟩
    · cases hx.symm.trans hret
    · obtain rfl := Start.read.inj (hx.symm.trans hy)
      obtain ⟨rfl, he⟩ := hbody code r hb
      refine ⟨rfl, he, ?_⟩
      rw [hx]
      exact congrArg (Option.bind · finishTurn) hb

theorem seekSkip_of_le (h : s.rd.binlogInfo.dl.toNat ≤ s.ioBuf.bytes.length) :
    s.seekSkip = { s with ioBuf := { s.ioBuf with
      pos := s.ioBuf.pos + s.rd.binlogInfo.dl.toNat
      bytes := s.ioBuf.bytes.drop s.rd.binlogInfo.dl.toNat } } := if_pos h

theorem seekSkip_of_lt (h : s.ioBuf.bytes.length < s.rd.binlogInfo.dl.toNat) :
    s.seekSkip = { s with ioBuf := rsBufDrop s.ioBuf, offset := s.rd.dumpPos.toNat } :=
  if_neg (not_le.mpr h)

/-- The moves past a skipped event agree, whatever is in the buffer. -/
theorem seekSkip_buffered {p : ℕ} (hb : Buffered f.bytes p s.ioBuf.bytes s.offset)
    (hdl : s.rd.binlogInfo.dl.toNat = n) (hpos : s.rd.dumpPos.toNat = p + n)
    (hle : p + n ≤ f.bytes.length) :
    Buffered f.bytes (p + n) s.seekSkip.ioBuf.bytes s.seekSkip.offset := by
  rcases Nat.lt_or_ge s.ioBuf.bytes.length s.rd.binlogInfo.dl.toNat with hlt | hge
  · rw [seekSkip_of_lt hlt]
    change Buffered f.bytes (p + n) [] s.rd.dumpPos.toNat
    rw [hpos]
    exact .seek hle
  · rw [seekSkip_of_le hge, hdl]
    exact hb.skip (hdl ▸ hge)

theorem seekSkip_ghost (s : Reader) : s.seekSkip.opened = s.opened ∧ s.seekSkip.heads = s.heads := by
  rcases Nat.lt_or_ge s.ioBuf.bytes.length s.rd.binlogInfo.dl.toNat with hlt | hge
  · rw [seekSkip_of_lt hlt]
    exact ⟨rfl, rfl⟩
  · rw [seekSkip_of_le hge]
    exact ⟨rfl, rfl⟩

theorem Reader.finish_ok {u : RsReqdumpData} (h : rsBinlogFinishHandler r = some (.ok, u)) :
    s.finish (.ok, r) = some { (if r.binlogInfo.skip then { s with rd := r }.seekSkip else s) with
      rd := u, phase := .top } := by
  rw [Reader.finish, if_pos rfl, h]
  rfl

def PhaseOk (start : RsReqdumpData) (f : LogFile) (s : Reader) : ReadPhase → Prop
  | .opening => Reached start ⟨s.rd.behindMagic, false⟩ ∧ s.ioBuf.bytes = [] ∧
      ∃ after, Placed f s.opened s.heads s.rd.behindMagic.dumpPos.toNat after
  | .top => Reached start ⟨s.rd, false⟩ ∧
      Buffered f.bytes s.rd.dumpPos.toNat s.ioBuf.bytes s.offset ∧
      ∃ after, Placed f s.opened s.heads s.rd.dumpPos.toNat after
  | .reading .header copied => Reached start ⟨s.rd, false⟩ ∧
      InCall f.bytes s.rd.dumpPos.toNat rsBinlogEventHeaderLen copied s.ioBuf.bytes s.offset ∧
      ∃ after, Placed f s.opened s.heads s.rd.dumpPos.toNat after
  | .reading (.body h) copied => ∃ rd e after before, Taking f s rd e after before ∧
      Reached start ⟨rd, false⟩ ∧ e.handler = some h ∧
      handlerStart h (rsBinlogHeaderHandler rd e.head) = .read s.rd ∧
      InCall f.bytes (rd.dumpPos.toNat + rsBinlogEventHeaderLen) e.body.length copied s.ioBuf.bytes
        s.offset
  | .scanning .header copied => Reached start ⟨s.rd, false⟩ ∧ copied = [] ∧
      InCall f.bytes s.rd.dumpPos.toNat rsBinlogEventHeaderLen copied s.ioBuf.bytes s.offset ∧
      ∃ after, Placed f s.opened s.heads s.rd.dumpPos.toNat after ∧ (s.grown = false ↔ after = [])
  | .scanning (.body _) _ => False
  | .waiting => ∃ rd e after before, Taking f s rd e after before ∧ Reached start ⟨s.rd, true⟩ ∧
      e.handler = some .stop ∧ s.rd = rsBinlogHeaderHandler rd e.head ∧
      s.rd.serverId = s.rd.binlogInfo.svrid
  | .finished => True

structure Follows (start : RsReqdumpData) (f : LogFile) (s : Reader) : Prop where
  name : s.rd.dumpFile = f.name
  phase : PhaseOk start f s s.phase

/-- Behind the header of `e`, with the session still in front of it. -/
theorem finish_inv {code : RsCode} (hstart : start.Idle) (hlt : f.bytes.length < 2 ^ 32)
    (ht : Taking f s rd e after before) (hr : Reached start ⟨rd, false⟩) (hh : e.handler = some h)
    (hret : Returned rd e h code r)
    (hbuf : (r.binlogInfo.skip = true ∧ r.binlogInfo.dl.toNat = e.body.length ∧
        Buffered f.bytes (rd.dumpPos.toNat + rsBinlogEventHeaderLen) s.ioBuf.bytes s.offset) ∨
      (r.binlogInfo.skip = false ∧
        Buffered f.bytes (rd.dumpPos.toNat + e.bytes.length) s.ioBuf.bytes s.offset))
    (hs : s.finish (code, r) = some s') : Follows start f s' := by
  have hidle : rd.Idle := hr.idle hstart
  obtain ⟨rfl, he, hturn⟩ := hret.effect hh
  obtain ⟨hmev, hflush⟩ := he.clear (hidle.header e.head)
  obtain ⟨k, pos, hfin, -⟩ := rsBinlogFinishHandler_eq hmev hflush
  have hnext : Reached start ⟨r.finished k pos, false⟩ := by
    refine hr.step (i := .event e) ?_
    change (turn rd e).bind Turn.session = _
    rw [hturn, finishTurn, if_pos rfl, hfin]
    rfl
  have hpos : r.dumpPos.toNat = rd.dumpPos.toNat + e.bytes.length := by
    rw [he.kept.1, header_dumpPos]
    exact ht.dumpPos hlt
  have hname : (r.finished k pos).dumpFile = f.name := he.kept.2.1.trans ht.name
  have hplaced := ht.next
  rw [← hpos] at hplaced hbuf
  obtain rfl := Option.some.inj ((Reader.finish_ok hfin).symm.trans hs)
  rcases hbuf with ⟨hskip, hdl, hbuf⟩ | ⟨hskip, hbuf⟩
  · rw [if_pos hskip]
    have hlen := e.length_bytes
    have hle := hplaced.length
    have hseek := seekSkip_buffered (s := { s with rd := r }) hbuf hdl (by simp only []; omega) (by omega)
    obtain ⟨hopened, hheads⟩ := seekSkip_ghost { s with rd := r }
    refine ⟨hname, hnext, ?_, after, ?_⟩
    · change Buffered _ r.dumpPos.toNat _ _
      rw [show r.dumpPos.toNat = rd.dumpPos.toNat + rsBinlogEventHeaderLen + e.body.length by omega]
      exact hseek
    · change Placed f (Reader.seekSkip _).opened (Reader.seekSkip _).heads r.dumpPos.toNat after
      rw [hopened, hheads]
      exact hplaced
  · rw [if_neg (by rw [hskip]; decide)]
    exact ⟨hname, hnext, hbuf, after, hplaced⟩

theorem afterBody_inv {eof : Eof} (hstart : start.Idle) (hlt : f.bytes.length < 2 ^ 32)
    (ht : Taking f s rd e after before) (hr : Reached start ⟨rd, false⟩) (hh : e.handler = some h)
    (hread : handlerStart h (rsBinlogHeaderHandler rd e.head) = .read s.rd)
    (heof : EofOk f.bytes (rd.dumpPos.toNat + rsBinlogEventHeaderLen) e.body.length s.offset eof)
    (hs : s.afterBody h eof = some s') : Follows start f s' := by
  cases eof with
  | loop copied b =>
    obtain rfl := Option.some.inj hs
    exact ⟨(handlerStart_read hread).2.2.trans ht.name, rd, e, after, before,
      ⟨ht.name, ht.placed, ht.heads_eq⟩, hr, hh, hread, heof⟩
  | ret data b =>
    obtain ⟨hdata, -, hbuf⟩ := heof
    obtain ⟨-, hbody⟩ := ht.placed.event
    obtain rfl : data = e.body := hdata.trans hbody
    obtain ⟨⟨code, r⟩, hret, hs⟩ := Option.bind_eq_some_iff.mp hs
    have hrows (mev : UInt8) (hm : h = .rows mev) : mev ≠ 0 :=
      IsRowsEvent.ne_zero (rsBinlogFuncs_rows (hm ▸ hh))
    have hskip : r.binlogInfo.skip = false := by
      rw [handlerBody_skip hrows hret, (handlerStart_read hread).1]
      exact (hr.idle hstart).skip
    rw [Nat.add_assoc, ← e.length_bytes] at hbuf
    exact finish_inv (s := { s with ioBuf := b }) hstart hlt ⟨ht.name, ht.placed, ht.heads_eq⟩ hr hh
      (Or.inr ⟨_, hread, hret⟩) (Or.inr ⟨hskip, hbuf⟩) hs

theorem start_inv (hstart : start.Idle) (hlt : f.bytes.length < 2 ^ 32)
    (ht : Taking f s rd e after before) (hr : Reached start ⟨rd, false⟩) (hh : e.handler = some h)
    (hrd : s.rd = rsBinlogHeaderHandler rd e.head)
    (hbuf : Buffered f.bytes (rd.dumpPos.toNat + rsBinlogEventHeaderLen) s.ioBuf.bytes s.offset)
    (hs : s.start h = some s') : Follows start f s' := by
  unfold Reader.start at hs
  cases hx : handlerStart h s.rd with
  | ret code r =>
    rw [hx] at hs
    obtain ⟨hskip, hdl, -⟩ := handlerStart_ret hx
    rw [hrd] at hx hdl
    exact finish_inv hstart hlt ht hr hh (Or.inl hx)
      (Or.inl ⟨hskip, by rw [hdl, header_dl], hbuf⟩) hs
  | read r =>
    rw [hx] at hs
    have hdl : r.binlogInfo.dl.toNat = e.body.length := by
      rw [(handlerStart_read hx).2.1, hrd, header_dl]
    rw [hrd] at hx
    refine afterBody_inv (s := { s with rd := r }) hstart hlt ⟨ht.name, ht.placed, ht.heads_eq⟩ hr hh hx ?_ hs
    rw [hdl]
    exact rsEofReadBinlog2_ok hbuf _
  | wait r =>
    rw [hx] at hs
    obtain ⟨rfl, rfl, hid⟩ := handlerStart_wait hx
    obtain rfl := Option.some.inj hs
    have hname : s.rd.dumpFile = f.name := (congrArg RsReqdumpData.dumpFile hrd).trans ht.name
    refine ⟨hname, rd, e, after, before, ⟨ht.name, ht.placed, ht.heads_eq⟩, ?_, hh, hrd, hid⟩
    refine hr.step (i := .event e) ?_
    change (turn rd e).bind Turn.session = _
    rw [turn, hh]
    change (runHandler .stop _ _).bind Turn.session = _
    rw [runHandler, ← hrd, hx]
    rfl

theorem afterHeader_inv {eof : Eof} (hstart : start.Idle) (hlt : f.bytes.length < 2 ^ 32)
    (hname : s.rd.dumpFile = f.name) (hp : Placed f s.opened s.heads s.rd.dumpPos.toNat after)
        (hr : Reached start ⟨s.rd, false⟩)
    (heof : EofOk f.bytes s.rd.dumpPos.toNat rsBinlogEventHeaderLen s.offset eof)
    (hs : s.afterHeader eof = some s') : Follows start f s' := by
  cases eof with
  | loop copied b =>
    obtain rfl := Option.some.inj hs
    exact ⟨hname, hr, heof, after, hp⟩
  | ret eh b =>
    obtain ⟨heh, hlen, hbuf⟩ := heof
    obtain ⟨e, rest, rfl, hhead⟩ := hp.header (by rw [← heh, hlen])
    obtain rfl : eh = e.head := heh.trans hhead
    let u : Reader := { s with
      rd := rsBinlogHeaderHandler s.rd e.head, ioBuf := b, heads := s.heads ++ [e.head] }
    have ht : Taking f u s.rd e rest s.heads := ⟨hname, hp, rfl⟩
    have hfuncs : rsBinlogFuncs (eventIdx (rsBinlogHeaderHandler s.rd e.head).binlogInfo.t) = e.handler := rfl
    rw [Reader.afterHeader, hfuncs] at hs
    cases hh : e.handler with
    | none =>
      rw [hh] at hs
      obtain rfl := Option.some.inj hs
      have hpos := ht.dumpPos hlt
      rw [← header_dumpPos] at hpos
      have hne : u.rd.dumpPos ≠ 0 := fun h0 => by
        have hlen := e.length_bytes
        change (rsBinlogHeaderHandler s.rd e.head).dumpPos = 0 at h0
        rw [h0] at hpos
        change 0 = _ at hpos
        rw [rsBinlogEventHeaderLen] at hlen
        omega
      have hmagic : u.rd.behindMagic = u.rd := by
        rw [RsReqdumpData.behindMagic, if_neg hne]
      have hnext : Reached start ⟨u.rd, false⟩ := by
        refine hr.step (i := .event e) ?_
        change (turn s.rd e).bind Turn.session = _
        rw [turn, hh]
        rfl
      refine ⟨hname, ?_, rfl, rest, ?_⟩
      · change Reached start ⟨u.rd.behindMagic, false⟩
        rw [hmagic]
        exact hnext
      · change Placed f u.opened u.heads u.rd.behindMagic.dumpPos.toNat rest
        rw [hmagic]
        exact hpos ▸ ht.next
    | some h =>
      rw [hh] at hs
      exact start_inv hstart hlt ht hr hh rfl hbuf hs

/-- A file stays below 4 GiB. -/
def Disk.Small (d : Disk) : Prop := ∀ f ∈ d.files, f.bytes.length < 2 ^ 32

instance (d : Disk) : Decidable d.Small := inferInstanceAs (Decidable (∀ f ∈ d.files, _))

theorem Disk.file_spec {name : DumpFile} (h : d.file name = some f) : f ∈ d.files ∧ f.name = name :=
  ⟨List.mem_of_find?_eq_some h, by simpa using List.find?_some h⟩

theorem Disk.file_of_mem (h : f ∈ d.files) : ∃ g, d.file f.name = some g := by
  cases hg : d.file f.name with
  | none => simpa using List.find?_eq_none.mp hg f h
  | some g => exact ⟨g, rfl⟩

theorem serverStep_cases {a : ServerAct} (hs : serverStep d a = some d') :
    (∃ e, a = .append e ∧ (⟨d.current.name, d.current.events ++ [e]⟩ : LogFile).bytes.length < 2 ^ 32 ∧
      d' = { d with current := ⟨d.current.name, d.current.events ++ [e]⟩ }) ∨
    (∃ name, a = .create name ∧ (∀ f ∈ d.files, f.name.num < name.num) ∧
      d' = { d with closed := d.files, current := ⟨name, []⟩ }) ∨
    (a = .index ∧ d.indexed < d.files.length ∧ d' = { d with indexed := d.indexed + 1 }) := by
  cases a with
  | append e =>
    simp only [serverStep, Option.ite_none_right_eq_some, Option.some.injEq] at hs
    exact Or.inl ⟨e, rfl, hs.1, hs.2.symm⟩
  | create name =>
    simp only [serverStep, Option.ite_none_right_eq_some, Option.some.injEq] at hs
    exact Or.inr (Or.inl ⟨name, rfl, hs.1, hs.2.symm⟩)
  | index =>
    simp only [serverStep, Option.ite_none_right_eq_some, Option.some.injEq] at hs
    exact Or.inr (Or.inr ⟨rfl, hs.1, hs.2.symm⟩)

theorem Disk.Small.step {a : ServerAct} (h : d.Small) (hs : serverStep d a = some d') : d'.Small := by
  obtain ⟨e, rfl, hlt, rfl⟩ | ⟨name, rfl, -, rfl⟩ | ⟨rfl, -, rfl⟩ := serverStep_cases hs
  · intro f hf
    rcases List.mem_append.mp hf with hf | hf
    · exact h f (List.mem_append_left _ hf)
    · rw [List.mem_singleton.mp hf]
      exact hlt
  · intro f hf
    rcases List.mem_append.mp hf with hf | hf
    · exact h f hf
    · rw [List.mem_singleton.mp hf]
      change 4 < 2 ^ 32
      decide
  · exact h

/-- A file only grows, by whole events. -/
theorem serverStep_file {a : ServerAct} {name : DumpFile} (hs : serverStep d a = some d')
    (hf : d.file name = some f) :
    ∃ new, d'.file name = some ⟨f.name, f.events ++ new⟩ := by
  have hsame (h : d'.file name = d.file name) :
      ∃ new, d'.file name = some ⟨f.name, f.events ++ new⟩ :=
    ⟨[], by rw [h, hf, List.append_nil]⟩
  obtain ⟨e, rfl, -, rfl⟩ | ⟨name', rfl, -, rfl⟩ | ⟨rfl, -, rfl⟩ := serverStep_cases hs
  · simp only [Disk.file, Disk.files, List.find?_append] at hf ⊢
    cases hc : d.closed.find? fun f => f.name = name with
    | some g =>
      rw [hc] at hf
      obtain rfl := Option.some.inj hf
      exact ⟨[], by rw [List.append_nil]; rfl⟩
    | none =>
      rw [hc, Option.none_or, List.find?_singleton] at hf
      split_ifs at hf with hname
      obtain rfl := Option.some.inj hf
      exact ⟨[e], by rw [Option.none_or, List.find?_singleton, if_pos hname]⟩
  · refine hsame ?_
    change (d.files ++ [_]).find? _ = _
    rw [List.find?_append, show d.files.find? (fun f => f.name = name) = some f from hf, hf]
    rfl
  · exact hsame rfl

theorem rsHasNextBinlog_spec {rd' : RsReqdumpData} (h : rsHasNextBinlog d.index rd = some rd') :
    ∃ g, d.file rd'.dumpFile = some g ∧
      rd' = { rd with dumpFile := rd'.dumpFile, dumpNum := rd'.dumpFile.num, dumpPos := 0 } := by
  obtain ⟨name, hname, rfl⟩ := Option.map_eq_some_iff.mp h
  obtain ⟨f, hf, rfl⟩ := List.mem_map.mp (List.mem_of_find?_eq_some hname)
  obtain ⟨g, hg⟩ := Disk.file_of_mem (d := d) (List.mem_of_mem_take hf)
  exact ⟨g, hg, rfl⟩

theorem LogFile.bytes_grow (f : LogFile) (new : List Event) :
    LogFile.bytes ⟨f.name, f.events ++ new⟩ = f.bytes ++ new.flatMap Event.bytes := by
  rw [LogFile.bytes, LogFile.bytes, List.flatMap_append, List.append_assoc]

theorem flatMap_bytes_eq_nil : new.flatMap Event.bytes = [] ↔ new = [] := by
  constructor
  · intro h
    cases new with
    | nil => rfl
    | cons e es =>
      have hlen := congrArg List.length h
      rw [List.flatMap_cons, List.length_append, e.length_bytes, rsBinlogEventHeaderLen] at hlen
      exact absurd hlen (by simp)
  · rintro rfl
    rfl

theorem Reader.unread_eq (h : d.file s.rd.dumpFile = some f) : s.unread d = f.bytes.drop s.offset := by
  rw [Reader.unread, h]

theorem Follows.grow {g : Bool} (h : Follows start f s) (new : List Event)
    (hg : s.offset ≤ f.bytes.length → (g = false ↔ s.grown = false ∧ new = [])) :
    Follows start ⟨f.name, f.events ++ new⟩ { s with grown := g } := by
  refine ⟨h.name, ?_⟩
  have hphase := h.phase
  change PhaseOk start _ { s with grown := g } s.phase
  cases hp : s.phase with
  | opening =>
    rw [hp] at hphase
    obtain ⟨hr, hnil, after, hplaced⟩ := hphase
    exact ⟨hr, hnil, after ++ new, hplaced.grow new⟩
  | top =>
    rw [hp] at hphase
    obtain ⟨hr, hbuf, after, hplaced⟩ := hphase
    exact ⟨hr, f.bytes_grow new ▸ hbuf.append _, after ++ new, hplaced.grow new⟩
  | reading p copied =>
    rw [hp] at hphase
    cases p with
    | header =>
      obtain ⟨hr, hcall, after, hplaced⟩ := hphase
      exact ⟨hr, f.bytes_grow new ▸ hcall.append _, after ++ new, hplaced.grow new⟩
    | body h =>
      obtain ⟨rd, e, after, before, ht, hr, hh, hread, hcall⟩ := hphase
      exact ⟨rd, e, after ++ new, before, ⟨ht.name, ht.placed.grow new, ht.heads_eq⟩, hr, hh, hread,
        f.bytes_grow new ▸ hcall.append _⟩
  | scanning p copied =>
    rw [hp] at hphase
    cases p with
    | header =>
      obtain ⟨hr, hcopied, hcall, after, hplaced, hgrown⟩ := hphase
      refine ⟨hr, hcopied, f.bytes_grow new ▸ hcall.append _, after ++ new, hplaced.grow new, ?_⟩
      change g = false ↔ _
      rw [hg hcall.buffered.off_le, hgrown, List.append_eq_nil_iff]
    | body h => exact hphase
  | waiting =>
    rw [hp] at hphase
    obtain ⟨rd, e, after, before, ht, hrest⟩ := hphase
    exact ⟨rd, e, after ++ new, before, ⟨ht.name, ht.placed.grow new, ht.heads_eq⟩, hrest⟩
  | finished => trivial

structure System.Inv (start : RsReqdumpData) (s : System) : Prop where
  small : s.disk.Small
  follows : ∃ f, s.disk.file s.reader.rd.dumpFile = some f ∧ Follows start f s.reader

theorem System.Inv.server {s : System} {a : ServerAct} (h : s.Inv start)
    (hs : serverStep s.disk a = some d') : System.Inv start
      ⟨d', { s.reader with
        grown := s.reader.grown || decide (s.reader.unread d' ≠ s.reader.unread s.disk) }⟩ := by
  obtain ⟨f, hf, hfollows⟩ := h.follows
  obtain ⟨new, hnew⟩ := serverStep_file hs hf
  refine ⟨h.small.step hs, _, hnew, hfollows.grow new fun hoff => ?_⟩
  rw [Reader.unread_eq hf, Reader.unread_eq hnew, LogFile.bytes_grow, List.drop_append_of_le_length hoff,
    Bool.or_eq_false_iff, decide_eq_false_iff_not, not_not, List.append_right_eq_self,
    flatMap_bytes_eq_nil]

theorem follows_next {u : RsReqdumpData} {waiting : Bool} (hr : Reached start ⟨s.rd, waiting⟩)
    (hnext : rsHasNextBinlog d.index s.rd = some u) :
    ∃ g, d.file u.dumpFile = some g ∧ Follows start g
      ({ s with rd := u, opened := rsBinlogMagicNumLen, heads := [] }.leave .hasBinlog) := by
  obtain ⟨g, hg, hu⟩ := rsHasNextBinlog_spec hnext
  have hpos : u.behindMagic.dumpPos.toNat = rsBinlogMagicNumLen := by
    rw [hu]
    rfl
  refine ⟨g, hg, (Disk.file_spec hg).2.symm, ?_, rfl, g.events, ?_⟩
  · change Reached start ⟨u.behindMagic, false⟩
    rw [hu]
    exact hr.openNext _ _
  · change Placed g rsBinlogMagicNumLen [] u.behindMagic.dumpPos.toNat g.events
    rw [hpos]
    exact .start g

theorem Follows.afterPart {p : Part} {copied : List UInt8} {k : ℕ} {eof : Eof}
    (hstart : start.Idle) (hlt : f.bytes.length < 2 ^ 32) (h : Follows start f s)
    (hp : s.phase = .reading p copied) (hk : s.offset + k ≤ f.bytes.length)
    (heof : eof = rsEofReadBinlog2Fread (s.want p) copied s.ioBuf ((f.bytes.drop s.offset).take k))
    (hs : Reader.after { s with offset := s.offset + k } p eof = some s') : Follows start f s' := by
  have hphase := h.phase
  rw [hp] at hphase
  cases p with
  | header =>
    obtain ⟨hr, hcall, after, hplaced⟩ := hphase
    refine afterHeader_inv (s := { s with offset := s.offset + k }) hstart hlt h.name hplaced hr ?_ hs
    rw [heof]
    exact rsEofReadBinlog2Fread_ok hcall hk
  | body h =>
    obtain ⟨rd, e, after, before, ht, hr, hh, hread, hcall⟩ := hphase
    refine afterBody_inv (s := { s with offset := s.offset + k }) hstart hlt
      ⟨ht.name, ht.placed, ht.heads_eq⟩ hr hh hread ?_ hs
    have hwant : s.want (.body h) = e.body.length := by
      change s.rd.binlogInfo.dl.toNat = _
      rw [(handlerStart_read hread).2.1, header_dl]
    rw [heof, hwant]
    exact rsEofReadBinlog2Fread_ok hcall hk

/-- A thread that finds nothing more in the file stands behind its last event. -/
theorem Follows.scanning {p : Part} {copied : List UInt8} (h : Follows start f s)
    (hp : s.phase = .reading p copied) (heof : f.bytes.drop s.offset = []) :
    Follows start f { s with phase := .scanning p copied, grown := false } := by
  refine ⟨h.name, ?_⟩
  have hphase := h.phase
  rw [hp] at hphase
  have hend := List.drop_eq_nil_iff.mp heof
  cases p with
  | header =>
    obtain ⟨hr, hcall, after, hplaced⟩ := hphase
    have hoff := hcall.buffered.off_eq
    have hle := hcall.buffered.off_le
    have hlen := hplaced.length
    have hshort := hcall.short
    have hafter : after = [] := by
      cases after with
      | nil => rfl
      | cons e es =>
        have he := e.length_bytes
        rw [List.flatMap_cons, List.length_append] at hlen
        simp only [List.length_nil] at hoff
        omega
    subst hafter
    have hcopied : copied = [] := List.length_eq_zero_iff.mp (by
      simp only [List.flatMap_nil, List.length_nil] at hlen hoff
      omega)
    exact ⟨hr, hcopied, hcall, [], hplaced, by simp⟩
  | body h =>
    -- the data part of an event is in the file with its header
    obtain ⟨rd, e, after, before, ht, -, -, -, hcall⟩ := hphase
    have hoff := hcall.buffered.off_eq
    have hlen := ht.next.length
    have he := e.length_bytes
    have hshort := hcall.short
    simp only [List.length_nil] at hoff
    omega

theorem readerStep_open (hp : s.phase = .opening) (hf : d.file s.rd.dumpFile = some f) :
    readerStep d s .open = some { s with
      rd := s.rd.behindMagic, offset := s.rd.behindMagic.dumpPos.toNat, phase := .top } := by
  rw [readerStep, if_pos hp, hf]
  rfl

inductive ReaderStays (d : Disk) (f : LogFile) (s : Reader) : ReaderAct → Reader → Prop
  | opens (hp : s.phase = .opening) : ReaderStays d f s .open
      { s with rd := s.rd.behindMagic, offset := s.rd.behindMagic.dumpPos.toNat, phase := .top }
  | calls {u : Reader} (hp : s.phase = .top)
      (hs : s.afterHeader (rsEofReadBinlog2 s.ioBuf rsBinlogEventHeaderLen) = some u) : ReaderStays d f s .call u
  | ends {p : Part} {copied : List UInt8} (hp : s.phase = .reading p copied) (hend : f.bytes.drop s.offset = []) :
      ReaderStays d f s (.fread 0) { s with phase := .scanning p copied, grown := false }
  | gets {p : Part} {copied : List UInt8} {n : ℕ} {u : Reader} (hp : s.phase = .reading p copied)
      (hle : s.offset + n ≤ f.bytes.length)
      (hs : Reader.after { s with offset := s.offset + n } p
        (rsEofReadBinlog2Fread (s.want p) copied s.ioBuf ((f.bytes.drop s.offset).take n)) = some u) :
      ReaderStays d f s (.fread n) u
  | resumes {p : Part} {copied : List UInt8} (hp : s.phase = .scanning p copied)
      (hnext : rsHasNextBinlog d.index s.rd = none) : ReaderStays d f s .scan { s with phase := .reading p copied }
  | waits (hp : s.phase = .waiting) (hnext : rsHasNextBinlog d.index s.rd = none) : ReaderStays d f s .scan s
  | fails : ReaderStays d f s .fail { s with phase := .finished }

def ReadPhase.Scans (p : ReadPhase) : Prop := p = .waiting ∨ ∃ part copied, p = .scanning part copied

/-- The thread stays in its file, or the index has the next one. -/
theorem readerStep_cases {a : ReaderAct} {u : Reader} (hf : d.file s.rd.dumpFile = some f)
    (hs : readerStep d s a = some u) : ReaderStays d f s a u ∨
      a = .scan ∧ s.phase.Scans ∧ ∃ rd, rsHasNextBinlog d.index s.rd = some rd ∧
        u = { s with rd := rd, opened := rsBinlogMagicNumLen, heads := [] }.leave .hasBinlog := by
  cases a with
  | «open» =>
    have hp : s.phase = .opening := by
      by_contra hp
      rw [readerStep, if_neg hp] at hs
      cases hs
    obtain rfl := Option.some.inj ((readerStep_open hp hf).symm.trans hs)
    exact Or.inl (.opens hp)
  | call =>
    obtain ⟨hp, hs⟩ := Option.ite_none_right_eq_some.mp hs
    exact Or.inl (.calls hp hs)
  | fread n =>
    simp only [readerStep] at hs
    rw [Reader.unread_eq hf] at hs
    split at hs
    · rename_i p copied hp
      split_ifs at hs with hn hend hsize
      · obtain rfl := Option.some.inj hs
        rw [hn]
        exact Or.inl (.ends hp hend)
      · have hle := hsize.2
        rw [List.length_drop] at hle
        exact Or.inl (.gets hp (by omega) hs)
    · cases hs
  | scan =>
    simp only [readerStep] at hs
    split at hs
    · rename_i p copied hp
      cases hnext : rsHasNextBinlog d.index s.rd with
      | none =>
        rw [hnext] at hs
        obtain rfl := Option.some.inj hs
        exact Or.inl (.resumes hp hnext)
      | some rd =>
        rw [hnext] at hs
        exact Or.inr ⟨rfl, Or.inr ⟨p, copied, hp⟩, rd, rfl, (Option.some.inj hs).symm⟩
    · rename_i hp
      cases hnext : rsHasNextBinlog d.index s.rd with
      | none =>
        rw [hnext] at hs
        obtain rfl := Option.some.inj hs
        exact Or.inl (.waits hp hnext)
      | some rd =>
        rw [hnext] at hs
        exact Or.inr ⟨rfl, Or.inl hp, rd, rfl, (Option.some.inj hs).symm⟩
    · cases hs
  | fail =>
    obtain ⟨-, hs⟩ := Option.ite_none_left_eq_some.mp hs
    obtain rfl := Option.some.inj hs
    exact Or.inl .fails

theorem Follows.stays {a : ReaderAct} {u : Reader} (hstart : start.Idle) (hlt : f.bytes.length < 2 ^ 32)
    (h : Follows start f s) (hs : ReaderStays d f s a u) : Follows start f u := by
  have hphase := h.phase
  cases hs with
  | opens hp =>
    rw [hp] at hphase
    obtain ⟨hr, hnil, after, hplaced⟩ := hphase
    refine ⟨h.name, hr, ?_, after, hplaced⟩
    have hlen := hplaced.length
    change Buffered f.bytes s.rd.behindMagic.dumpPos.toNat s.ioBuf.bytes _
    rw [hnil]
    exact .seek (by omega)
  | calls hp hs =>
    rw [hp] at hphase
    obtain ⟨hr, hbuf, after, hplaced⟩ := hphase
    exact afterHeader_inv hstart hlt h.name hplaced hr (rsEofReadBinlog2_ok hbuf _) hs
  | ends hp hend => exact h.scanning hp hend
  | gets hp hle hs => exact h.afterPart hstart hlt hp hle rfl hs
  | @resumes p copied hp =>
    rw [hp] at hphase
    cases p with
    | header =>
      obtain ⟨hr, -, hcall, after, hplaced, -⟩ := hphase
      exact ⟨h.name, hr, hcall, after, hplaced⟩
    | body => exact hphase.elim
  | waits => exact h
  | fails => exact ⟨h.name, trivial⟩

theorem Follows.reached (h : Follows start f s) (hp : s.phase.Scans) : ∃ w, Reached start ⟨s.rd, w⟩ := by
  have hphase := h.phase
  rcases hp with hp | ⟨p, copied, hp⟩
  · rw [hp] at hphase
    obtain ⟨-, -, -, -, -, hr, -⟩ := hphase
    exact ⟨true, hr⟩
  · rw [hp] at hphase
    cases p with
    | header => exact ⟨false, hphase.1⟩
    | body => exact hphase.elim

theorem System.Inv.reader {s : System} {a : ReaderAct} {u : Reader} (hstart : start.Idle)
    (h : s.Inv start) (hs : readerStep s.disk s.reader a = some u) :
    System.Inv start ⟨s.disk, u⟩ := by
  obtain ⟨hsmall, f, hf, hfollows⟩ := h
  rcases readerStep_cases hf hs with hstays | ⟨-, hp, rd, hnext, rfl⟩
  · have hend := hfollows.stays hstart (hsmall f (Disk.file_spec hf).1) hstays
    exact ⟨hsmall, f, by rw [hend.name, ← hfollows.name]; exact hf, hend⟩
  · obtain ⟨w, hr⟩ := hfollows.reached hp
    exact ⟨hsmall, follows_next hr hnext⟩

theorem System.Inv.step {s s' : System} {a : Act} (hstart : start.Idle) (h : s.Inv start)
    (hs : systemStep s a = some s') : s'.Inv start := by
  cases a with
  | server a =>
    obtain ⟨d', hd', rfl⟩ := Option.map_eq_some_iff.mp hs
    exact h.server hd'
  | reader a =>
    obtain ⟨u, hu, rfl⟩ := Option.map_eq_some_iff.mp hs
    exact h.reader hstart hu

def LogFile.Boundary (f : LogFile) (pos : ℕ) : Prop := ∃ after, Placed f pos [] pos after

def System.init (d : Disk) (ioSize : UInt32) (file : DumpFile) (pos : UInt32)
    (tables : Option (List UInt8)) (serverId : UInt32) : System :=
  ⟨d, Reader.init ioSize file pos tables serverId⟩

def startPos (pos : UInt32) : ℕ := if pos = 0 then rsBinlogMagicNumLen else pos.toNat

theorem System.init_inv {ioSize pos id : UInt32} {file : DumpFile} {tables : Option (List UInt8)}
    (hd : d.Small) (hf : d.file file = some f) (hpos : f.Boundary (startPos pos)) :
    (System.init d ioSize file pos tables id).Inv (startSession file file.num pos tables id) := by
  obtain ⟨after, hplaced⟩ := hpos
  refine ⟨hd, f, hf, (Disk.file_spec hf).2.symm, ⟨[], ?_⟩, rfl, after, ?_⟩
  · change some _ = some (Session.mk (RsReqdumpData.behindMagic _) false)
    rfl
  · change Placed f (startPos pos) [] (if pos = 0 then UInt32.ofNat rsBinlogMagicNumLen else pos).toNat after
    unfold startPos at hplaced ⊢
    split_ifs at hplaced ⊢ <;> exact hplaced

/-- The reader is in step with the file: the next byte it takes is the one at `dump_pos`, no flag
is left over, and the headers parsed since `opened` are those of the events up to there. -/
structure InStep (d : Disk) (s : Reader) : Prop where
  offset : s.rd.dumpPos.toNat + s.ioBuf.bytes.length = s.offset
  mev : s.rd.binlogInfo.mev = 0
  sent : s.rd.binlogInfo.sent = false
  skip : s.rd.binlogInfo.skip = false
  taken : ∃ f after, d.file s.rd.dumpFile = some f ∧
    Placed f s.opened s.heads s.rd.dumpPos.toNat after

/-- Whatever the server appends, however `fread` splits the files, and whether events are read,
skipped or unknown: at the top of the loop the reader is in step with the file, and so it is
when it opens a file, for the first time or again. -/
theorem reader_in_step {ioSize pos id : UInt32} {file : DumpFile} {tables : Option (List UInt8)}
    (hd : d.Small) (hf : d.file file = some f) (hpos : f.Boundary (startPos pos)) {as : List Act}
    {s : System} (hrun : exec systemStep (.init d ioSize file pos tables id) as = some s) :
    (s.reader.phase = .top → InStep s.disk s.reader) ∧
      (s.reader.phase = .opening → ∃ u, systemStep s (.reader .open) = some ⟨s.disk, u⟩ ∧
        u.phase = .top ∧ u.rd = s.reader.rd.behindMagic ∧ u.heads = s.reader.heads ∧
        InStep s.disk u) := by
  have hstart : (startSession file file.num pos tables id).Idle := ⟨rfl, rfl, rfl, rfl⟩
  have hinv : s.Inv (startSession file file.num pos tables id) :=
    exec_invariant (fun _ _ _ h hs => h.step hstart hs) (System.init_inv hd hf hpos) hrun
  have htop {t : System} (ht : t.Inv (startSession file file.num pos tables id))
      (hp : t.reader.phase = .top) : InStep t.disk t.reader := by
    obtain ⟨f, hf, hfollows⟩ := ht.follows
    have hphase := hfollows.phase
    rw [hp] at hphase
    obtain ⟨hr, hbuf, after, hplaced⟩ := hphase
    have hidle := hr.idle hstart
    exact ⟨hbuf.off_eq, hidle.mev, hidle.sent, hidle.skip, f, after, hf, hplaced⟩
  refine ⟨htop hinv, fun hp => ?_⟩
  obtain ⟨f, hf, -⟩ := hinv.follows
  have hopen := readerStep_open hp hf
  have hstep : systemStep s (.reader .open) = some ⟨s.disk, _⟩ := congrArg (Option.map _) hopen
  exact ⟨_, hstep, rfl, rfl, rfl, htop (hinv.step hstart hstep) rfl⟩

/-- A query that is read and a row event that is skipped over with `fseek`, in a file that is
read seven bytes at a time. -/
def sampleDisk : Disk := ⟨[], ⟨sampleFile, [sampleBegin, sampleRows 97]⟩, 1⟩

def sampleReads : List Act :=
  [.reader .open, .reader .call] ++ List.replicate 6 (.reader (.fread 7)) ++
    .reader .call :: List.replicate 3 (.reader (.fread 7))

theorem reader_in_step_sample : ∃ s,
    exec systemStep (.init sampleDisk 7 sampleFile 0 (some sampleTables) 1) sampleReads = some s ∧
      s.reader.phase = .top ∧ InStep s.disk s.reader := by
  have hrun : (exec systemStep (.init sampleDisk 7 sampleFile 0 (some sampleTables) 1)
      sampleReads).map (fun s => s.reader.phase) = some .top := by decide +kernel
  obtain ⟨s, hs, hp⟩ := Option.map_eq_some_iff.mp hrun
  exact ⟨s, hs, hp, (reader_in_step (by decide) rfl ⟨_, .start _⟩ hs).1 hp⟩

/-- What the thread has done with the events it has taken is what a session does. -/
theorem reader_refines_session {ioSize pos id : UInt32} {file : DumpFile}
    {tables : Option (List UInt8)} (hd : d.Small) (hf : d.file file = some f)
    (hpos : f.Boundary (startPos pos)) {as : List Act} {s : System}
    (hrun : exec systemStep (.init d ioSize file pos tables id) as = some s)
    (hp : s.reader.phase = .top) :
    Reached (startSession file file.num pos tables id) ⟨s.reader.rd, false⟩ := by
  have hstart : (startSession file file.num pos tables id).Idle := ⟨rfl, rfl, rfl, rfl⟩
  obtain ⟨g, -, hfollows⟩ := (exec_invariant (I := System.Inv _)
    (fun _ _ _ h hs => h.step hstart hs) (System.init_inv hd hf hpos) hrun).follows
  have hphase := hfollows.phase
  rw [hp] at hphase
  exact hphase.1

end MySQLSyncer.Master
