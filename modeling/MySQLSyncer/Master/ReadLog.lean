import MySQLSyncer.Master.NextBinlog
import MySQLSyncer.Master.ServedRows

/-! # The reading thread and the log

The files of the server make up one log, which only grows. Where no change of files misses an event,
what the thread has done is what a session does with the log up to some place.
-/
namespace MySQLSyncer.Master
open Lib MySQLSyncer.Core

def itemsOf (files : List LogFile) : List Item :=
  files.flatMap fun f => .file f.name f.name.num :: f.events.map .event

def Disk.log (d : Disk) : Binlog :=
  let first := (d.closed.head?).getD d.current
  ⟨first.name, first.name.num, (itemsOf d.files).tail⟩

def Disk.Sorted (d : Disk) : Prop := (d.files.map LogFile.name).Pairwise fun a b => a.num < b.num

instance (d : Disk) : Decidable d.Sorted := inferInstanceAs (Decidable (List.Pairwise _ _))

variable {d d' : Disk} {f g : LogFile} {older rest files : List LogFile} {s u : Reader} {start rd r : RsReqdumpData}
  {e : Event} {after : List Event} {before : List (List UInt8)} {h : Handler} {t t' : Session} {code : RsCode}
  {skipped : List Item}

theorem itemsOf_append (fs gs : List LogFile) : itemsOf (fs ++ gs) = itemsOf fs ++ itemsOf gs :=
  List.flatMap_append

theorem itemsOf_cons (f : LogFile) (fs : List LogFile) :
    itemsOf (f :: fs) = .file f.name f.name.num :: (f.events.map .event ++ itemsOf fs) :=
  List.flatMap_cons

theorem Disk.Sorted.step {a : ServerAct} (h : d.Sorted) (hs : serverStep d a = some d') : d'.Sorted := by
  obtain ⟨e, rfl, -, rfl⟩ | ⟨name, rfl, hlarger, rfl⟩ | ⟨rfl, -, rfl⟩ := serverStep_cases hs
  · rw [Disk.Sorted, Disk.files, List.map_append] at h
    rwa [Disk.Sorted, Disk.files, List.map_append]
  · rw [Disk.Sorted, Disk.files, List.map_append, List.pairwise_append]
    refine ⟨h, List.pairwise_singleton _ _, fun a ha b hb => ?_⟩
    obtain ⟨f, hf, rfl⟩ := List.mem_map.mp ha
    obtain rfl := List.mem_singleton.mp hb
    exact hlarger f hf
  · exact h

/-- What the server does to a file and to those behind it: the log grows at its end. -/
theorem serverStep_split {a : ServerAct} (hs : serverStep d a = some d') (hd : d.files = older ++ f :: rest) :
    ∃ events rest' new, d'.files = older ++ ⟨f.name, f.events ++ events⟩ :: rest' ∧
      events.map .event ++ itemsOf rest' = itemsOf rest ++ new ∧ itemsOf d'.files = itemsOf d.files ++ new := by
  have hself : (⟨f.name, f.events ++ []⟩ : LogFile) = f := by rw [List.append_nil]
  obtain ⟨e, rfl, -, rfl⟩ | ⟨name, rfl, -, rfl⟩ | ⟨rfl, -, rfl⟩ := serverStep_cases hs
  · have hitems : itemsOf (d.closed ++ [⟨d.current.name, d.current.events ++ [e]⟩]) =
        itemsOf d.files ++ [.event e] := by
      rw [Disk.files, itemsOf_append, itemsOf_append, itemsOf_cons, itemsOf_cons, List.map_append]
      simp [itemsOf]
    rcases List.eq_nil_or_concat rest with rfl | ⟨behind, last, rfl⟩
    · obtain ⟨rfl, hlast⟩ := List.append_inj' hd rfl
      obtain rfl := List.singleton_inj.mp hlast
      exact ⟨[e], [], [.event e], rfl, rfl, hitems⟩
    · rw [List.concat_eq_append, ← List.cons_append, ← List.append_assoc] at hd
      obtain ⟨hclosed, hlast⟩ := List.append_inj' hd rfl
      obtain rfl := List.singleton_inj.mp hlast
      refine ⟨[], behind ++ [⟨d.current.name, d.current.events ++ [e]⟩], [.event e], ?_, ?_, hitems⟩
      · rw [hself]
        change d.closed ++ _ = _
        rw [hclosed, List.append_assoc, List.cons_append]
      · rw [List.concat_eq_append, itemsOf_append, itemsOf_append, itemsOf_cons, itemsOf_cons, List.map_append]
        simp [itemsOf]
  · refine ⟨[], rest ++ [⟨name, []⟩], [.file name name.num], ?_, ?_, itemsOf_append d.files _⟩
    swap
    · rw [List.map_nil, List.nil_append, itemsOf_append]
      rfl
    rw [hself]
    change d.files ++ _ = _
    rw [hd, List.append_assoc, List.cons_append]
  · exact ⟨[], rest, [], by rw [hself]; exact hd, (List.append_nil _).symm, (List.append_nil _).symm⟩

theorem Disk.Sorted.split (h : d.Sorted) (hd : d.files = older ++ f :: rest) :
    (∀ g ∈ older, g.name.num < f.name.num) ∧ ∀ g ∈ rest, f.name.num < g.name.num := by
  rw [Disk.Sorted, hd, List.map_append, List.pairwise_append, List.map_cons, List.pairwise_cons] at h
  obtain ⟨-, ⟨hrest, -⟩, holder⟩ := h
  exact ⟨fun g hg => holder _ (List.mem_map_of_mem hg) _ List.mem_cons_self,
    fun g hg => hrest _ (List.mem_map_of_mem hg)⟩

theorem Disk.Sorted.file (h : d.Sorted) (hd : d.files = older ++ f :: rest) : d.file f.name = some f := by
  rw [Disk.file, hd, List.find?_append, List.find?_eq_none.mpr fun g hg => ?_]
  · simp
  · have hlt := (h.split hd).1 g hg
    simp only [decide_eq_true_eq]
    rintro heq
    rw [heq] at hlt
    exact absurd hlt (UInt32.lt_irrefl _)

theorem rsHasNextBinlog_next {rd' : RsReqdumpData} (h : d.Sorted) (hd : d.files = older ++ f :: rest)
    (hnum : rd.dumpNum = f.name.num) (hnext : rsHasNextBinlog d.index rd = some rd') :
    ∃ g rest', rest = g :: rest' ∧
      rd' = { rd with dumpFile := g.name, dumpNum := g.name.num, dumpPos := 0 } := by
  obtain ⟨name, hfind, rfl⟩ := Option.map_eq_some_iff.mp hnext
  obtain ⟨holder, hrest⟩ := h.split hd
  rw [Disk.index, List.map_take, hd, List.map_append, List.take_append, List.find?_append,
    List.find?_eq_none.mpr fun g hg => ?_, Option.none_or] at hfind
  · generalize d.indexed - (older.map LogFile.name).length = n at hfind
    rw [List.map_cons] at hfind
    rcases n with _ | n
    · cases hfind
    · rw [List.take_succ_cons, List.find?_cons_of_neg (by simp [hnum])] at hfind
      cases rest with
      | nil => simp at hfind
      | cons g rest' =>
        rcases n with _ | n
        · cases hfind
        · have hlt := hrest g List.mem_cons_self
          rw [List.map_cons, List.take_succ_cons, List.find?_cons_of_pos (by simpa [hnum] using hlt)] at hfind
          obtain rfl := Option.some.inj hfind
          exact ⟨g, rest', rfl, rfl⟩
  · obtain ⟨x, hx, rfl⟩ := List.mem_map.mp (List.mem_of_mem_take hg)
    have hle := UInt32.le_of_lt (holder x hx)
    simpa [hnum] using hle

def Ran (start : RsReqdumpData) (skipped items behind : List Item) (t : Session) : Prop :=
  ∃ taken, items = skipped ++ (taken ++ behind) ∧ exec sessionStep ⟨start, false⟩ taken = some t

theorem Ran.step {i : Item} {items behind : List Item} (h : Ran start skipped items (i :: behind) t)
    (hs : sessionStep t i = some t') : Ran start skipped items behind t' := by
  obtain ⟨taken, hitems, hrun⟩ := h
  refine ⟨taken ++ [i], by rw [hitems, List.append_assoc]; rfl, exec_append_eq_some.mpr ⟨t, hrun, ?_⟩⟩
  rw [exec_cons, hs]
  rfl

theorem Ran.idle {items behind : List Item} (hstart : start.Idle) (h : Ran start skipped items behind t) :
    t.rd.Idle := by
  obtain ⟨taken, -, hrun⟩ := h
  exact Reached.idle hstart ⟨taken, hrun⟩

theorem sessionStep_ring {i : Item} (ht : t.rd.Idle) (hs : sessionStep t i = some t') : t.rd.ring <+: t'.rd.ring := by
  cases i with
  | event e =>
    obtain ⟨-, he⟩ := sessionStep_event ht hs
    rcases he.ring with ⟨m, -, -, -, hring⟩ | ⟨-, hring | ⟨hring, -⟩⟩
    · exact ⟨[m], hring.symm⟩
    · exact hring ▸ List.prefix_rfl
    · exact ⟨_, hring.symm⟩
  | file name num =>
    obtain rfl := Option.some.inj hs
    exact List.prefix_rfl

theorem ring_of_run {items : List Item} (ht : t.rd.Idle) (hrun : exec sessionStep t items = some t') :
    t.rd.ring <+: t'.rd.ring := by
  induction items generalizing t with
  | nil =>
    obtain rfl := Option.some.inj hrun
    exact List.prefix_rfl
  | cons i is ih =>
    obtain ⟨c, hc, hrest⟩ := Option.bind_eq_some_iff.mp hrun
    exact (sessionStep_ring ht hc).trans (ih (sessionStep_idle ht hc) hrest)

/-- Where the session is, by phase: `P after t` says that it is `t` with these events of the file
to come. -/
def PhaseReads (P : List Event → Session → Prop) (f : LogFile) (s : Reader) : ReadPhase → Prop
  | .opening => ∃ after, Placed f s.opened s.heads s.rd.behindMagic.dumpPos.toNat after ∧
      P after ⟨s.rd.behindMagic, false⟩
  | .top | .reading .header _ | .scanning .header _ =>
      ∃ after, Placed f s.opened s.heads s.rd.dumpPos.toNat after ∧ P after ⟨s.rd, false⟩
  | .reading (.body h) _ => ∃ rd e after before, Taking f s rd e after before ∧ P (e :: after) ⟨rd, false⟩ ∧
      e.handler = some h ∧ handlerStart h (rsBinlogHeaderHandler rd e.head) = .read s.rd
  | .scanning (.body _) _ => False
  | .waiting => ∃ after, Placed f s.opened s.heads s.rd.dumpPos.toNat after ∧ P after ⟨s.rd, true⟩
  | .finished => ∃ after t, P after t ∧ s.rd.ring = t.rd.ring

structure InFile (P : List Event → Session → Prop) (f : LogFile) (s : Reader) : Prop where
  name : s.rd.dumpFile = f.name
  phase : PhaseReads P f s s.phase

theorem Placed.unique {opened pos pos' : ℕ} {heads : List (List UInt8)} {after' : List Event}
    (h : Placed f opened heads pos after) (h' : Placed f opened heads pos' after') :
    pos = pos' ∧ after = after' := by
  obtain ⟨pre, read, hevents, hopened, hheads, rfl⟩ := h
  obtain ⟨pre', read', hevents', hopened', hheads', rfl⟩ := h'
  have hread : read.length = read'.length := by
    have hlen := congrArg List.length (hheads.symm.trans hheads')
    rwa [List.length_map, List.length_map] at hlen
  -- two beginnings of the file with as many bytes are the same
  have hshort {x y : List Event} (hx : x <+: y) (hlen : (y.flatMap Event.bytes).length =
      (x.flatMap Event.bytes).length) :
      x = y := by
    obtain ⟨z, rfl⟩ := hx
    rw [List.flatMap_append, List.length_append] at hlen
    rw [flatMap_bytes_eq_nil.mp (List.length_eq_zero_iff.mp (show (z.flatMap Event.bytes).length = 0 by omega)),
      List.append_nil]
  have hbytes : (pre.flatMap Event.bytes).length = (pre'.flatMap Event.bytes).length := by omega
  obtain rfl : pre = pre' := by
    have hpre : pre <+: f.events := hevents ▸ List.prefix_append _ _
    have hpre' : pre' <+: f.events := hevents' ▸ List.prefix_append _ _
    rcases List.prefix_or_prefix_of_prefix hpre hpre' with hle | hle
    · exact hshort hle hbytes.symm
    · exact (hshort hle hbytes).symm
  obtain ⟨rfl, hafter⟩ := List.append_inj (List.append_cancel_left (hevents.symm.trans hevents')) hread
  exact ⟨rfl, hafter⟩

theorem handlerStart_ring {x : RsReqdumpData} (hs : handlerStart h x = .read r) : r.ring = x.ring := by
  have hstarted := handlerStart_started h x
  rw [hs] at hstarted
  cases hstarted
  rfl

section inFile
variable {P : List Event → Session → Prop}

theorem InFile.ring (h : InFile P f s) : InFile (fun after t => P after t ∧ t.rd.ring = s.rd.ring) f s := by
  refine ⟨h.name, ?_⟩
  have hphase := h.phase
  cases hp : s.phase with
  | opening | top | waiting =>
    rw [hp] at hphase
    obtain ⟨after, hplaced, hran⟩ := hphase
    exact ⟨after, hplaced, hran, rfl⟩
  | reading p copied =>
    rw [hp] at hphase
    cases p with
    | header =>
      obtain ⟨after, hplaced, hran⟩ := hphase
      exact ⟨after, hplaced, hran, rfl⟩
    | body h =>
      obtain ⟨rd, e, after, before, ht, hran, hh, hread⟩ := hphase
      exact ⟨rd, e, after, before, ht, ⟨hran, (handlerStart_ring hread).symm⟩, hh, hread⟩
  | scanning p copied =>
    rw [hp] at hphase
    cases p with
    | header =>
      obtain ⟨after, hplaced, hran⟩ := hphase
      exact ⟨after, hplaced, hran, rfl⟩
    | body h => exact hphase
  | finished =>
    rw [hp] at hphase
    obtain ⟨after, t, hran, hring⟩ := hphase
    exact ⟨after, t, ⟨hran, hring.symm⟩, hring⟩

theorem InFile.session (h : InFile P f s) : ∃ after t, P after t ∧ (s.phase = .top → t = ⟨s.rd, false⟩) := by
  have hphase := h.phase
  cases hp : s.phase with
  | opening | top | waiting =>
    rw [hp] at hphase
    obtain ⟨after, -, hran⟩ := hphase
    exact ⟨after, _, hran, by simp⟩
  | reading p copied =>
    rw [hp] at hphase
    cases p with
    | header =>
      obtain ⟨after, -, hran⟩ := hphase
      exact ⟨after, _, hran, by simp⟩
    | body h =>
      obtain ⟨rd, e, after, before, -, hran, -⟩ := hphase
      exact ⟨e :: after, _, hran, by simp⟩
  | scanning p copied =>
    rw [hp] at hphase
    cases p with
    | header =>
      obtain ⟨after, -, hran⟩ := hphase
      exact ⟨after, _, hran, by simp⟩
    | body h => exact hphase.elim
  | finished =>
    rw [hp] at hphase
    obtain ⟨after, t, hran, -⟩ := hphase
    exact ⟨after, t, hran, by simp⟩

theorem InFile.grow {Q : List Event → Session → Prop} (events : List Event) (h : InFile P f s)
    (hPQ : ∀ after t, P after t → Q (after ++ events) t) (grown : Bool) :
    InFile Q ⟨f.name, f.events ++ events⟩ { s with grown := grown } := by
  refine ⟨h.name, ?_⟩
  have hphase := h.phase
  change PhaseReads Q _ { s with grown := grown } s.phase
  cases hp : s.phase with
  | opening | top | waiting =>
    rw [hp] at hphase
    obtain ⟨after, hplaced, hran⟩ := hphase
    exact ⟨after ++ events, hplaced.grow events, hPQ after _ hran⟩
  | reading p copied =>
    rw [hp] at hphase
    cases p with
    | header =>
      obtain ⟨after, hplaced, hran⟩ := hphase
      exact ⟨after ++ events, hplaced.grow events, hPQ after _ hran⟩
    | body h =>
      obtain ⟨rd, e, after, before, ht, hran, hrest⟩ := hphase
      exact ⟨rd, e, after ++ events, before, ⟨ht.name, ht.placed.grow events, ht.heads_eq⟩,
          hPQ (e :: after) _ hran, hrest⟩
  | scanning p copied =>
    rw [hp] at hphase
    cases p with
    | header =>
      obtain ⟨after, hplaced, hran⟩ := hphase
      exact ⟨after ++ events, hplaced.grow events, hPQ after _ hran⟩
    | body h => exact hphase.elim
  | finished =>
    rw [hp] at hphase
    obtain ⟨after, t, hran, hring⟩ := hphase
    exact ⟨after ++ events, t, hPQ after t hran, hring⟩

theorem InFile.mono {Q : List Event → Session → Prop} (h : InFile P f s) (hPQ : ∀ after t, P after t → Q after t) :
    InFile Q f s := by
  have hgrow := h.grow [] (fun after t hran => by rw [List.append_nil]; exact hPQ after t hran) s.grown
  rwa [List.append_nil] at hgrow

variable (hP : ∀ e after t t', P (e :: after) t → sessionStep t (.event e) = some t' → P after t')
  (hI : ∀ after t, P after t → t.rd.Idle)
include hP hI

theorem finish_inFile (hlt : f.bytes.length < 2 ^ 32) (ht : Taking f s rd e after before)
    (hran : P (e :: after) ⟨rd, false⟩) (hh : e.handler = some h) (hret : Returned rd e h code r)
    (hs : s.finish (code, r) = some u) : InFile P f u := by
  have hidle : rd.Idle := hI _ _ hran
  obtain ⟨rfl, he, hturn⟩ := hret.effect hh
  obtain ⟨hmev, hflush⟩ := he.clear (hidle.header e.head)
  obtain ⟨k, pos, hfin, -⟩ := rsBinlogFinishHandler_eq hmev hflush
  have hnext : sessionStep ⟨rd, false⟩ (.event e) = some ⟨r.finished k pos, false⟩ := by
    change (turn rd e).bind Turn.session = _
    rw [hturn, finishTurn, if_pos rfl, hfin]
    rfl
  have hpos : r.dumpPos.toNat = rd.dumpPos.toNat + e.bytes.length := by
    rw [he.kept.1, header_dumpPos]
    exact ht.dumpPos hlt
  have hplaced := ht.next
  rw [← hpos] at hplaced
  obtain rfl := Option.some.inj ((Reader.finish_ok hfin).symm.trans hs)
  refine ⟨he.kept.2.1.trans ht.name, after, ?_, hP _ _ _ _ hran hnext⟩
  obtain ⟨hopened, hheads⟩ := seekSkip_ghost { s with rd := r }
  change Placed f (if r.binlogInfo.skip then _ else s).opened (if r.binlogInfo.skip then _ else s).heads
    r.dumpPos.toNat after
  split_ifs
  · rw [hopened, hheads]
    exact hplaced
  · exact hplaced

theorem afterBody_inFile {eof : Eof} (hlt : f.bytes.length < 2 ^ 32) (ht : Taking f s rd e after before)
    (hran : P (e :: after) ⟨rd, false⟩) (hh : e.handler = some h)
    (hread : handlerStart h (rsBinlogHeaderHandler rd e.head) = .read s.rd)
    (heof : EofOk f.bytes (rd.dumpPos.toNat + rsBinlogEventHeaderLen) e.body.length s.offset eof)
    (hs : s.afterBody h eof = some u) : InFile P f u := by
  cases eof with
  | loop copied b =>
    obtain rfl := Option.some.inj hs
    exact ⟨(handlerStart_read hread).2.2.trans ht.name, rd, e, after, before,
      ⟨ht.name, ht.placed, ht.heads_eq⟩, hran, hh, hread⟩
  | ret data b =>
    obtain ⟨hdata, -, -⟩ := heof
    obtain ⟨-, hbody⟩ := ht.placed.event
    obtain rfl : data = e.body := hdata.trans hbody
    obtain ⟨⟨code, r⟩, hret, hs⟩ := Option.bind_eq_some_iff.mp hs
    exact finish_inFile hP hI (s := { s with ioBuf := b }) hlt ⟨ht.name, ht.placed, ht.heads_eq⟩ hran hh
      (Or.inr ⟨_, hread, hret⟩) hs

theorem start_inFile (hlt : f.bytes.length < 2 ^ 32) (ht : Taking f s rd e after before)
    (hran : P (e :: after) ⟨rd, false⟩) (hh : e.handler = some h) (hrd : s.rd = rsBinlogHeaderHandler rd e.head)
    (hbuf : Buffered f.bytes (rd.dumpPos.toNat + rsBinlogEventHeaderLen) s.ioBuf.bytes s.offset)
    (hs : s.start h = some u) : InFile P f u := by
  unfold Reader.start at hs
  cases hx : handlerStart h s.rd with
  | ret code r =>
    rw [hx] at hs
    rw [hrd] at hx
    exact finish_inFile hP hI hlt ht hran hh (Or.inl hx) hs
  | read r =>
    rw [hx] at hs
    have hdl : r.binlogInfo.dl.toNat = e.body.length := by
      rw [(handlerStart_read hx).2.1, hrd, header_dl]
    rw [hrd] at hx
    refine afterBody_inFile hP hI (s := { s with rd := r }) hlt ⟨ht.name, ht.placed, ht.heads_eq⟩ hran hh hx ?_ hs
    rw [hdl]
    exact rsEofReadBinlog2_ok hbuf _
  | wait r =>
    rw [hx] at hs
    obtain ⟨rfl, rfl, hid⟩ := handlerStart_wait hx
    obtain rfl := Option.some.inj hs
    have hplaced := ht.next
    rw [← ht.dumpPos hlt, ← header_dumpPos, ← hrd] at hplaced
    refine ⟨(congrArg RsReqdumpData.dumpFile hrd).trans ht.name, after, hplaced, hP _ _ _ _ hran ?_⟩
    change (turn rd e).bind Turn.session = _
    rw [turn, hh]
    change (runHandler .stop _ _).bind Turn.session = _
    rw [runHandler, ← hrd, hx]
    rfl

theorem afterHeader_inFile {eof : Eof} (hlt : f.bytes.length < 2 ^ 32) (hname : s.rd.dumpFile = f.name)
    (hp : Placed f s.opened s.heads s.rd.dumpPos.toNat after) (hran : P after ⟨s.rd, false⟩)
    (heof : EofOk f.bytes s.rd.dumpPos.toNat rsBinlogEventHeaderLen s.offset eof)
    (hs : s.afterHeader eof = some u) : InFile P f u := by
  cases eof with
  | loop copied b =>
    obtain rfl := Option.some.inj hs
    exact ⟨hname, after, hp, hran⟩
  | ret eh b =>
    obtain ⟨heh, hlen, hbuf⟩ := heof
    obtain ⟨e, rest, rfl, hhead⟩ := hp.header (by rw [← heh, hlen])
    obtain rfl : eh = e.head := heh.trans hhead
    let v : Reader := { s with
      rd := rsBinlogHeaderHandler s.rd e.head, ioBuf := b, heads := s.heads ++ [e.head] }
    have ht : Taking f v s.rd e rest s.heads := ⟨hname, hp, rfl⟩
    have hfuncs : rsBinlogFuncs (eventIdx (rsBinlogHeaderHandler s.rd e.head).binlogInfo.t) = e.handler := rfl
    rw [Reader.afterHeader, hfuncs] at hs
    cases hh : e.handler with
    | none =>
      rw [hh] at hs
      obtain rfl := Option.some.inj hs
      have hpos := ht.dumpPos hlt
      rw [← header_dumpPos] at hpos
      have hne : v.rd.dumpPos ≠ 0 := fun h0 => by
        have hlen := e.length_bytes
        change (rsBinlogHeaderHandler s.rd e.head).dumpPos = 0 at h0
        rw [h0] at hpos
        change 0 = _ at hpos
        rw [rsBinlogEventHeaderLen] at hlen
        omega
      have hmagic : v.rd.behindMagic = v.rd := by
        rw [RsReqdumpData.behindMagic, if_neg hne]
      refine ⟨hname, rest, ?_, ?_⟩
      · change Placed f v.opened v.heads v.rd.behindMagic.dumpPos.toNat rest
        rw [hmagic]
        exact hpos ▸ ht.next
      · change P rest ⟨v.rd.behindMagic, false⟩
        rw [hmagic]
        refine hP _ _ _ _ hran ?_
        change (turn s.rd e).bind Turn.session = _
        rw [turn, hh]
        rfl
    | some h =>
      rw [hh] at hs
      exact start_inFile hP hI hlt ht hran hh rfl hbuf hs

theorem InFile.gets {q : Part} {copied : List UInt8} {n : ℕ} (hlt : f.bytes.length < 2 ^ 32)
    (hfollows : Follows start f s) (h : InFile P f s) (hp : s.phase = .reading q copied)
    (hle : s.offset + n ≤ f.bytes.length)
    (hs : Reader.after { s with offset := s.offset + n } q
      (rsEofReadBinlog2Fread (s.want q) copied s.ioBuf ((f.bytes.drop s.offset).take n)) =
          some u) : InFile P f u := by
  have hphase := h.phase
  have hbufs := hfollows.phase
  rw [hp] at hphase hbufs
  cases q with
  | header =>
    obtain ⟨after, hplaced, hran⟩ := hphase
    exact afterHeader_inFile hP hI (s := { s with offset := s.offset + n }) hlt h.name hplaced hran
      (rsEofReadBinlog2Fread_ok hbufs.2.1 hle) hs
  | body h =>
    obtain ⟨rd, e, after, before, ht, hran, hh, hread⟩ := hphase
    obtain ⟨rd', e', after', before', ht', -, -, -, hcall⟩ := hbufs
    -- both speak of the same event
    have hheads := ht.heads_eq.symm.trans ht'.heads_eq
    obtain ⟨rfl, -⟩ := List.append_inj' hheads rfl
    obtain ⟨hpos, hafter⟩ := ht.placed.unique ht'.placed
    obtain ⟨rfl, -⟩ := List.cons.inj hafter
    refine afterBody_inFile hP hI (s := { s with offset := s.offset + n })
      hlt ⟨ht.name, ht.placed, ht.heads_eq⟩ hran hh hread ?_ hs
    have hwant : s.want (.body h) = e.body.length := by
      change s.rd.binlogInfo.dl.toNat = _
      rw [(handlerStart_read hread).2.1, header_dl]
    rw [hwant, hpos]
    exact rsEofReadBinlog2Fread_ok hcall hle

theorem InFile.stays {a : ReaderAct} (hlt : f.bytes.length < 2 ^ 32) (hfollows : Follows start f s) (h : InFile P f s)
    (hs : ReaderStays d f s a u) : InFile P f u := by
  have hphase := h.phase
  cases hs with
  | opens hp =>
    rw [hp] at hphase
    exact ⟨h.name, hphase⟩
  | calls hp hs =>
    have hbufs := hfollows.phase
    rw [hp] at hphase hbufs
    obtain ⟨after, hplaced, hran⟩ := hphase
    exact afterHeader_inFile hP hI hlt h.name hplaced hran (rsEofReadBinlog2_ok hbufs.2.1 _) hs
  | @ends p copied hp hend =>
    rw [hp] at hphase
    cases p with
    | header => exact ⟨h.name, hphase⟩
    | body => exact (hfollows.scanning hp hend).phase.elim
  | gets hp hle hs => exact h.gets hP hI hlt hfollows hp hle hs
  | @resumes p copied hp =>
    rw [hp] at hphase
    cases p with
    | header => exact ⟨h.name, hphase⟩
    | body => exact hphase.elim
  | waits => exact h
  | fails =>
    obtain ⟨after, t, ⟨hran, hring⟩, -⟩ := h.ring.session
    exact ⟨h.name, after, t, hran, hring.symm⟩

end inFile

theorem Ran.grow {items behind : List Item} (h : Ran start skipped items behind t) (new : List Item) :
    Ran start skipped (items ++ new) (behind ++ new) t := by
  obtain ⟨taken, hitems, hrun⟩ := h
  exact ⟨taken, by rw [hitems, List.append_assoc, List.append_assoc], hrun⟩

theorem num_of_run {items : List Item} {a b : Session} (ha : a.rd.Idle) (hnum : a.rd.dumpNum = a.rd.dumpFile.num)
    (hitems : ∀ name num, Item.file name num ∈ items → num = name.num) (hrun : exec sessionStep a items = some b) :
    b.rd.dumpNum = b.rd.dumpFile.num := by
  induction items generalizing a with
  | nil =>
    obtain rfl := Option.some.inj hrun
    exact hnum
  | cons i is ih =>
    obtain ⟨c, hc, hrest⟩ := Option.bind_eq_some_iff.mp hrun
    refine ih (sessionStep_idle ha hc) ?_ (fun name num hi => hitems name num (List.mem_cons_of_mem _ hi)) hrest
    cases i with
    | event e =>
      obtain ⟨-, he⟩ := sessionStep_event ha hc
      rw [he.kept.1, he.kept.2.1, hnum]
    | file name num =>
      obtain rfl := Option.some.inj hc
      exact hitems name num List.mem_cons_self

theorem itemsOf_num {name : DumpFile} {num : UInt32} (h : Item.file name num ∈ itemsOf files) : num = name.num := by
  obtain ⟨f, -, hf⟩ := List.mem_flatMap.mp h
  rcases List.mem_cons.mp hf with heq | hmem
  · cases heq
    rfl
  · obtain ⟨e, -, he⟩ := List.mem_map.mp hmem
    cases he

/-- The session is in one of the files, and has taken all items from its start up to there. -/
structure System.Reads (start : RsReqdumpData) (skipped : List Item) (s : System) : Prop where
  sorted : s.disk.Sorted
  split : ∃ older f rest, s.disk.files = older ++ f :: rest ∧
    InFile (fun after => Ran start skipped (itemsOf s.disk.files) (after.map .event ++ itemsOf rest)) f s.reader

theorem inFile_next {rd' : RsReqdumpData} {w : Bool} (hd : d.Sorted) (hstart : start.Idle)
    (hnum : start.dumpNum = start.dumpFile.num) (hfiles : d.files = older ++ f :: rest)
        (hname : s.rd.dumpFile = f.name)
    (hran : Ran start skipped (itemsOf d.files) (itemsOf rest) ⟨s.rd, w⟩)
    (hnext : rsHasNextBinlog d.index s.rd = some rd') :
    ∃ g rest', rest = g :: rest' ∧
      InFile (fun after => Ran start skipped (itemsOf d.files) (after.map .event ++ itemsOf rest')) g
        ({ s with rd := rd', opened := rsBinlogMagicNumLen, heads := [] }.leave .hasBinlog) := by
  have hfile : s.rd.dumpNum = f.name.num := by
    obtain ⟨taken, hitems, hrun⟩ := hran
    have hitem (name : DumpFile) (num : UInt32) (hi : Item.file name num ∈ taken) : num = name.num := by
      refine @itemsOf_num d.files name num ?_
      rw [hitems]
      exact List.mem_append_right _ (List.mem_append_left _ hi)
    have hnums := num_of_run (a := ⟨start, false⟩) hstart hnum hitem hrun
    rw [← hname]
    exact hnums
  obtain ⟨g, rest', rfl, rfl⟩ := rsHasNextBinlog_next hd hfiles hfile hnext
  rw [itemsOf_cons] at hran
  exact ⟨g, rest', rfl, rfl, g.events, .start g, hran.step rfl⟩

/-- A thread that looks for the next file, with all events of its own taken. -/
theorem InFile.atEnd {P : List Event → Session → Prop} (h : InFile P f s) (hp : s.phase.Scans)
    (hend : Placed f s.opened s.heads s.rd.dumpPos.toNat []) : ∃ w, P [] ⟨s.rd, w⟩ := by
  have hphase := h.phase
  rcases hp with hp | ⟨p, copied, hp⟩
  · rw [hp] at hphase
    obtain ⟨after, hplaced, hran⟩ := hphase
    obtain rfl := hplaced.last hend
    exact ⟨true, hran⟩
  · rw [hp] at hphase
    cases p with
    | header =>
      obtain ⟨after, hplaced, hran⟩ := hphase
      obtain rfl := hplaced.last hend
      exact ⟨false, hran⟩
    | body => exact hphase.elim

theorem System.Reads.step {s t : System} {a : Act} (hstart : start.Idle) (hnum : start.dumpNum = start.dumpFile.num)
    (hinv : s.Inv start) (h : s.Reads start skipped) (hall : s.Switches a → s.AllTaken)
    (hs : systemStep s a = some t) : t.Reads start skipped := by
  obtain ⟨d, s⟩ := s
  obtain ⟨hsorted, older, f, rest, hfiles, hin⟩ := h
  replace hsorted : d.Sorted := hsorted
  replace hfiles : d.files = older ++ f :: rest := hfiles
  replace hin : InFile (fun after => Ran start skipped (itemsOf d.files)
      (after.map .event ++ itemsOf rest)) f s := hin
  have hfile : d.file s.rd.dumpFile = some f := by
    rw [hin.name]
    exact hsorted.file hfiles
  cases a with
  | server b =>
    obtain ⟨d', hd', rfl⟩ := Option.map_eq_some_iff.mp hs
    replace hd' : serverStep d b = some d' := hd'
    obtain ⟨events, rest', new, hfiles', hbehind, hitems⟩ := serverStep_split hd' hfiles
    refine ⟨hsorted.step hd', older, _, rest', hfiles', hin.grow events (fun after x hran => ?_) _⟩
    dsimp only
    rw [hitems, List.map_append, List.append_assoc, hbehind, ← List.append_assoc]
    exact hran.grow new
  | reader b =>
    obtain ⟨u, hu, rfl⟩ := Option.map_eq_some_iff.mp hs
    replace hu : readerStep d s b = some u := hu
    have hP (e : Event) (after : List Event) (x x' : Session)
        (hran : Ran start skipped (itemsOf d.files) ((e :: after).map .event ++ itemsOf rest) x)
        (hx : sessionStep x (.event e) = some x') :
        Ran start skipped (itemsOf d.files) (after.map .event ++ itemsOf rest) x' := hran.step hx
    obtain ⟨g, hg, hfollows⟩ := hinv.follows
    obtain rfl := Option.some.inj (hg.symm.trans hfile)
    rcases readerStep_cases hfile hu with hstays | ⟨rfl, hp, rd', hnext, rfl⟩
    · exact ⟨hsorted, older, _, rest, hfiles, hin.stays hP (fun _ _ h => h.idle hstart)
        (hinv.small _ (Disk.file_spec hg).1) hfollows hstays⟩
    · -- the thread changes files
      obtain ⟨g', hg', hend⟩ := hall ⟨rfl, by rw [hnext]; simp⟩
      obtain rfl := Option.some.inj (hfile.symm.trans hg')
      obtain ⟨w, hran⟩ := hin.atEnd hp hend
      obtain ⟨g, rest', rfl, hin'⟩ := inFile_next hsorted hstart hnum hfiles hin.name hran hnext
      exact ⟨hsorted, older ++ [_], g, rest', by rw [List.append_assoc]; exact hfiles, hin'⟩

theorem System.Reads.ring_step {s t : System} {a : Act} (hstart : start.Idle) (hinv : s.Inv start)
    (h : s.Reads start skipped) (hs : systemStep s a = some t) : s.reader.rd.ring <+: t.reader.rd.ring := by
  obtain ⟨d, s⟩ := s
  obtain ⟨hsorted, older, f, rest, hfiles, hin⟩ := h
  have hfile : d.file s.rd.dumpFile = some f := by
    rw [hin.name]
    exact hsorted.file hfiles
  cases a with
  | server b =>
    obtain ⟨d', -, rfl⟩ := Option.map_eq_some_iff.mp hs
    exact List.prefix_rfl
  | reader b =>
    obtain ⟨u, hu, rfl⟩ := Option.map_eq_some_iff.mp hs
    replace hu : readerStep d s b = some u := hu
    obtain ⟨g, hg, hfollows⟩ := hinv.follows
    obtain rfl := Option.some.inj (hg.symm.trans hfile)
    rcases readerStep_cases hfile hu with hstays | ⟨-, -, rd', hnext, rfl⟩
    · have hstay : InFile (fun _ t => t.rd.Idle ∧ s.rd.ring <+: t.rd.ring) g s :=
        hin.ring.mono fun after t ht => ⟨ht.1.idle hstart, ht.2 ▸ List.prefix_rfl⟩
      have hend := hstay.stays (fun _ _ _ _ ht hx => ⟨sessionStep_idle ht.1 hx,
          ht.2.trans (sessionStep_ring ht.1 hx)⟩)
        (fun _ _ ht => ht.1) (hinv.small _ (Disk.file_spec hg).1) hfollows hstays
      obtain ⟨-, t, ⟨⟨-, hpre⟩, hring⟩, -⟩ := hend.ring.session
      exact hring ▸ hpre
    · obtain ⟨-, -, hrd⟩ := rsHasNextBinlog_spec hnext
      have hring : rd'.ring = s.rd.ring := by rw [hrd]
      exact hring ▸ List.prefix_rfl

theorem Disk.itemsOf_files (d : Disk) : itemsOf d.files = .file d.log.first d.log.num :: d.log.items := by
  rw [Disk.log, Disk.files]
  cases d.closed with
  | nil => rfl
  | cons f fs => rfl

theorem placeAt_skipped {behind : List Item} (hitems : itemsOf d.files = skipped ++ behind)
    (hne : skipped ≠ []) (p : Place) :
    d.log.placeAt (skipped.length - 1) = skipped.foldl Item.next p ∧ skipped.length - 1 ≤ d.log.items.length ∧
      d.log.items.drop (skipped.length - 1) = behind := by
  obtain ⟨i, is, rfl⟩ := List.exists_cons_of_ne_nil hne
  rw [d.itemsOf_files, List.cons_append] at hitems
  obtain ⟨rfl, htail⟩ := List.cons.inj hitems
  rw [Binlog.placeAt, htail, List.length_cons, Nat.add_sub_cancel, List.take_left, List.drop_left, List.length_append]
  exact ⟨rfl, Nat.le_add_right _ _, rfl⟩

theorem foldl_next_events (name : DumpFile) (n : ℕ) (events : List Event) :
    (events.map Item.event).foldl Item.next (name, n) = (name, n + (events.flatMap Event.bytes).length) := by
  induction events generalizing n with
  | nil => rfl
  | cons e es ih =>
    rw [List.map_cons, List.foldl_cons, List.flatMap_cons, List.length_append, ← Nat.add_assoc]
    exact ih (n + e.bytes.length)

theorem System.init_reads (ioSize id : UInt32) (tables : Option (List UInt8)) {pos : UInt32} {file : DumpFile}
    (hsorted : d.Sorted) (hf : d.file file = some f) (hpos : f.Boundary (startPos pos)) :
    ∃ skipped, skipped ≠ [] ∧ (∀ p, skipped.foldl Item.next p = (file, startPos pos)) ∧
      (System.init d ioSize file pos tables id).Reads (startSession file file.num pos tables id) skipped := by
  obtain ⟨hmem, rfl⟩ := Disk.file_spec hf
  obtain ⟨older, rest, hfiles⟩ := List.append_of_mem hmem
  obtain ⟨after, hplaced⟩ := hpos
  have hplaced' := hplaced
  obtain ⟨before, read, hevents, hopened, hheads, -⟩ := hplaced'
  obtain rfl : read = [] := List.map_eq_nil_iff.mp hheads.symm
  have hstart : startPos pos = (RsReqdumpData.behindMagic (Reader.init ioSize f.name pos tables id).rd).dumpPos.toNat := by
    change startPos pos = (if pos = 0 then UInt32.ofNat rsBinlogMagicNumLen else pos).toNat
    rw [startPos]
    split_ifs <;> rfl
  refine ⟨itemsOf older ++ .file f.name f.name.num :: before.map .event, by simp, fun p => ?_,
      hsorted, older, f, rest,
    hfiles, rfl, after, ?_, [], ?_, ?_⟩
  · rw [List.foldl_append, List.foldl_cons, hopened]
    exact foldl_next_events f.name rsBinlogMagicNumLen before
  · change Placed f (startPos pos) [] (Reader.init ioSize f.name pos tables id).rd.behindMagic.dumpPos.toNat after
    rw [← hstart]
    exact hplaced
  · change itemsOf d.files = _
    rw [hfiles, itemsOf_append, itemsOf_cons, hevents, List.map_append]
    simp
  · rfl

theorem System.reads_of_run {ioSize pos id : UInt32} {file : DumpFile} {tables : Option (List UInt8)} (hd : d.Small)
    (hsorted : d.Sorted) (hf : d.file file = some f) (hpos : f.Boundary (startPos pos)) {as : List Act} {s : System}
    (hrun : exec systemStep (.init d ioSize file pos tables id) as = some s) (hlast : s.disk.StopLast id)
    (hall : Along systemStep (fun s a => s.Switches a → ¬ s.Missed) (.init d ioSize file pos tables id) as) :
    ∃ skipped, skipped ≠ [] ∧ (∀ p, skipped.foldl Item.next p = (file, startPos pos)) ∧
      s.Reads (startSession file file.num pos tables id) skipped := by
  have hstart : (startSession file file.num pos tables id).Idle := ⟨rfl, rfl, rfl, rfl⟩
  obtain ⟨skipped, hne, hplace, hreads⟩ := System.init_reads ioSize id tables hsorted hf hpos
  have hall' := (along_congr (I := System.Inv (startSession file file.num pos tables id))
    (J := fun s => s.disk.StopLast id) (fun _ _ _ h hs => h.step hstart hs)
        (fun _ _ _ h hs => systemStep_stopLast hs h)
    (fun s a t hinv hlast hs => forall_congr' fun hsw => hinv.allTaken_iff hstart hlast hs hsw)
    (System.init_inv hd hf hpos) hrun hlast).2.mpr hall
  obtain ⟨-, h⟩ := exec_invariant_along (I := fun s =>
      System.Inv (startSession file file.num pos tables id) s ∧
        s.Reads (startSession file file.num pos tables id) skipped)
    (fun s a => s.Switches a → s.AllTaken) (fun s a t h hok hs =>
        ⟨h.1.step hstart hs, h.2.step hstart rfl h.1 hok hs⟩)
    ⟨System.init_inv hd hf hpos, hreads⟩ hall' hrun
  exact ⟨skipped, hne, hplace, h⟩

theorem fileNames_itemsOf (files : List LogFile) : fileNames (itemsOf files) = files.map LogFile.name := by
  induction files with
  | nil => rfl
  | cons f fs ih =>
    have hevents (events : List Event) : fileNames (events.map .event) = [] := by
      induction events with
      | nil => rfl
      | cons e es ih => exact ih
    rw [itemsOf_cons, fileNames, fileNames_append, hevents, ih, List.map_cons]
    rfl

theorem Disk.Sorted.names (h : d.Sorted) : (d.log.first :: fileNames d.log.items).Nodup := by
  have hnames : d.log.first :: fileNames d.log.items = d.files.map LogFile.name := by
    rw [← fileNames_itemsOf, d.itemsOf_files]
    rfl
  rw [hnames]
  refine h.imp fun hlt heq => ?_
  rw [heq] at hlt
  exact absurd hlt (UInt32.lt_irrefl _)

/-- The ring of the thread is the beginning of what a session puts in its ring from there. -/
theorem System.Reads.ring_prefix {s : System} {pos id num : UInt32} {file : DumpFile} {tables : Option (List UInt8)}
    {ms : List Message} (h : s.Reads (startSession file num pos tables id) skipped) (hne : skipped ≠ [])
    (hplace : ∀ p, skipped.foldl Item.next p = (file, startPos pos))
    (hms : s.disk.log.messagesFrom tables id num file pos = some ms) : s.reader.rd.ring <+: ms := by
  obtain ⟨older, f, rest, -, hin⟩ := h.split
  obtain ⟨after, t, ⟨⟨taken, hitems, htaken⟩, hring⟩, -⟩ := hin.ring.session
  obtain ⟨hat, -, hdrop⟩ := placeAt_skipped hitems hne (file, 0)
  have hstart : (startSession file num pos tables id).place = s.disk.log.placeAt (skipped.length - 1) := by
    rw [hat, hplace, startPos]
    change (file, (if pos = 0 then UInt32.ofNat rsBinlogMagicNumLen else pos).toNat) = _
    split_ifs <;> rfl
  rw [Binlog.messagesFrom, hstart, splitAt_placeAt h.sorted.names, Option.bind_some, hdrop] at hms
  obtain ⟨v, hv, rfl⟩ := Option.map_eq_some_iff.mp hms
  obtain ⟨t', ht', hrest⟩ := exec_append_eq_some.mp hv
  obtain rfl := Option.some.inj (htaken.symm.trans ht')
  rw [← hring]
  exact ring_of_run (Reached.idle (startSession_idle _ _ _ _ _) ⟨taken, htaken⟩) hrest

/-- Where no change of files misses an event, the thread has put in the ring what a session does that
takes the items of the log from the place that was asked for, whatever the server does meanwhile. -/
theorem reader_reads_log {ioSize pos id : UInt32} {file : DumpFile} {tables : Option (List UInt8)} (hd : d.Small)
    (hsorted : d.Sorted) (hf : d.file file = some f) (hpos : f.Boundary (startPos pos)) {as : List Act} {s : System}
    (hrun : exec systemStep (.init d ioSize file pos tables id) as = some s) (hlast : s.disk.StopLast id)
    (hall : Along systemStep (fun s a => s.Switches a → ¬ s.Missed) (.init d ioSize file pos tables id) as) :
    ∃ k taken behind t, k ≤ s.disk.log.items.length ∧ s.disk.log.placeAt k = (file, startPos pos) ∧
      s.disk.log.items.drop k = taken ++ behind ∧
      exec sessionStep ⟨startSession file file.num pos tables id, false⟩ taken = some t ∧
      s.reader.rd.ring = t.rd.ring ∧ (s.reader.phase = .top → t = ⟨s.reader.rd, false⟩) := by
  obtain ⟨skipped, hne, hplace, hreads⟩ := System.reads_of_run hd hsorted hf hpos hrun hlast hall
  obtain ⟨older, g, rest, -, hin⟩ := hreads.split
  obtain ⟨after, t, ⟨⟨taken, hitems, htaken⟩, hring⟩, htop⟩ := hin.ring.session
  obtain ⟨hat, hle, hdrop⟩ := placeAt_skipped hitems hne (file, 0)
  exact ⟨_, taken, _, t, hle, hat.trans (hplace _), hdrop, htaken, hring.symm, htop⟩

end MySQLSyncer.Master
