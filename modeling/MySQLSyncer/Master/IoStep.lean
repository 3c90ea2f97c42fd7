import MySQLSyncer.Master.IndexFile

/-! # The reading thread on any files

The contents of the files are bytes, which need not be events, and the index is a text. The files
that the thread opens are noted.
-/
namespace MySQLSyncer.Master
open Lib MySQLSyncer.Core

structure Host where
  file : DumpFile → Option (List UInt8)
  lines : List IndexLine

inductive HostAct where
  | write (name : DumpFile) (bytes : List UInt8)
  | list (l : IndexLine)

def hostStep (h : Host) : HostAct → Option Host
  | .write name bytes =>
    some { h with file := fun f => if f = name then some ((h.file f).getD [] ++ bytes) else h.file f }
  | .list l => if ∀ l' ∈ h.lines, l'.num < l.num then some { h with lines := h.lines ++ [l] } else none

def Reader.left (s : Reader) (h : Host) : List UInt8 := ((h.file s.rd.dumpFile).getD []).drop s.offset

/-- What comes behind a scan of the index: the next file, or the phase that `stay` gives. -/
def Reader.scanned (s : Reader) (stay : ReadPhase) : RsCode × RsReqdumpData → Reader
  | (.ok, rd) => { s with rd := rd, opened := rsBinlogMagicNumLen, heads := [] }.leave .hasBinlog
  | (.noBinlog, _) => { s with phase := stay }
  | _ => { s with phase := .finished }

/-- One step of `rs_start_io_thread`. -/
def ioThreadStep (h : Host) (s : Reader) : ReaderAct → Option Reader
  | .open =>
    if s.phase = .opening then
      match h.file s.rd.dumpFile with
      | none => some { s with phase := .finished }
      | some _ =>
        let pos := if s.rd.dumpPos = 0 then UInt32.ofNat rsBinlogMagicNumLen else s.rd.dumpPos
        some { s with rd := { s.rd with dumpPos := pos }, offset := pos.toNat, phase := .top }
    else none
  | .call =>
    if s.phase = .top then s.afterHeader (rsEofReadBinlog2 s.ioBuf rsBinlogEventHeaderLen) else none
  | .fread n =>
    match s.phase with
    | .reading p copied =>
      if n = 0 then
        if s.left h = [] then some { s with phase := .scanning p copied, grown := false } else none
      else if n ≤ s.ioBuf.size ∧ n ≤ (s.left h).length then
        { s with offset := s.offset + n }.after p
          (rsEofReadBinlog2Fread (s.want p) copied s.ioBuf ((s.left h).take n))
      else none
    | _ => none
  | .scan =>
    match s.phase with
    | .scanning p copied =>
      (rsHasNextBinlogFile (indexBytes h.lines) false s.rd).map (s.scanned (.reading p copied))
    | .waiting => (rsHasNextBinlogFile (indexBytes h.lines) false s.rd).map (s.scanned .waiting)
    | _ => none
  | .fail => if s.phase = .finished then none else some { s with phase := .finished }

def Eof.data : Eof → Option (List UInt8)
  | .ret data _ => some data
  | .loop _ _ => none

def Reader.header (s : Reader) (h : Host) : ReaderAct → Option (List UInt8)
  | .call => (rsEofReadBinlog2 s.ioBuf rsBinlogEventHeaderLen).data
  | .fread n =>
    match s.phase with
    | .reading .header copied =>
      (rsEofReadBinlog2Fread rsBinlogEventHeaderLen copied s.ioBuf ((s.left h).take n)).data
    | _ => none
  | _ => none

def SameFile (rd r : RsReqdumpData) : Prop := r.dumpFile = rd.dumpFile ∧ r.dumpNum = rd.dumpNum

def SamePlace (rd r : RsReqdumpData) : Prop := SameFile rd r ∧ r.dumpPos = rd.dumpPos

variable {h : Host} {rd r : RsReqdumpData} {s s' : Reader} {k : Handler} {code : RsCode} {data eh : List UInt8}

theorem SameFile.refl (rd : RsReqdumpData) : SameFile rd rd := ⟨rfl, rfl⟩

theorem SamePlace.refl (rd : RsReqdumpData) : SamePlace rd rd := ⟨SameFile.refl rd, rfl⟩

theorem SamePlace.trans {u : RsReqdumpData} (h1 : SamePlace rd r) (h2 : SamePlace r u) : SamePlace rd u :=
  ⟨⟨h2.1.1.trans h1.1.1, h2.1.2.trans h1.1.2⟩, h2.2.trans h1.2⟩

theorem createData_same (hs : rsBinlogCreateData rd data = some (code, r)) : code = .ok ∧ SamePlace rd r := by
  by_cases hskip : rd.binlogInfo.mev = 0 ∧ rd.binlogInfo.skipN % rsSkipDataFlushNum ≠ 0
  · rw [rsBinlogCreateData, if_pos hskip] at hs
    cases hs
    exact ⟨rfl, SamePlace.refl rd⟩
  · rw [rsBinlogCreateData, if_neg hskip] at hs
    obtain ⟨m, -, hs⟩ := Option.bind_eq_some_iff.mp hs
    cases hs
    exact ⟨rfl, SamePlace.refl rd⟩

theorem finishHandler_same (hs : rsBinlogFinishHandler rd = some (code, r)) : code = .ok ∧ SamePlace rd r := by
  unfold rsBinlogFinishHandler at hs
  by_cases hpub : rd.binlogInfo.publishes
  · rw [if_pos hpub] at hs
    obtain ⟨⟨code1, rd1⟩, hcreate, hs⟩ := Option.bind_eq_some_iff.mp hs
    obtain ⟨rfl, hsame⟩ := createData_same hcreate
    cases hs
    exact ⟨rfl, hsame⟩
  · rw [if_neg hpub] at hs
    cases hs
    exact ⟨rfl, SamePlace.refl rd⟩

theorem handlerStart_same : match handlerStart k rd with
    | .ret code r => code = .ok ∧ SamePlace rd r
    | .read r => SamePlace rd r
    | .wait r => r = rd := by
  have hstarted := handlerStart_started k rd
  generalize handlerStart k rd = x at hstarted
  cases hstarted with
  | passes => exact ⟨rfl, SamePlace.refl rd⟩
  | reads => exact SamePlace.refl rd
  | waits => rfl

theorem handlerBody_same (hs : handlerBody k rd data = some (code, r)) : code = .ok ∧ SamePlace rd r := by
  cases k with
  | skip => cases hs
  | stop => cases hs
  | query =>
    obtain ⟨rfl, q, db, sql, -, -, -, rfl⟩ := rsBinlogQueryBody_spec hs
    exact ⟨rfl, SamePlace.refl rd⟩
  | intvar =>
    obtain ⟨rfl, ⟨t, -, -, rfl⟩ | ⟨ai, -, -, rfl⟩⟩ := rsBinlogIntvarBody_spec hs
    · exact ⟨rfl, SamePlace.refl rd⟩
    · exact ⟨rfl, SamePlace.refl rd⟩
  | xid =>
    obtain ⟨rfl, id, -, rfl⟩ := rsBinlogXidBody_spec hs
    exact ⟨rfl, SamePlace.refl rd⟩
  | tableMap =>
    obtain ⟨rfl, d, db, tb, ct, cm, dbName, tbName, filter, -, -, -, -, -, -, -, -, rfl⟩ :=
      rsBinlogTableMapBody_spec hs
    exact ⟨rfl, SamePlace.refl rd⟩
  | rows mev =>
    set u : RsReqdumpData := { rd with binlogInfo := { rd.binlogInfo with logFormat := .rowBased, mev := mev } }
    have hcreate : rsBinlogCreateData u data = some (code, r) := hs
    obtain ⟨hcode, hsame⟩ := createData_same hcreate
    exact ⟨hcode, hsame⟩

/-- Behind a header, the thread is in the data part, in the loop of the stop handler, or back at the
top; nothing has moved the position. -/
structure Reader.GoesOn (s s' : Reader) : Prop where
  place : SamePlace s.rd s'.rd
  heads : s'.heads = s.heads
  phase : s'.phase = .top ∨ (∃ k copied, s'.phase = .reading (.body k) copied) ∨ s'.phase = .waiting

theorem seekSkip_kept (s : Reader) : s.seekSkip.rd = s.rd ∧ s.seekSkip.heads = s.heads := by
  unfold Reader.seekSkip
  dsimp only
  split_ifs
  · exact ⟨rfl, rfl⟩
  · exact ⟨rfl, rfl⟩

theorem finish_goesOn (hsame : code = .ok ∧ SamePlace s.rd r) (hs : s.finish (code, r) = some s') : s.GoesOn s' := by
  obtain ⟨rfl, hsame⟩ := hsame
  simp only [Reader.finish, if_true] at hs
  obtain ⟨⟨code', u⟩, hfinish, hs⟩ := Option.map_eq_some_iff.mp hs
  obtain ⟨rfl, hsame'⟩ := finishHandler_same hfinish
  simp only [if_true] at hs
  cases hs
  refine ⟨hsame.trans hsame', ?_, Or.inl rfl⟩
  dsimp only
  split_ifs
  · exact (seekSkip_kept _).2
  · rfl

theorem afterBody_goesOn {eof : Eof} (hs : s.afterBody k eof = some s') : s.GoesOn s' := by
  cases eof with
  | loop copied b =>
    cases hs
    exact ⟨SamePlace.refl s.rd, rfl, Or.inr (Or.inl ⟨k, copied, rfl⟩)⟩
  | ret data b =>
    obtain ⟨⟨code, r⟩, hbody, hs⟩ := Option.bind_eq_some_iff.mp hs
    have hgoes := finish_goesOn (s := { s with ioBuf := b }) (handlerBody_same hbody) hs
    exact ⟨hgoes.place, hgoes.heads, hgoes.phase⟩

theorem start_goesOn (hs : s.start k = some s') : s.GoesOn s' := by
  have hstart := @handlerStart_same s.rd k
  unfold Reader.start at hs
  cases hk : handlerStart k s.rd with
  | ret code r =>
    simp only [hk] at hs hstart
    exact finish_goesOn hstart hs
  | read r =>
    simp only [hk] at hs hstart
    have hgoes := afterBody_goesOn (s := { s with rd := r }) hs
    exact ⟨hstart.trans hgoes.place, hgoes.heads, hgoes.phase⟩
  | wait r =>
    simp only [hk] at hs hstart
    obtain rfl := hstart
    cases hs
    exact ⟨SamePlace.refl s.rd, rfl, Or.inr (Or.inr rfl)⟩

structure Reader.Stays (rd : RsReqdumpData) (s' : Reader) : Prop where
  same : SameFile rd s'.rd
  phase : s'.phase ≠ .opening

theorem Reader.GoesOn.stays (hgoes : s.GoesOn s') (hsame : SameFile rd s.rd) : Reader.Stays rd s' := by
  refine ⟨⟨hgoes.place.1.1.trans hsame.1, hgoes.place.1.2.trans hsame.2⟩, ?_⟩
  rcases hgoes.phase with hp | ⟨k, copied, hp⟩ | hp
  all_goals simp [hp]

def Known (eh : List UInt8) : Prop := rsBinlogFuncs (eventIdx (eh.getD 4 0)) ≠ none

def Reader.parsed (s : Reader) (eh : List UInt8) (b : RsBuf) : Reader :=
  { s with rd := rsBinlogHeaderHandler s.rd eh, ioBuf := b, heads := s.heads ++ [eh] }

/-- Behind a header the thread leaves the file or goes on, by whether the event is known. -/
theorem afterHeader_cases {b : RsBuf} (hs : s.afterHeader (.ret eh b) = some s') :
    ¬ Known eh ∧ s' = (s.parsed eh b).leave .ok ∨ Known eh ∧ (s.parsed eh b).GoesOn s' := by
  simp only [Reader.afterHeader] at hs
  have ht : (rsBinlogHeaderHandler s.rd eh).binlogInfo.t = eh.getD 4 0 := rfl
  rw [ht] at hs
  unfold Known
  cases hfunc : rsBinlogFuncs (eventIdx (eh.getD 4 0)) with
  | none =>
    simp only [hfunc] at hs
    exact Or.inl ⟨fun hne => hne rfl, (Option.some.inj hs).symm⟩
  | some k =>
    simp only [hfunc] at hs
    exact Or.inr ⟨nofun, start_goesOn hs⟩

theorem afterHeader_stays {eof : Eof} (hknown : ∀ eh, eof.data = some eh → Known eh)
    (hs : s.afterHeader eof = some s') : Reader.Stays s.rd s' := by
  cases eof with
  | loop copied b =>
    cases hs
    exact ⟨SameFile.refl s.rd, by simp⟩
  | ret eh b =>
    rcases afterHeader_cases hs with ⟨hk, -⟩ | ⟨-, hgoes⟩
    · exact absurd (hknown eh rfl) hk
    · exact hgoes.stays ⟨rfl, rfl⟩

/-- A step other than a scan stays in the file unless it meets an unknown event. -/
theorem ioThreadStep_stays {a : ReaderAct} (hscan : a ≠ .scan) (hknown : ∀ eh, s.header h a = some eh → Known eh)
    (hs : ioThreadStep h s a = some s') : Reader.Stays s.rd s' := by
  cases a with
  | scan => exact absurd rfl hscan
  | «open» =>
    simp only [ioThreadStep] at hs
    obtain ⟨-, hs⟩ := Option.ite_none_right_eq_some.mp hs
    cases hfile : h.file s.rd.dumpFile with
    | none =>
      simp only [hfile] at hs
      cases hs
      exact ⟨SameFile.refl s.rd, by simp⟩
    | some bytes =>
      simp only [hfile] at hs
      cases hs
      exact ⟨⟨rfl, rfl⟩, by simp⟩
  | fail =>
    simp only [ioThreadStep] at hs
    split_ifs at hs
    cases hs
    exact ⟨SameFile.refl s.rd, by simp⟩
  | call =>
    simp only [ioThreadStep] at hs
    split_ifs at hs
    exact afterHeader_stays hknown hs
  | fread n =>
    simp only [ioThreadStep] at hs
    cases hp : s.phase with
    | reading p copied =>
      simp only [hp] at hs
      split_ifs at hs with hn hleft hle
      · cases hs
        exact ⟨SameFile.refl s.rd, by simp⟩
      · cases p with
        | header =>
          refine afterHeader_stays (s := { s with offset := s.offset + n, phase := .reading .header copied })
            (fun eh heof => hknown eh ?_) hs
          simp only [Reader.header, hp]
          exact heof
        | body k =>
          have hgoes := afterBody_goesOn (s := { s with offset := s.offset + n,
                                                        phase := .reading (.body k) copied }) hs
          exact hgoes.stays (SameFile.refl s.rd)
    | _ => simp [hp] at hs

def Disk.host (d : Disk) (lines : List IndexLine) : Host :=
  ⟨fun name => (d.file name).map LogFile.bytes, lines⟩

variable {lines : List IndexLine} {l : IndexLine} {index : List DumpFile} {d : Disk}

theorem IndexLine.file_num {f : DumpFile} (hname : f.name = l.path) (hnum : l.num < 2 ^ 32) :
    f.num.toNat = l.num := by
  have hestr : rsEstrToUint32 l.path = UInt32.ofNat l.num := l.estr l.digits_isDigit
  rw [DumpFile.num, hname, hestr, UInt32.toNat_ofNat']
  omega

theorem DumpFile.eq_of_name {f g : DumpFile} (hname : f.name = g.name) : f = g := by
  cases f
  cases g
  simpa using hname

/-- The first name with a larger number belongs to the next line. -/
theorem find_next (hinc : Increasing lines) (hfits : ScanFits rd lines)
    (hindex : index.map DumpFile.name = lines.map IndexLine.path) :
    (∃ l f, index.find? (fun f => rd.dumpNum < f.num) = some f ∧ UpToNext rd lines l ∧
      rd.dumpNum.toNat < l.num ∧ f.name = l.path) ∨
    (index.find? (fun f => rd.dumpNum < f.num) = none ∧ ∀ l ∈ lines, l.num ≤ rd.dumpNum.toNat) := by
  induction lines generalizing index with
  | nil =>
    obtain rfl := List.map_eq_nil_iff.mp hindex
    exact Or.inr ⟨rfl, nofun⟩
  | cons l lines ih =>
    obtain ⟨f, index, rfl, hname, hindex⟩ := List.map_eq_cons_iff.mp hindex
    have hnum := IndexLine.file_num hname (hfits l hinc.upToNext).2
    by_cases hold : l.num ≤ rd.dumpNum.toNat
    · have hfits' : ScanFits rd lines := fun x hx => hfits x ((upToNext_cons_of_le hold).mpr (Or.inr hx))
      rw [List.find?_cons_of_neg (by simp only [UInt32.lt_iff_toNat_lt, hnum, decide_eq_true_eq]; omega)]
      rcases ih (increasing_cons.mp hinc).2 hfits' hindex with ⟨x, g, hfind, hx, hnew, hg⟩ | ⟨hnone, hall⟩
      · exact Or.inl ⟨x, g, hfind, (upToNext_cons_of_le hold).mpr (Or.inr hx), hnew, hg⟩
      · exact Or.inr ⟨hnone, List.forall_mem_cons.mpr ⟨hold, hall⟩⟩
    · refine Or.inl ⟨l, f, List.find?_cons_of_pos ?_, hinc.upToNext, not_le.mp hold, hname⟩
      simp only [UInt32.lt_iff_toNat_lt, hnum, decide_eq_true_eq]
      omega

theorem UpToNext.unique {l' : IndexLine} (hinc : Increasing lines) (h : UpToNext rd lines l)
    (h' : UpToNext rd lines l') (hnew : rd.dumpNum.toNat < l.num) (hnew' : rd.dumpNum.toNat < l'.num) : l = l' := by
  have hle := h.2 l' h'.1 hnew'
  have hge := h'.2 l h.1 hnew
  have hne : lines.Pairwise fun x y => x.num ≠ y.num := hinc.imp fun hlt => hlt.ne
  have : Std.Symm fun x y : IndexLine => x.num ≠ y.num := ⟨fun _ _ => Ne.symm⟩
  by_contra hdiff
  exact hne.forall h.1 h'.1 hdiff (by omega)

/-- The scan of the text is the search in the list of names. -/
theorem rsHasNextBinlogFile_eq (hinc : Increasing lines) (hfits : ScanFits rd lines)
    (hindex : index.map DumpFile.name = lines.map IndexLine.path) :
    rsHasNextBinlogFile (indexBytes lines) false rd =
      some (match rsHasNextBinlog index rd with | none => (.noBinlog, rd) | some rd' => (.ok, rd')) := by
  have hright := (scanIndex_right_iff hinc (indexBytes_length lines)).mpr hfits
  rcases find_next hinc hfits hindex with ⟨l, f, hfind, hnext, hnew, hf⟩ | ⟨hnone, hall⟩
  · rcases hright with ⟨rd', l', hres, hnext', hnew', hto, hname, hrd⟩ | ⟨-, hall⟩
    · obtain rfl := hnext.unique hinc hnext' hnew hnew'
      have hnum := IndexLine.file_num hf (hfits l hnext).2
      have hfile : rd'.dumpFile = f := DumpFile.eq_of_name (hname.trans hf.symm)
      have hdump : rd'.dumpNum = f.num := UInt32.toNat_inj.mp (by omega)
      rw [rsHasNextBinlogFile, hres, rsHasNextBinlog, hfind, hrd, hfile, hdump]
      rfl
    · exact absurd (hall l hnext.1) hnew.not_ge
  · rcases hright with ⟨rd', l', hres, hnext', hnew', -⟩ | ⟨hres, -⟩
    · exact absurd (hall l' hnext'.1) hnew'.not_ge
    · rw [rsHasNextBinlogFile, hres, rsHasNextBinlog, hnone]
      rfl

theorem ioThreadStep_eq_readerStep (hinc : Increasing lines) (hfits : ScanFits s.rd lines)
    (hindex : d.index.map DumpFile.name = lines.map IndexLine.path) (a : ReaderAct) :
    ioThreadStep (d.host lines) s a = readerStep d s a := by
  have hleft : s.left (d.host lines) = s.unread d := by
    simp only [Reader.left, Reader.unread, Disk.host]
    cases d.file s.rd.dumpFile <;> simp
  have hscan := rsHasNextBinlogFile_eq hinc hfits hindex
  cases a with
  | «open» =>
    cases hfile : d.file s.rd.dumpFile with
    | none => simp [ioThreadStep, readerStep, Disk.host, hfile]
    | some f => simp [ioThreadStep, readerStep, Disk.host, hfile]
  | call => rfl
  | fread n =>
    cases hp : s.phase with
    | reading p copied => simp only [ioThreadStep, readerStep, hleft, hp]
    | _ => simp only [ioThreadStep, readerStep, hp]
  | fail => rfl
  | scan =>
    simp only [ioThreadStep, readerStep]
    change (match s.phase with
      | .scanning p copied => (rsHasNextBinlogFile (indexBytes lines) false s.rd).map (s.scanned (.reading p copied))
      | .waiting => (rsHasNextBinlogFile (indexBytes lines) false s.rd).map (s.scanned .waiting)
      | _ => none) = _
    rw [hscan]
    cases hp : s.phase with
    | scanning p copied =>
      cases rsHasNextBinlog d.index s.rd <;> rfl
    | waiting =>
      cases rsHasNextBinlog d.index s.rd with
      | none =>
        change some { s with phase := .waiting } = some s
        rw [← hp]
      | some rd' => rfl
    | _ => rfl

end MySQLSyncer.Master
