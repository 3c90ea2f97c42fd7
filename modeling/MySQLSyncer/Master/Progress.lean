import MySQLSyncer.Master.IndexOrder

/-! # The position of the reading thread

Each turn of the loop of `rs_read_binlog` adds the length in a header to `dump_pos`, in 32 bits. Over
a whole run on files of any contents, the position moves forward in a file as long as these lengths
are not zero and do not take it past 4 GiB.
-/
namespace MySQLSyncer.Master
open Lib MySQLSyncer.Core

/-- `event_length` -/
def headerEl (eh : List UInt8) : UInt32 := UInt32.ofNat (leNat ((eh.drop 9).take 4))

/-- The files, the thread, and the values of `dump_pos` in the file: when it was opened, and behind
every turn since. -/
structure IoMarks where
  host : Host
  reader : Reader
  marks : List UInt32

/-- A turn ends back at the top of the loop, or outside of it behind an unknown event. -/
def EndsTurn (a : ReaderAct) (r : Reader) : Prop :=
  a ≠ .open ∧ a ≠ .scan ∧ (r.phase = .top ∨ r.phase = .opening)

instance (a : ReaderAct) (r : Reader) : Decidable (EndsTurn a r) := inferInstanceAs (Decidable (_ ∧ _))

def IoMarks.after (s : IoMarks) (a : ReaderAct) (r : Reader) : List UInt32 :=
  if a = .open ∧ r.phase = .top ∧ s.marks = [] then [r.rd.dumpPos]
  else if a = .scan ∧ r.phase = .opening then []
  else if EndsTurn a r then s.marks ++ [r.rd.dumpPos]
  else s.marks

def ioMarksStep (s : IoMarks) : IoAct → Option IoMarks
  | .host a => (hostStep s.host a).map fun h => { s with host := h }
  | .reader a => (ioThreadStep s.host s.reader a).map fun r => ⟨s.host, r, s.after a r⟩

def IoMarks.Forward (s : IoMarks) : Prop := s.marks.Pairwise (· < ·)

def TakesForward (pos : UInt32) (eh : List UInt8) : Prop :=
  0 < (headerEl eh).toNat ∧ pos.toNat + (headerEl eh).toNat < 2 ^ 32

def IoMarks.EventsOk (s : IoMarks) : IoAct → Prop
  | .host _ => True
  | .reader a => ∀ r, ioThreadStep s.host s.reader a = some r → EndsTurn a r →
    ∀ pos ∈ s.marks.getLast?, ∀ eh ∈ r.heads.getLast?, TakesForward pos eh

variable {h : Host} {s r : Reader} {a : ReaderAct}

def Reader.InHeader (s : Reader) : Prop :=
  s.phase = .top ∨ (∃ copied, s.phase = .reading .header copied) ∨ ∃ copied, s.phase = .scanning .header copied

def Reader.InBody (s : Reader) : Prop :=
  (∃ k copied, s.phase = .reading (.body k) copied) ∨ (∃ k copied, s.phase = .scanning (.body k) copied) ∨
    s.phase = .waiting

inductive Reader.Moves (s r : Reader) : Prop
  | gone (hr : r.phase = .finished)
  | waits (hs : s.InHeader) (hr : r.InHeader) (htop : r.phase ≠ .top) (hpos : r.rd.dumpPos = s.rd.dumpPos)
  | parses {e : List UInt8} (hs : s.InHeader) (hpos : r.rd.dumpPos = s.rd.dumpPos + headerEl e)
      (hheads : r.heads.getLast? = some e) (hr : r.phase = .top ∨ r.phase = .opening ∨ r.InBody)
  | handles (hs : s.InBody) (hpos : r.rd.dumpPos = s.rd.dumpPos) (hheads : r.heads = s.heads)
      (hr : r.phase = .top ∨ r.InBody)

theorem Reader.GoesOn.phase_cases (hgoes : s.GoesOn r) : r.phase = .top ∨ r.InBody := by
  rcases hgoes.phase with hp | hp | hp
  · exact Or.inl hp
  · exact Or.inr (Or.inl hp)
  · exact Or.inr (Or.inr (Or.inr hp))

theorem afterHeader_moves {u : Reader} {eof : Eof} (hs : u.InHeader) (hpos : s.rd.dumpPos = u.rd.dumpPos)
    (hr : s.afterHeader eof = some r) : u.Moves r := by
  cases eof with
  | loop copied b =>
    cases hr
    exact .waits hs (Or.inr (Or.inl ⟨copied, rfl⟩)) (by simp) hpos
  | ret eh b =>
    rcases afterHeader_cases hr with ⟨-, rfl⟩ | ⟨-, hgoes⟩
    · refine .parses (e := eh) hs ?_ ?_ (Or.inr (Or.inl rfl))
      · rw [← hpos]
        rfl
      · simp [Reader.leave, Reader.parsed]
    · refine .parses (e := eh) hs ?_ ?_ (hgoes.phase_cases.imp_right Or.inr)
      · rw [hgoes.place.2, ← hpos]
        rfl
      · simp [hgoes.heads, Reader.parsed]

theorem ioThreadStep_moves (hopen : a ≠ .open) (hscan : a ≠ .scan)
    (hr : ioThreadStep h s a = some r) : s.Moves r := by
  cases a with
  | scan => exact absurd rfl hscan
  | «open» => exact absurd rfl hopen
  | fail =>
    simp only [ioThreadStep] at hr
    split_ifs at hr
    cases hr
    exact .gone rfl
  | call =>
    obtain ⟨htop, hr⟩ := Option.ite_none_right_eq_some.mp hr
    exact afterHeader_moves (Or.inl htop) rfl hr
  | fread n =>
    simp only [ioThreadStep] at hr
    cases hp : s.phase with
    | reading p copied =>
      simp only [hp] at hr
      split_ifs at hr with hn hleft hle
      · cases hr
        cases p with
        | header =>
          exact .waits (Or.inr (Or.inl ⟨copied, hp⟩)) (Or.inr (Or.inr ⟨copied, rfl⟩)) (by simp) rfl
        | body k =>
          exact .handles (Or.inl ⟨k, copied, hp⟩) rfl rfl (Or.inr (Or.inr (Or.inl ⟨k, copied, rfl⟩)))
      · cases p with
        | header =>
          exact afterHeader_moves (s := { s with offset := s.offset + n, phase := .reading .header copied })
            (Or.inr (Or.inl ⟨copied, hp⟩)) rfl hr
        | body k =>
          have hgoes := afterBody_goesOn (s := { s with offset := s.offset + n,
                                                        phase := .reading (.body k) copied }) hr
          exact .handles (Or.inl ⟨k, copied, hp⟩) hgoes.place.2 hgoes.heads hgoes.phase_cases
    | _ => simp [hp] at hr

/-- A scan goes on to another file, or changes nothing but the phase. -/
theorem ioThreadStep_scan (hr : ioThreadStep h s .scan = some r) : r.phase = .opening ∨ r.phase = .finished ∨
    r.rd.dumpPos = s.rd.dumpPos ∧ r.heads = s.heads ∧ (s.InHeader ∧ r.InHeader ∨ s.InBody ∧ r.InBody) := by
  have hscanned (stay : ReadPhase) (result : RsCode × RsReqdumpData) :
      (s.scanned stay result).phase = .opening ∨ (s.scanned stay result).phase = .finished ∨
        (s.scanned stay result) = { s with phase := stay } := by
    obtain ⟨code, rd⟩ := result
    cases code with
    | ok => exact Or.inl rfl
    | noBinlog => exact Or.inr (Or.inr rfl)
    | _ => exact Or.inr (Or.inl rfl)
  simp only [ioThreadStep] at hr
  cases hp : s.phase with
  | scanning p copied =>
    simp only [hp] at hr
    obtain ⟨result, -, rfl⟩ := Option.map_eq_some_iff.mp hr
    rcases hscanned (.reading p copied) result with hopening | hfinished | hstay
    · exact Or.inl hopening
    · exact Or.inr (Or.inl hfinished)
    · rw [hstay]
      refine Or.inr (Or.inr ⟨rfl, rfl, ?_⟩)
      cases p with
      | header => exact Or.inl ⟨Or.inr (Or.inr ⟨copied, hp⟩), Or.inr (Or.inl ⟨copied, rfl⟩)⟩
      | body k => exact Or.inr ⟨Or.inr (Or.inl ⟨k, copied, hp⟩), Or.inl ⟨k, copied, rfl⟩⟩
  | waiting =>
    simp only [hp] at hr
    obtain ⟨result, -, rfl⟩ := Option.map_eq_some_iff.mp hr
    rcases hscanned .waiting result with hopening | hfinished | hstay
    · exact Or.inl hopening
    · exact Or.inr (Or.inl hfinished)
    · rw [hstay]
      exact Or.inr (Or.inr ⟨rfl, rfl, Or.inr ⟨Or.inr (Or.inr hp), Or.inr (Or.inr rfl)⟩⟩)
  | _ => simp [hp] at hr

theorem ioThreadStep_open (hr : ioThreadStep h s .open = some r) : s.phase = .opening ∧ (r.phase = .finished ∨
    r.phase = .top ∧ (s.rd.dumpPos ≠ 0 → r.rd.dumpPos = s.rd.dumpPos)) := by
  simp only [ioThreadStep] at hr
  obtain ⟨hp, hr⟩ := Option.ite_none_right_eq_some.mp hr
  cases hfile : h.file s.rd.dumpFile with
  | none =>
    simp only [hfile] at hr
    cases hr
    exact ⟨hp, Or.inl rfl⟩
  | some bytes =>
    simp only [hfile] at hr
    cases hr
    exact ⟨hp, Or.inr ⟨rfl, fun hne => if_neg hne⟩⟩

theorem takesForward_iff {pos : UInt32} {eh : List UInt8} : TakesForward pos eh ↔ pos < pos + headerEl eh := by
  have hpos := pos.toNat_lt
  have hel := (headerEl eh).toNat_lt
  simp only [TakesForward, UInt32.lt_iff_toNat_lt, UInt32.toNat_add]
  omega

theorem pairwise_snoc {l : List UInt32} {last x : UInt32} (hl : l.Pairwise (· < ·)) (hlast : l.getLast? = some last) :
    (l ++ [x]).Pairwise (· < ·) ↔ last < x := by
  obtain ⟨front, rfl⟩ := List.getLast?_eq_some_iff.mp hlast
  have hfront := (List.pairwise_append.mp hl).2.2
  constructor
  · intro h
    exact (List.pairwise_append.mp h).2.2 last (by simp) x (by simp)
  · intro hx
    refine List.pairwise_append.mpr ⟨hl, List.pairwise_singleton _ x, fun y hy z hz => ?_⟩
    obtain rfl := List.mem_singleton.mp hz
    rcases List.mem_append.mp hy with hy | hy
    · exact UInt32.lt_trans (hfront y hy last (by simp)) hx
    · obtain rfl := List.mem_singleton.mp hy
      exact hx

/-- The marks are in order, and the last one is where the header at work begins. -/
structure IoMarks.Inv (s : IoMarks) : Prop where
  forward : s.Forward
  opening : s.reader.phase = .opening → s.marks = [] ∨
    s.reader.rd.dumpPos ≠ 0 ∧ s.marks.getLast? = some s.reader.rd.dumpPos
  header : s.reader.InHeader → s.marks.getLast? = some s.reader.rd.dumpPos
  body : s.reader.InBody → ∃ last eh, s.marks.getLast? = some last ∧ s.reader.heads.getLast? = some eh ∧
    s.reader.rd.dumpPos = last + headerEl eh

variable {s t : IoMarks}

/-- A turn that ends makes a mark; it lies ahead exactly if the event takes the position forward. -/
theorem inv_turn {eh : List UInt8} {last : UInt32} (hs : s.Forward) (hlast : s.marks.getLast? = some last)
    (hpos : r.rd.dumpPos = last + headerEl eh) (hr : r.phase = .top ∨ r.phase = .opening) :
    ((s.marks ++ [r.rd.dumpPos]).Pairwise (· < ·) ↔ TakesForward last eh) ∧
      (TakesForward last eh → IoMarks.Inv ⟨s.host, r, s.marks ++ [r.rd.dumpPos]⟩) := by
  have hiff : (s.marks ++ [r.rd.dumpPos]).Pairwise (· < ·) ↔ TakesForward last eh := by
    rw [pairwise_snoc hs hlast, takesForward_iff, hpos]
  refine ⟨hiff, fun hok => ⟨hiff.mpr hok, fun _ => Or.inr ⟨?_, by simp⟩, fun _ => by simp, fun hbody => ?_⟩⟩
  · have hlt := takesForward_iff.mp hok
    rw [← hpos] at hlt
    rintro hzero
    rw [hzero] at hlt
    exact absurd hlt (UInt32.not_lt_zero)
  · rcases hbody with ⟨k, copied, hp⟩ | ⟨k, copied, hp⟩ | hp
    all_goals
      change r.phase = _ at hp
      simp [hp] at hr

theorem not_inHeader (hp : r.phase = .opening ∨ r.phase = .finished) : ¬ r.InHeader := by
  rintro (h | ⟨copied, h⟩ | ⟨copied, h⟩)
  all_goals simp [h] at hp

theorem not_inBody (hp : r.phase = .top ∨ r.phase = .opening ∨ r.phase = .finished) : ¬ r.InBody := by
  rintro (⟨k, copied, h⟩ | ⟨k, copied, h⟩ | h)
  all_goals simp [h] at hp

theorem Reader.InBody.not_inHeader (hbody : r.InBody) : ¬ r.InHeader := by
  rintro (h | ⟨copied, h⟩ | ⟨copied, h⟩)
  all_goals
    rcases hbody with ⟨k, c, hp⟩ | ⟨k, c, hp⟩ | hp
    all_goals simp [h] at hp

/-- Without a new mark or an end of a turn, the step keeps the marks in order. -/
theorem inv_keep {ok : Prop} (hok : ok) (ht : t.Inv) : (ok ↔ t.Forward) ∧ (ok → t.Inv) :=
  ⟨iff_of_true hok ht.forward, fun _ => ht⟩

/-- A step that makes no mark and does not end a turn leaves the marks alone. -/
theorem after_keep (hopen : ¬ (a = .open ∧ r.phase = .top ∧ s.marks = []))
    (hscan : ¬ (a = .scan ∧ r.phase = .opening))
    (hend : ¬ EndsTurn a r) : s.after a r = s.marks := by
  rw [IoMarks.after, if_neg hopen, if_neg hscan, if_neg hend]

theorem open_inv (hs : s.Inv) (hr : ioThreadStep s.host s.reader .open = some r) :
    IoMarks.Inv ⟨s.host, r, s.after .open r⟩ := by
  obtain ⟨hp, hfinished | ⟨htop, hsame⟩⟩ := ioThreadStep_open hr
  · rw [after_keep (by simp [hfinished]) (by simp) (by simp [EndsTurn])]
    exact ⟨hs.forward, by simp [hfinished], fun h => absurd h (not_inHeader (Or.inr hfinished)),
      fun h => absurd h (not_inBody (Or.inr (Or.inr hfinished)))⟩
  · rcases hs.opening hp with hnil | ⟨hne, hlast⟩
    · rw [IoMarks.after, if_pos ⟨rfl, htop, hnil⟩]
      exact ⟨List.pairwise_singleton _ _, by simp [htop], fun _ => rfl, fun h => absurd h (not_inBody (Or.inl htop))⟩
    · have hmarks : s.marks ≠ [] := fun hnil => by simp [hnil] at hlast
      rw [after_keep (by simp [hmarks]) (by simp) (by simp [EndsTurn])]
      exact ⟨hs.forward, by simp [htop], fun _ => hlast.trans (congrArg some (hsame hne).symm),
        fun h => absurd h (not_inBody (Or.inl htop))⟩

theorem scan_inv (hs : s.Inv) (hr : ioThreadStep s.host s.reader .scan = some r) :
    IoMarks.Inv ⟨s.host, r, s.after .scan r⟩ := by
  by_cases hp : r.phase = .opening
  · rw [IoMarks.after, if_neg (by simp), if_pos ⟨rfl, hp⟩]
    exact ⟨List.Pairwise.nil, fun _ => Or.inl rfl, fun h => absurd h (not_inHeader (Or.inl hp)),
      fun h => absurd h (not_inBody (Or.inr (Or.inl hp)))⟩
  · rw [after_keep (by simp) (by simp [hp]) (by simp [EndsTurn])]
    rcases ioThreadStep_scan hr with hopening | hfinished | ⟨hpos, hheads, hin⟩
    · exact absurd hopening hp
    · exact ⟨hs.forward, fun h => absurd h hp, fun h => absurd h (not_inHeader (Or.inr hfinished)),
        fun h => absurd h (not_inBody (Or.inr (Or.inr hfinished)))⟩
    · refine ⟨hs.forward, fun h => absurd h hp, fun h => ?_, fun h => ?_⟩
      · rcases hin with ⟨hheader, -⟩ | ⟨-, hbody⟩
        · exact (hs.header hheader).trans (congrArg some hpos.symm)
        · exact absurd h hbody.not_inHeader
      · rcases hin with ⟨-, hheader⟩ | ⟨hbody, -⟩
        · exact absurd hheader h.not_inHeader
        · obtain ⟨last, eh, hlast, heh, hsum⟩ := hs.body hbody
          exact ⟨last, eh, hlast, hheads ▸ heh, hpos.trans hsum⟩

theorem eventsOk_iff (hr : ioThreadStep s.host s.reader a = some r) : s.EventsOk (.reader a) ↔
    (EndsTurn a r → ∀ pos ∈ s.marks.getLast?, ∀ eh ∈ r.heads.getLast?, TakesForward pos eh) := by
  simp only [IoMarks.EventsOk, hr, Option.some.injEq, forall_eq']

/-- Behind the header the turn ends, or the event is at work. -/
theorem work_inv {eh : List UInt8} {last : UInt32} (hopen : a ≠ .open) (hscan : a ≠ .scan) (hs : s.Inv)
    (hr : ioThreadStep s.host s.reader a = some r) (hlast : s.marks.getLast? = some last)
    (heh : r.heads.getLast? = some eh) (hpos : r.rd.dumpPos = last + headerEl eh)
    (hp : (r.phase = .top ∨ r.phase = .opening) ∨ r.InBody) :
    (s.EventsOk (.reader a) ↔ IoMarks.Forward ⟨s.host, r, s.after a r⟩) ∧
      (s.EventsOk (.reader a) → IoMarks.Inv ⟨s.host, r, s.after a r⟩) := by
  rcases hp with hp | hbody
  · have hend : EndsTurn a r := ⟨hopen, hscan, hp⟩
    have hok : s.EventsOk (.reader a) ↔ TakesForward last eh := by
      rw [eventsOk_iff hr]
      simp [hend, hlast, heh]
    rw [hok, IoMarks.after, if_neg (fun h => hopen h.1), if_neg (fun h => hscan h.1), if_pos hend]
    obtain ⟨hiff, hinv⟩ := inv_turn hs.forward hlast hpos hp
    exact ⟨hiff.symm, hinv⟩
  · have hphase (hp : r.phase = .top ∨ r.phase = .opening ∨ r.phase = .finished) : False := not_inBody hp hbody
    have hend : ¬ EndsTurn a r := fun h => hphase (h.2.2.imp_right Or.inl)
    rw [after_keep (fun h => hopen h.1) (fun h => hscan h.1) hend]
    exact inv_keep ((eventsOk_iff hr).mpr fun h => absurd h hend) ⟨hs.forward,
      fun h => (hphase (Or.inr (Or.inl h))).elim, fun h => absurd h hbody.not_inHeader,
      fun _ => ⟨last, eh, hlast, heh, hpos⟩⟩

theorem moves_inv (hopen : a ≠ .open) (hscan : a ≠ .scan) (hs : s.Inv)
    (hr : ioThreadStep s.host s.reader a = some r) :
    (s.EventsOk (.reader a) ↔ IoMarks.Forward ⟨s.host, r, s.after a r⟩) ∧
      (s.EventsOk (.reader a) → IoMarks.Inv ⟨s.host, r, s.after a r⟩) := by
  have hkeep (hend : ¬ EndsTurn a r) : s.EventsOk (.reader a) ∧ s.after a r = s.marks :=
    ⟨(eventsOk_iff hr).mpr fun h => absurd h hend, after_keep (fun h => hopen h.1) (fun h => hscan h.1) hend⟩
  cases ioThreadStep_moves hopen hscan hr with
  | gone hp =>
    obtain ⟨hok, hafter⟩ := hkeep (fun h => by simp [EndsTurn, hp] at h)
    rw [hafter]
    exact inv_keep hok ⟨hs.forward, by simp [hp], fun h => absurd h (not_inHeader (Or.inr hp)),
      fun h => absurd h (not_inBody (Or.inr (Or.inr hp)))⟩
  | waits hheader hheader' htop hpos =>
    have hopening : r.phase ≠ .opening := fun h => not_inHeader (Or.inl h) hheader'
    obtain ⟨hok, hafter⟩ := hkeep (fun h => h.2.2.elim htop hopening)
    rw [hafter]
    exact inv_keep hok ⟨hs.forward, fun h => absurd h hopening,
      fun _ => (hs.header hheader).trans (congrArg some hpos.symm), fun h => absurd hheader' h.not_inHeader⟩
  | parses hheader hpos heh hp =>
    exact work_inv hopen hscan hs hr (hs.header hheader) heh hpos (or_assoc.mpr hp)
  | handles hbody hpos hheads hp =>
    obtain ⟨last, eh, hlast, heh, hsum⟩ := hs.body hbody
    exact work_inv hopen hscan hs hr hlast (hheads ▸ heh) (hpos.trans hsum) (hp.imp_left Or.inl)

/-- A step keeps the invariant exactly if a turn that ends with it takes the position forward. -/
theorem ioMarksStep_inv {act : IoAct} (hs : s.Inv) (ht : ioMarksStep s act = some t) :
    (s.EventsOk act ↔ t.Forward) ∧ (s.EventsOk act → t.Inv) := by
  cases act with
  | host a =>
    obtain ⟨h, -, rfl⟩ := Option.map_eq_some_iff.mp ht
    exact inv_keep trivial ⟨hs.forward, hs.opening, hs.header, hs.body⟩
  | reader a =>
    obtain ⟨r, hr, rfl⟩ := Option.map_eq_some_iff.mp ht
    by_cases hopen : a = .open
    · subst hopen
      exact inv_keep (fun _ _ hend => absurd rfl hend.1) (open_inv hs hr)
    · by_cases hscan : a = .scan
      · subst hscan
        exact inv_keep (fun _ _ hend => absurd rfl hend.2.1) (scan_inv hs hr)
      · exact moves_inv hopen hscan hs hr

def IoMarks.start (host : Host) (ioSize : UInt32) (file : DumpFile) (pos : UInt32) (tables : Option (List UInt8))
    (serverId : UInt32) : IoMarks :=
  ⟨host, Reader.init ioSize file pos tables serverId, []⟩

variable {host : Host} {ioSize pos serverId : UInt32} {file : DumpFile} {tables : Option (List UInt8)}
  {as : List IoAct}

theorem IoMarks.start_inv : (IoMarks.start host ioSize file pos tables serverId).Inv :=
  ⟨List.Pairwise.nil, fun _ => Or.inl rfl, fun h => absurd h (not_inHeader (Or.inl rfl)),
    fun h => absurd h (not_inBody (Or.inr (Or.inl rfl)))⟩

/-- In a run on files of any contents, the position moves forward in every turn exactly if every
event takes it forward. -/
theorem position_forward_iff (hrun : exec ioMarksStep (.start host ioSize file pos tables serverId) as = some t) :
    (∀ k u, exec ioMarksStep (.start host ioSize file pos tables serverId) (as.take k) = some u → u.Forward) ↔
      Along ioMarksStep IoMarks.EventsOk (.start host ioSize file pos tables serverId) as :=
  along_iff_states (fun _ h => h.forward) (fun _ _ _ hs ht hok => (ioMarksStep_inv hs ht).2 hok)
    (fun _ _ _ hs ht => (ioMarksStep_inv hs ht).1) IoMarks.start_inv hrun

/-- The magic number, and the header of a stored event of the type 15 with the length `el`. -/
def lengthFile (el : UInt8) : List UInt8 :=
  binlogMagic ++ [0, 0, 0, 0, 15, 1, 0, 0, 0, el, 0, 0, 0, 0, 0, 0, 0, 0, 0]

def lengthTurn : List IoAct := [.reader .open, .reader .call, .reader (.fread 19)]

def lengthStart (el : UInt8) : IoMarks :=
  .start ⟨fun _ => some (lengthFile el), []⟩ 64 sampleFirst 0 none 1

theorem position_forward_sample : (∀ k u, exec ioMarksStep (lengthStart 19) (lengthTurn.take k) =
    some u → u.Forward) ↔
    Along ioMarksStep IoMarks.EventsOk (lengthStart 19) lengthTurn := by
  have hrun : (exec ioMarksStep (lengthStart 19) lengthTurn).map IoMarks.marks = some [4, 23] := by decide +kernel
  obtain ⟨t, ht, -⟩ := Option.map_eq_some_iff.mp hrun
  exact position_forward_iff ht

/-- An event of no length leaves the position where it is. -/
theorem not_position_forward : ¬ ∀ (host : Host) (ioSize pos serverId : UInt32) (file : DumpFile)
    (tables : Option (List UInt8)) (as : List IoAct) (t : IoMarks),
    exec ioMarksStep (.start host ioSize file pos tables serverId) as = some t → t.Forward := by
  intro h
  have hrun : (exec ioMarksStep (lengthStart 0) lengthTurn).map IoMarks.marks = some [4, 4] := by decide +kernel
  obtain ⟨t, ht, hmarks⟩ := Option.map_eq_some_iff.mp hrun
  have hforward := h _ _ _ _ _ _ _ t ht
  rw [IoMarks.Forward, hmarks] at hforward
  exact absurd hforward (by decide)

end MySQLSyncer.Master
