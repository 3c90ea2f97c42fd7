import MySQLSyncer.Master.InStep
import MySQLSyncer.Master.Resume

/-! # Changing to the next file

The thread looks for the next file when `fread` finds nothing more in the old one, and in the
stop handler. In between the server may have appended to the old file.
-/
namespace MySQLSyncer.Master
open Lib MySQLSyncer.Core

/-- The stop handler waits for the next file behind this event. -/
def Event.Closes (e : Event) (id : UInt32) : Prop := e.handler = some .stop ∧ e.svrid = id

instance (e : Event) (id : UInt32) : Decidable (e.Closes id) := inferInstanceAs (Decidable (_ ∧ _))

/-- The server writes nothing to a file behind its own stop or rotate event. -/
def Disk.StopLast (d : Disk) (id : UInt32) : Prop :=
  ∀ f ∈ d.files, ∀ e ∈ f.events.dropLast, ¬ e.Closes id

instance (d : Disk) (id : UInt32) : Decidable (d.StopLast id) :=
  inferInstanceAs (Decidable (∀ f ∈ d.files, ∀ e ∈ f.events.dropLast, ¬ _))

def System.Switches (s : System) (a : Act) : Prop :=
  a = .reader .scan ∧ rsHasNextBinlog s.disk.index s.reader.rd ≠ none

/-- The thread has taken every event of its file, from where it opened it. -/
def System.AllTaken (s : System) : Prop :=
  ∃ f, s.disk.file s.reader.rd.dumpFile = some f ∧
    Placed f s.reader.opened s.reader.heads s.reader.rd.dumpPos.toNat []

/-- The thread is in front of the index scan, and the file has grown since its `fread` that
returned nothing. -/
def System.Missed (s : System) : Prop :=
  match s.reader.phase with
  | .scanning _ _ => s.reader.grown = true
  | _ => False

variable {d d' : Disk} {f : LogFile} {start rd : RsReqdumpData} {s t : System} {a : Act} {id : UInt32}

theorem Disk.StopLast.before {b : ServerAct} (h : d'.StopLast id) (hs : serverStep d b = some d') :
    d.StopLast id := by
  obtain ⟨e, rfl, -, rfl⟩ | ⟨name, rfl, -, rfl⟩ | ⟨rfl, -, rfl⟩ := serverStep_cases hs
  · intro f hf x hx
    rcases List.mem_append.mp hf with hf | hf
    · exact h f (List.mem_append_left _ hf) x hx
    · obtain rfl := List.mem_singleton.mp hf
      refine h _ (List.mem_append_right _ (List.mem_singleton_self _)) x ?_
      change x ∈ (d.current.events ++ [e]).dropLast
      rw [List.dropLast_concat]
      exact List.dropLast_subset _ hx
  · exact fun f hf => h f (List.mem_append_left _ hf)
  · exact h

theorem Placed.last {opened pos : ℕ} {heads : List (List UInt8)} {after : List Event}
    (h : Placed f opened heads pos after) (h' : Placed f opened heads pos []) : after = [] := by
  have hlen := h.length
  have hlen' := h'.length
  rw [List.flatMap_nil, List.length_nil] at hlen'
  exact flatMap_bytes_eq_nil.mp (List.length_eq_zero_iff.mp (by omega))

/-- Behind its own stop event the thread is at the end of the file. -/
theorem Taking.last {u : Reader} {e : Event} {after : List Event} {before : List (List UInt8)}
    (ht : Taking f u rd e after before) (hf : f ∈ d.files) (hlast : d.StopLast id)
    (he : e.Closes id) : after = [] := by
  obtain ⟨pre, read, hevents, -⟩ := ht.placed
  by_contra hne
  refine hlast f hf e ?_ he
  rw [hevents, ← List.append_assoc, List.dropLast_append_of_ne_nil (List.cons_ne_nil _ _),
    List.dropLast_cons_of_ne_nil hne]
  exact List.mem_append_right _ List.mem_cons_self

/-- One change of files: the thread has taken all of the old one unless it has just missed
something. -/
theorem System.Inv.allTaken_iff (hstart : start.Idle) (h : s.Inv start)
    (hlast : s.disk.StopLast start.serverId) (hs : systemStep s a = some t) (hsw : s.Switches a) :
    s.AllTaken ↔ ¬ s.Missed := by
  obtain ⟨rfl, -⟩ := hsw
  obtain ⟨f, hf, hfollows⟩ := h.follows
  have hphase := hfollows.phase
  have hall {after : List Event}
      (hp : Placed f s.reader.opened s.reader.heads s.reader.rd.dumpPos.toNat after) :
      s.AllTaken ↔ after = [] := by
    constructor
    · rintro ⟨g, hg, hend⟩
      obtain rfl := Option.some.inj (hf.symm.trans hg)
      exact hp.last hend
    · rintro rfl
      exact ⟨f, hf, hp⟩
  obtain ⟨u, hu, -⟩ := Option.map_eq_some_iff.mp hs
  unfold System.Missed
  cases hp : s.reader.phase with
  | scanning p copied =>
    rw [hp] at hphase
    cases p with
    | body h => exact hphase.elim
    | header =>
      obtain ⟨-, -, -, after, hplaced, hgrown⟩ := hphase
      rw [hall hplaced, ← hgrown]
      exact (Bool.not_eq_true _).symm ▸ Iff.rfl
  | waiting =>
    rw [hp] at hphase
    obtain ⟨rd, e, after, before, ht, ⟨items, hrun⟩, hh, hrd, hid⟩ := hphase
    have hserver : s.reader.rd.serverId = start.serverId := (request_of_run hstart hrun).2.1
    have hcloses : e.Closes start.serverId := by
      refine ⟨hh, ?_⟩
      rw [← hserver, hid, hrd]
      rfl
    obtain rfl := ht.last (Disk.file_spec hf).1 hlast hcloses
    have hnext := ht.next
    rw [← ht.dumpPos (h.small f (Disk.file_spec hf).1), ← header_dumpPos, ← hrd] at hnext
    exact ⟨fun _ => id, fun _ => (hall hnext).mpr rfl⟩
  | _ =>
    simp only [readerStep, hp] at hu
    cases hu

instance (s : System) : Decidable s.Missed :=
  have (p : ReadPhase) : Decidable (match p with
      | .scanning _ _ => s.reader.grown = true
      | _ => False) :=
    match p with
    | .scanning _ _ => inferInstanceAs (Decidable (_ = _))
    | .opening | .top | .reading _ _ | .waiting | .finished => isFalse not_false
  this s.reader.phase

instance (s : System) (a : Act) : Decidable (s.Switches a) := inferInstanceAs (Decidable (_ ∧ _))

theorem systemStep_stopLast (hs : systemStep s a = some t) (h : t.disk.StopLast id) :
    s.disk.StopLast id := by
  cases a with
  | server b =>
    obtain ⟨d', hd', rfl⟩ := Option.map_eq_some_iff.mp hs
    exact h.before hd'
  | reader b =>
    obtain ⟨u, -, rfl⟩ := Option.map_eq_some_iff.mp hs
    exact h

/-- In every run, at every change of files, all of the old file has been taken, if and only if
at every change nothing was appended to it since the `fread` that returned nothing. -/
theorem switches_allTaken_iff {d : Disk} {ioSize pos id : UInt32} {file : DumpFile}
    {tables : Option (List UInt8)} (hd : d.Small) (hf : d.file file = some f)
    (hpos : f.Boundary (startPos pos)) {as : List Act} {s : System}
    (hrun : exec systemStep (.init d ioSize file pos tables id) as = some s)
    (hlast : s.disk.StopLast id) :
    Along systemStep (fun s a => s.Switches a → s.AllTaken) (.init d ioSize file pos tables id) as ↔
      Along systemStep (fun s a => s.Switches a → ¬ s.Missed) (.init d ioSize file pos tables id) as := by
  have hstart : (startSession file file.num pos tables id).Idle := ⟨rfl, rfl, rfl, rfl⟩
  refine (along_congr (I := System.Inv (startSession file file.num pos tables id))
    (J := fun s => s.disk.StopLast id) (fun _ _ _ h hs => h.step hstart hs)
    (fun _ _ _ h hs => systemStep_stopLast hs h) (fun s a t hinv hlast hs => ?_)
    (System.init_inv hd hf hpos) hrun hlast).2
  exact forall_congr' fun hsw => hinv.allTaken_iff hstart hlast hs hsw

def sampleNextFile : DumpFile := ⟨[98, 49], by decide, by decide⟩

/-- The thread reads a query, finds the end of the file, then the next file in the index. -/
def sampleSwitch : List Act :=
  [.reader .open, .reader .call, .reader (.fread 39), .reader .call, .server (.create sampleNextFile),
    .reader (.fread 0), .server .index, .reader .scan]

def sampleSwitchDisk : Disk := ⟨[], ⟨sampleFile, [sampleBegin]⟩, 1⟩

theorem switches_allTaken_sample : Along systemStep (fun s a => s.Switches a → s.AllTaken)
    (.init sampleSwitchDisk 64 sampleFile 0 (some sampleTables) 1) sampleSwitch := by
  have hrun : (exec systemStep (.init sampleSwitchDisk 64 sampleFile 0 (some sampleTables) 1)
      sampleSwitch).map (fun s => decide (s.disk.StopLast 1)) = some true := by decide +kernel
  obtain ⟨s, hs, hlast⟩ := Option.map_eq_some_iff.mp hrun
  exact (switches_allTaken_iff (by decide) rfl ⟨_, .start _⟩ hs (of_decide_eq_true hlast)).mpr
    (by decide +kernel)

theorem System.AllTaken.length (h : s.AllTaken) :
    (s.disk.file s.reader.rd.dumpFile).map (·.bytes.length) = some s.reader.rd.dumpPos.toNat := by
  obtain ⟨f, hf, hplaced⟩ := h
  have hlen := hplaced.length
  rw [List.flatMap_nil, List.length_nil] at hlen
  rw [hf]
  exact congrArg some hlen.symm

/-- The last event of a file comes between the `fread` that returns nothing and the index scan. -/
def sampleMissed : List Act :=
  [.reader .open, .reader .call, .reader (.fread 0), .server (.append sampleBegin),
    .server (.create sampleNextFile), .server .index, .reader .scan]

theorem switch_loses_event : ¬ ∀ (d : Disk) (ioSize pos id : UInt32) (f : LogFile)
    (tables : Option (List UInt8)) (as : List Act) (s : System), d.Small → d.file f.name = some f →
    f.Boundary (startPos pos) → exec systemStep (.init d ioSize f.name pos tables id) as = some s →
    s.disk.StopLast id →
    Along systemStep (fun s a => s.Switches a → s.AllTaken) (.init d ioSize f.name pos tables id) as := by
  intro h
  have hrun : (exec systemStep (.init ⟨[], ⟨sampleFile, []⟩, 1⟩ 64 sampleFile 0 none 1)
      sampleMissed).map (fun s => decide (s.disk.StopLast 1)) = some true := by decide +kernel
  obtain ⟨s, hs, hlast⟩ := Option.map_eq_some_iff.mp hrun
  have hall := h _ 64 0 1 ⟨sampleFile, []⟩ none _ s (by decide) rfl ⟨_, .start _⟩ hs
    (of_decide_eq_true hlast)
  exact absurd (hall.imp fun s a himp hsw => (himp hsw).length) (by decide +kernel)

end MySQLSyncer.Master
