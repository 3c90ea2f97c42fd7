import MySQLSyncer.Master.IoStep

/-! # The files are visited in the order of the index

Over a whole run, while the index grows: behind the first file, the thread opens the files of the
later lines, one after the other.
-/
namespace MySQLSyncer.Master
open Lib MySQLSyncer.Core

structure IoRun where
  host : Host
  reader : Reader
  visited : List DumpFile

inductive IoAct where
  | host (a : HostAct)
  | reader (a : ReaderAct)

def ioRunStep (s : IoRun) : IoAct → Option IoRun
  | .host a => (hostStep s.host a).map fun h => { s with host := h }
  | .reader a => (ioThreadStep s.host s.reader a).map fun r =>
      ⟨s.host, r, if a = .open ∧ (s.host.file s.reader.rd.dumpFile).isSome then
        s.visited ++ [s.reader.rd.dumpFile] else s.visited⟩

/-- The step scans an index whose lines fit, or meets no unknown event. -/
def IoRun.Fits (s : IoRun) : IoAct → Prop
  | .host _ => True
  | .reader .scan => ScanFits s.reader.rd s.host.lines
  | .reader a => ∀ eh, s.reader.header s.host a = some eh → Known eh

def later (num : ℕ) (lines : List IndexLine) : List IndexLine := lines.filter fun l => num < l.num

def laterUpTo (num last : ℕ) (lines : List IndexLine) : List IndexLine :=
  lines.filter fun l => num < l.num ∧ l.num ≤ last

def names (files : List DumpFile) : List (List UInt8) := files.map DumpFile.name

def paths (lines : List IndexLine) : List (List UInt8) := lines.map IndexLine.path

/-- The files opened so far are the first one and the next ones in the index; no line is left out
when the scan finds none above the number of the open file. -/
structure IoRun.InOrder (first : DumpFile) (s : IoRun) : Prop where
  visited : names s.visited <+: first.name :: paths (later first.num.toNat s.host.lines)
  complete : s.reader.phase ≠ .opening → s.reader.phase ≠ .finished →
    (∀ l ∈ s.host.lines, l.num ≤ s.reader.rd.dumpNum.toNat) →
    names s.visited = first.name :: paths (later first.num.toNat s.host.lines)

variable {lines : List IndexLine} {l : IndexLine} {num last : ℕ} {first : DumpFile} {s t : IoRun} {a : IoAct}

theorem laterUpTo_initial (hinc : Increasing lines) : laterUpTo num last lines <+: later num lines := by
  induction lines with
  | nil => exact List.nil_prefix
  | cons l lines ih =>
    obtain ⟨hfirst, hrest⟩ := increasing_cons.mp hinc
    by_cases hle : l.num ≤ last
    · by_cases hnum : num < l.num
      · simpa [laterUpTo, later, hle, hnum] using ih hrest
      · simpa [laterUpTo, later, hnum] using ih hrest
    · have hnil : laterUpTo num last (l :: lines) = [] := by
        apply List.filter_eq_nil_iff.mpr
        intro l' hmem
        have hge := hinc.le hmem
        simp only [decide_eq_true_eq, not_and]
        omega
      rw [hnil]
      exact List.nil_prefix

theorem laterUpTo_all (hall : ∀ l ∈ lines, l.num ≤ last) : laterUpTo num last lines = later num lines := by
  apply List.filter_congr
  intro l hl
  simp [hall l hl]

/-- The next line comes behind those that have been visited. -/
theorem laterUpTo_next {rd : RsReqdumpData} (hinc : Increasing lines) (hnext : UpToNext rd lines l)
    (hnew : rd.dumpNum.toNat < l.num) (hnum : num ≤ rd.dumpNum.toNat) :
    laterUpTo num l.num lines = laterUpTo num rd.dumpNum.toNat lines ++ [l] := by
  obtain ⟨before, after, rfl⟩ := List.append_of_mem hnext.1
  obtain ⟨-, hafter, hbefore⟩ := List.pairwise_append.mp hinc
  have hlow : ∀ x ∈ before, x.num ≤ rd.dumpNum.toNat := by
    intro x hx
    have hlt := hbefore x hx l List.mem_cons_self
    by_contra hgt
    have hle := hnext.2 x (List.mem_append_left _ hx) (not_le.mp hgt)
    omega
  have hhigh : ∀ x ∈ after, l.num < x.num := (List.pairwise_cons.mp hafter).1
  have hfront : before.filter (fun x => num < x.num ∧ x.num ≤ l.num) =
      before.filter (fun x => num < x.num ∧ x.num ≤ rd.dumpNum.toNat) := by
    apply List.filter_congr
    intro x hx
    have hle := hlow x hx
    simp only [decide_eq_decide]
    omega
  have hback (m : ℕ) (hm : m ≤ l.num) : after.filter (fun x => num < x.num ∧ x.num ≤ m) = [] := by
    apply List.filter_eq_nil_iff.mpr
    intro x hx
    have hlt := hhigh x hx
    simp only [decide_eq_true_eq, not_and]
    omega
  have hkeep : (l :: after).filter (fun x => num < x.num ∧ x.num ≤ l.num) = [l] := by
    rw [List.filter_cons_of_pos (by simp only [decide_eq_true_eq]; omega), hback l.num le_rfl]
  have hdrop : (l :: after).filter (fun x => num < x.num ∧ x.num ≤ rd.dumpNum.toNat) = [] := by
    rw [List.filter_cons_of_neg (by simp only [decide_eq_true_eq]; omega), hback _ hnew.le]
  rw [laterUpTo, laterUpTo, List.filter_append, List.filter_append, hfront, hkeep, hdrop, List.append_nil]

def IoRun.pending (s : IoRun) : List DumpFile :=
  if s.reader.phase = .opening then [s.reader.rd.dumpFile] else []

/-- The files of the later lines up to the open one have been visited, or are about to be. -/
structure IoRun.Inv (first : DumpFile) (s : IoRun) : Prop where
  increasing : Increasing s.host.lines
  dumpNum : s.reader.rd.dumpNum = first.num ∨
    first.num.toNat < s.reader.rd.dumpNum.toNat ∧ ∃ l ∈ s.host.lines, l.num = s.reader.rd.dumpNum.toNat
  place : s.reader.phase ≠ .finished → names (s.visited ++ s.pending) =
    first.name :: paths (laterUpTo first.num.toNat s.reader.rd.dumpNum.toNat s.host.lines)
  visited : names s.visited <+: first.name :: paths (later first.num.toNat s.host.lines)

theorem paths_initial {lines' : List IndexLine} (h : lines <+: lines') : paths lines <+: paths lines' :=
  h.map IndexLine.path

theorem IoRun.Inv.inOrder (h : s.Inv first) : s.InOrder first := by
  refine ⟨h.visited, fun hopening hfinished hall => ?_⟩
  have hplace := h.place hfinished
  rwa [IoRun.pending, if_neg hopening, List.append_nil, laterUpTo_all hall] at hplace

theorem visited_of_place {visited pending : List DumpFile} (hinc : Increasing lines)
    (hplace : names (visited ++ pending) = first.name :: paths (laterUpTo num last lines)) :
    names visited <+: first.name :: paths (later num lines) := by
  have hpre : names visited <+: names (visited ++ pending) := by
    rw [names, names, List.map_append]
    exact List.prefix_append _ _
  rw [hplace] at hpre
  exact hpre.trans (List.cons_prefix_cons.mpr ⟨rfl, paths_initial (laterUpTo_initial hinc)⟩)

theorem IoRun.Inv.host {b : HostAct} (h : s.Inv first) (hs : ioRunStep s (.host b) = some t) : t.Inv first := by
  obtain ⟨host, hhost, rfl⟩ := Option.map_eq_some_iff.mp hs
  cases b with
  | write name bytes =>
    cases hhost
    exact ⟨h.increasing, h.dumpNum, h.place, h.visited⟩
  | list l =>
    obtain ⟨hnew, hdone⟩ := Option.ite_none_right_eq_some.mp hhost
    cases hdone
    have hinc : Increasing (s.host.lines ++ [l]) := by
      apply List.pairwise_append.mpr
      refine ⟨h.increasing, List.pairwise_singleton _ _, fun l' hl' x hx => ?_⟩
      obtain rfl := List.mem_singleton.mp hx
      exact hnew l' hl'
    have hup : laterUpTo first.num.toNat s.reader.rd.dumpNum.toNat (s.host.lines ++ [l]) =
        laterUpTo first.num.toNat s.reader.rd.dumpNum.toNat s.host.lines := by
      rw [laterUpTo, List.filter_append, ← laterUpTo, List.filter_cons_of_neg, List.filter_nil, List.append_nil]
      simp only [decide_eq_true_eq, not_and]
      rcases h.dumpNum with heq | ⟨-, l', hl', hnum⟩
      · rw [heq]
        omega
      · have hlt := hnew l' hl'
        omega
    have hlater : later first.num.toNat s.host.lines <+: later first.num.toNat (s.host.lines ++ [l]) := by
      rw [later, later, List.filter_append]
      exact List.prefix_append _ _
    refine ⟨hinc, ?_, fun hp => ?_, h.visited.trans (List.cons_prefix_cons.mpr ⟨rfl, paths_initial hlater⟩)⟩
    · exact h.dumpNum.imp id fun ⟨hlt, l', hl', hnum⟩ => ⟨hlt, l', List.mem_append_left _ hl', hnum⟩
    · exact (h.place hp).trans (by rw [hup])

theorem IoRun.Inv.stays {r : Reader} (h : s.Inv first) (hphase : s.reader.phase ≠ .opening)
    (hstays : Reader.Stays s.reader.rd r) (hfinished : s.reader.phase ≠ .finished) :
    IoRun.Inv first ⟨s.host, r, s.visited⟩ := by
  have hnum := hstays.same.2
  refine ⟨h.increasing, ?_, fun _ => ?_, h.visited⟩
  · change r.rd.dumpNum = _ ∨ _ < r.rd.dumpNum.toNat ∧ ∃ l ∈ s.host.lines, l.num = r.rd.dumpNum.toNat
    rw [hnum]
    exact h.dumpNum
  · have hplace := h.place hfinished
    rw [IoRun.pending, if_neg hphase] at hplace
    change names (s.visited ++ if r.phase = .opening then [r.rd.dumpFile] else []) =
        _ :: paths (laterUpTo _ r.rd.dumpNum.toNat _)
    rw [if_neg hstays.phase, hnum]
    exact hplace

theorem IoRun.Inv.gone (h : s.Inv first) (r : Reader) (hr : r.phase = .finished) (hrd : r.rd = s.reader.rd) :
    IoRun.Inv first ⟨s.host, r, s.visited⟩ := by
  refine ⟨h.increasing, ?_, fun hp => absurd hr hp, h.visited⟩
  change r.rd.dumpNum = _ ∨ _ < r.rd.dumpNum.toNat ∧ ∃ l ∈ s.host.lines, l.num = r.rd.dumpNum.toNat
  rw [hrd]
  exact h.dumpNum

theorem IoRun.Inv.open_step (h : s.Inv first) (hs : ioRunStep s (.reader .open) = some t) : t.Inv first := by
  obtain ⟨r, hr, rfl⟩ := Option.map_eq_some_iff.mp hs
  simp only [ioThreadStep] at hr
  obtain ⟨hphase, hr⟩ := Option.ite_none_right_eq_some.mp hr
  have hplace := h.place (by simp [hphase])
  rw [IoRun.pending, if_pos hphase] at hplace
  cases hfile : s.host.file s.reader.rd.dumpFile with
  | none =>
    simp only [hfile] at hr
    cases hr
    simpa using h.gone { s.reader with phase := .finished } rfl rfl
  | some bytes =>
    simp only [hfile] at hr
    cases hr
    simp only [Option.isSome_some, and_self, if_true]
    rw [← List.append_nil (s.visited ++ [s.reader.rd.dumpFile])] at hplace
    exact ⟨h.increasing, h.dumpNum, fun _ => hplace, visited_of_place h.increasing hplace⟩

/-- A scan that is right goes on to the next line, or stays. -/
theorem IoRun.Inv.scanned {stay : ReadPhase} {result : RsCode × RsReqdumpData} (h : s.Inv first)
    (hphase : s.reader.phase ≠ .opening) (hfinished : s.reader.phase ≠ .finished)
    (hstay : stay ≠ .opening) (hright : ScanRight s.reader.rd s.host.lines (some result)) :
    IoRun.Inv first ⟨s.host, s.reader.scanned stay result, s.visited⟩ := by
  rcases hright with ⟨rd', l, hres, hnext, hnew, hto, hname, hrd⟩ | ⟨hres, -⟩
  · cases hres
    have hplace := h.place hfinished
    rw [IoRun.pending, if_neg hphase, List.append_nil] at hplace
    have hle : first.num.toNat ≤ s.reader.rd.dumpNum.toNat := by
      rcases h.dumpNum with heq | ⟨hlt, -⟩
      · rw [heq]
      · exact hlt.le
    refine ⟨h.increasing, Or.inr ⟨?_, l, hnext.1, hto.symm⟩, fun _ => ?_, h.visited⟩
    · change first.num.toNat < rd'.dumpNum.toNat
      omega
    · change names (s.visited ++ [rd'.dumpFile]) = _ :: paths (laterUpTo _ rd'.dumpNum.toNat _)
      rw [hto, laterUpTo_next h.increasing hnext hnew hle]
      simp only [names, paths, List.map_append, List.map_cons, List.map_nil, hname] at hplace ⊢
      rw [hplace, List.cons_append]
  · cases hres
    exact h.stays hphase ⟨SameFile.refl _, hstay⟩ hfinished

theorem IoRun.Inv.scan_step (h : s.Inv first) (hfits : ScanFits s.reader.rd s.host.lines)
    (hs : ioRunStep s (.reader .scan) = some t) : t.Inv first := by
  obtain ⟨r, hr, rfl⟩ := Option.map_eq_some_iff.mp hs
  simp only [reduceCtorEq, false_and, if_false]
  have hright : ScanRight s.reader.rd s.host.lines (rsHasNextBinlogFile
      (indexBytes s.host.lines) false s.reader.rd) :=
    (scanIndex_right_iff h.increasing (indexBytes_length s.host.lines)).mpr hfits
  simp only [ioThreadStep] at hr
  cases hp : s.reader.phase with
  | scanning p copied =>
    simp only [hp] at hr
    obtain ⟨result, hres, rfl⟩ := Option.map_eq_some_iff.mp hr
    exact h.scanned (by simp [hp]) (by simp [hp]) (by simp) (hres ▸ hright)
  | waiting =>
    simp only [hp] at hr
    obtain ⟨result, hres, rfl⟩ := Option.map_eq_some_iff.mp hr
    exact h.scanned (by simp [hp]) (by simp [hp]) (by simp) (hres ▸ hright)
  | _ => simp [hp] at hr

theorem IoRun.Inv.read_step {b : ReaderAct} (h : s.Inv first) (hopen : b ≠ .open) (hscan : b ≠ .scan)
    (hphase : s.reader.phase ≠ .opening) (hfinished : s.reader.phase ≠ .finished)
    (hknown : ∀ eh, s.reader.header s.host b = some eh → Known eh)
    (hs : ioRunStep s (.reader b) = some t) : t.Inv first := by
  obtain ⟨r, hr, rfl⟩ := Option.map_eq_some_iff.mp hs
  simp only [hopen, false_and, if_false]
  exact h.stays hphase (ioThreadStep_stays hscan hknown hr) hfinished

theorem IoRun.Inv.step (h : s.Inv first) (hok : s.Fits a) (hs : ioRunStep s a = some t) : t.Inv first := by
  cases a with
  | host b => exact h.host hs
  | reader b =>
    cases b with
    | «open» => exact h.open_step hs
    | scan => exact h.scan_step hok hs
    | fail =>
      obtain ⟨r, hr, rfl⟩ := Option.map_eq_some_iff.mp hs
      simp only [ioThreadStep] at hr
      split_ifs at hr
      cases hr
      simpa using h.gone { s.reader with phase := .finished } rfl rfl
    | call =>
      have htop : s.reader.phase = .top := by
        obtain ⟨r, hr, -⟩ := Option.map_eq_some_iff.mp hs
        exact (Option.ite_none_right_eq_some.mp hr).1
      exact h.read_step (by simp) (by simp) (by simp [htop]) (by simp [htop]) hok hs
    | fread n =>
      obtain ⟨p, copied, hp⟩ : ∃ p copied, s.reader.phase = .reading p copied := by
        obtain ⟨r, hr, -⟩ := Option.map_eq_some_iff.mp hs
        simp only [ioThreadStep] at hr
        cases hp : s.reader.phase with
        | reading p copied => exact ⟨p, copied, rfl⟩
        | _ => simp [hp] at hr
      exact h.read_step (by simp) (by simp) (by simp [hp]) (by simp [hp]) hok hs

def IoRun.start (h : Host) (ioSize : UInt32) (file : DumpFile) (pos : UInt32) (tables : Option (List UInt8))
    (serverId : UInt32) : IoRun :=
  ⟨h, .init ioSize file pos tables serverId, []⟩

theorem IoRun.start_inv {h : Host} {ioSize pos serverId : UInt32} {tables : Option (List UInt8)}
    (hinc : Increasing h.lines) : (IoRun.start h ioSize first pos tables serverId).Inv first := by
  have hnone : laterUpTo first.num.toNat first.num.toNat h.lines = [] := by
    apply List.filter_eq_nil_iff.mpr
    intro l _
    simp only [decide_eq_true_eq, not_and]
    omega
  refine ⟨hinc, Or.inl rfl, fun _ => ?_, List.nil_prefix⟩
  change names [first] = first.name :: paths (laterUpTo first.num.toNat first.num.toNat h.lines)
  rw [hnone]
  rfl

/-- One scan of any index is right exactly when the lines it looks at fit. -/
theorem rsHasNextBinlogFile_right_iff (rd : RsReqdumpData) {lines : List IndexLine} (hlines : Increasing lines) :
    ScanRight rd lines (rsHasNextBinlogFile (indexBytes lines) false rd) ↔ ScanFits rd lines :=
  scanIndex_right_iff hlines (indexBytes_length lines)

/-- In every run in which every scan is right and no event is unknown, the thread opens the files of
the later lines behind the first one, each once and in order. -/
theorem ioRun_inOrder {h : Host} (hinc : Increasing h.lines) (ioSize pos serverId : UInt32) (first : DumpFile)
    (tables : Option (List UInt8)) {as : List IoAct} {s : IoRun}
    (hrun : exec ioRunStep (.start h ioSize first pos tables serverId) as = some s)
    (hfits : Along ioRunStep IoRun.Fits (.start h ioSize first pos tables serverId) as) : s.InOrder first :=
  (exec_invariant_along IoRun.Fits (fun _ _ _ hI hok hs => hI.step hok hs) (IoRun.start_inv hinc) hfits hrun).inOrder

theorem index_in_order (rd : RsReqdumpData) {lines : List IndexLine} (hlines : Increasing lines) {h : Host}
    (hinc : Increasing h.lines) (ioSize pos serverId : UInt32) (first : DumpFile) (tables : Option (List UInt8))
    {as : List IoAct} {s : IoRun} (hrun : exec ioRunStep (.start h ioSize first pos tables serverId) as = some s)
    (hfits : Along ioRunStep IoRun.Fits (.start h ioSize first pos tables serverId) as) :
    (ScanRight rd lines (rsHasNextBinlogFile (indexBytes lines) false rd) ↔ ScanFits rd lines) ∧
      s.InOrder first :=
  ⟨rsHasNextBinlogFile_right_iff rd hlines, ioRun_inOrder hinc ioSize pos serverId first tables hrun hfits⟩

instance (eh : List UInt8) : Decidable (Known eh) := inferInstanceAs (Decidable (_ ≠ _))

instance (rd : RsReqdumpData) (lines : List IndexLine) : Decidable (ScanFits rd lines) :=
  decidable_of_iff (∀ l ∈ lines, (∀ l' ∈ lines, rd.dumpNum.toNat < l'.num → l.num ≤ l'.num) →
    l.path.length + 2 ≤ pathMax ∧ l.num < 2 ^ 32)
    ⟨fun h l hl => h l hl.1 hl.2, fun h l hl hleast => h l ⟨hl, hleast⟩⟩

instance (s : IoRun) : (a : IoAct) → Decidable (s.Fits a)
  | .host _ => isTrue trivial
  | .reader .scan => inferInstanceAs (Decidable (ScanFits _ _))
  | .reader .open => isTrue nofun
  | .reader .fail => isTrue nofun
  | .reader .call => decidable_of_iff (∀ eh ∈ s.reader.header s.host .call, Known eh) Iff.rfl
  | .reader (.fread n) => decidable_of_iff (∀ eh ∈ s.reader.header s.host (.fread n), Known eh) Iff.rfl

theorem sampleLine_stem : ∃ s b, ([98, 46] : List UInt8) = s ++ [b] ∧ ¬ IsDigit b := ⟨[98], 46, rfl, by decide⟩

theorem sampleLine_noNul {digits : List UInt8} (hdigits : ∀ b ∈ digits, IsDigit b) : 0 ∉ [98, 46] ++ digits := by
  intro h
  rcases List.mem_append.mp h with h | h
  · simp at h
  · exact absurd (hdigits 0 h) (by decide)

theorem sampleLine_noNewline {digits : List UInt8} (hdigits : ∀ b ∈ digits, IsDigit b) :
    newline ∉ [98, 46] ++ digits := by
  intro h
  rcases List.mem_append.mp h with h | h
  · simp [newline] at h
  · exact absurd (hdigits newline h) (by decide)

theorem sampleLine_short {digits : List UInt8} (hshort : digits.length < 100) :
    ([98, 46] ++ digits).length < pathMax := by
  simp only [List.length_append, List.length_cons, List.length_nil, pathMax]
  omega

def sampleLine (digits : List UInt8) (hne : digits ≠ []) (hdigits : ∀ b ∈ digits, IsDigit b)
    (hshort : digits.length < 100) : IndexLine where
  stem := [98, 46]
  digits := digits
  stem_last := sampleLine_stem
  digits_ne := hne
  digits_isDigit := hdigits
  noNul := sampleLine_noNul hdigits
  noNewline := sampleLine_noNewline hdigits
  short := sampleLine_short hshort

def sampleIndex : List IndexLine :=
  [sampleLine [49] (by simp) (by simp [IsDigit]) (by simp), sampleLine [50] (by simp) (by simp [IsDigit]) (by simp)]

theorem sampleFirst_short : ([98, 46, 49] : List UInt8).length ≤ pathMax := by decide

theorem sampleFirst_noNul : (0 : UInt8) ∉ [98, 46, 49] := by decide

def sampleFirst : DumpFile := ⟨[98, 46, 49], sampleFirst_short, sampleFirst_noNul⟩

def sampleHost : Host := ⟨fun _ => some binlogMagic, sampleIndex⟩

def sampleVisit : List IoAct :=
  [.reader .open, .reader .call, .reader (.fread 0), .reader .scan, .reader .open]

theorem sampleIndex_increasing : Increasing sampleIndex := by
  simp only [Increasing, sampleIndex, List.pairwise_pair]
  decide

theorem index_in_order_sample : ∃ s, exec ioRunStep (.start sampleHost 64 sampleFirst 0 none 1) sampleVisit = some s ∧
    names s.visited = [[98, 46, 49], [98, 46, 50]] ∧
    (ScanRight s.reader.rd sampleIndex (rsHasNextBinlogFile (indexBytes sampleIndex) false s.reader.rd) ↔
      ScanFits s.reader.rd sampleIndex) ∧ s.InOrder sampleFirst := by
  have hrun : (exec ioRunStep (.start sampleHost 64 sampleFirst 0 none 1) sampleVisit).map (fun s =>
      names s.visited) =
      some [[98, 46, 49], [98, 46, 50]] := by decide +kernel
  obtain ⟨s, hs, hnames⟩ := Option.map_eq_some_iff.mp hrun
  exact ⟨s, hs, hnames, index_in_order s.reader.rd sampleIndex_increasing sampleIndex_increasing 64 0 1 sampleFirst none
    hs (by decide +kernel)⟩

theorem not_mem_longPath {c : UInt8} (hstem : c ≠ 98) (hdigit : c ≠ 49) :
    c ∉ List.replicate 4094 98 ++ [(49 : UInt8)] := by
  intro h
  rcases List.mem_append.mp h with h | h
  · exact hstem (List.eq_of_mem_replicate h)
  · exact hdigit (List.mem_singleton.mp h)

/-- A path of `PATH_MAX - 1` bytes. -/
def longLine : IndexLine where
  stem := List.replicate 4094 98
  digits := [49]
  stem_last := ⟨List.replicate 4093 98, 98, List.replicate_succ', by decide⟩
  digits_ne := List.cons_ne_nil _ _
  digits_isDigit := by simp [IsDigit]
  noNul := not_mem_longPath (by decide) (by decide)
  noNewline := not_mem_longPath (by decide) (by decide)
  short := by
    rw [List.length_append, List.length_replicate]
    decide

/-- Its line does not fit the array with its newline. -/
theorem not_scanRight_longLine : ¬ ∀ (rd : RsReqdumpData) (lines : List IndexLine), Increasing lines →
    ScanRight rd lines (rsHasNextBinlogFile (indexBytes lines) false rd) := by
  intro h
  have hlong : pathMax < longLine.path.length + 2 := by
    rw [IndexLine.path, List.length_append, longLine, List.length_replicate]
    decide
  have hinc : Increasing [longLine] := List.pairwise_singleton _ _
  exact not_scanRight_long hinc hlong (h (startSession sampleFirst 0 0 none 1) [longLine] hinc)

end MySQLSyncer.Master
