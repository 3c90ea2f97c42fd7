import MySQLSyncer.Master.EventStep

/-! # How often a session says its position

A call of `rs_binlog_create_data` with `mev == 0` counts up and puts a message only when the count
is a multiple of `RS_SKIP_DATA_FLUSH_NUM`. The branch that puts none sets the count to one.
-/
namespace MySQLSyncer.Master
open Lib MySQLSyncer.Core

/-- The session when an event handler has returned with `RS_OK`. -/
def handlerReturn (h : Handler) (rd : RsReqdumpData) (body : List UInt8) : Option RsReqdumpData :=
  match handlerStart h rd with
  | .ret code r => if code = .ok then some r else none
  | .read r => (handlerBody h r body).bind fun (code, r) => if code = .ok then some r else none
  | .wait _ => none

/-- The call of `rs_binlog_create_data` for the position behind an event, if there is one, and
whether it puts a message in the ring. -/
def positionCall (rd : RsReqdumpData) (e : Event) : Option Bool := do
  let h ← e.handler
  let r ← handlerReturn h (rsBinlogHeaderHandler rd e.head) e.body
  if r.binlogInfo.publishes ∧ r.binlogInfo.mev = 0 then
    (rsBinlogCreateData r []).map fun (_, u) => decide (u.ring = r.ring ++ [positionMessage r])
  else none

def stepCalls (s : Session) : Item → List Bool
  | .event e => if s.waiting then [] else (positionCall s.rd e).toList
  | .file _ _ => []

def positionCalls : Session → List Item → List Bool
  | _, [] => []
  | s, i :: is => stepCalls s i ++ match sessionStep s i with
    | none => []
    | some t => positionCalls t is

/-- Among every `RS_SKIP_DATA_FLUSH_NUM` calls in a row, one puts a message. -/
def Advances (calls : List Bool) : Prop :=
  ∀ i, i + rsSkipDataFlushNum.toNat ≤ calls.length →
    ∃ k, i ≤ k ∧ k < i + rsSkipDataFlushNum.toNat ∧ calls[k]? = some true

variable {s t : Session} {i : Item} {rd r : RsReqdumpData} {e : Event} {h : Handler} {body : List UInt8}

theorem runHandler_eq (hret : handlerReturn h rd body = some r) : runHandler h rd body = finishTurn (.ok, r) := by
  unfold handlerReturn at hret
  unfold runHandler
  cases hstart : handlerStart h rd with
  | ret code r' =>
    simp only [hstart] at hret ⊢
    split_ifs at hret with hcode
    cases hret
    rw [hcode]
  | read r' =>
    simp only [hstart] at hret ⊢
    obtain ⟨⟨code, u⟩, hbody, hret⟩ := Option.bind_eq_some_iff.mp hret
    split_ifs at hret with hcode
    cases hret
    rw [hbody, ← hcode]
    rfl
  | wait r' => simp [hstart] at hret

/-- A handler that does not return so ends the session, or waits for the next file. -/
theorem runHandler_none {t : Turn} (hret : handlerReturn h rd body = none) (ht : runHandler h rd body = some t) :
    t = .exit ∨ t = .wait rd := by
  unfold handlerReturn at hret
  unfold runHandler at ht
  cases hstart : handlerStart h rd with
  | ret code r =>
    simp only [hstart] at hret ht
    split_ifs at hret with hcode
    rw [finishTurn, if_neg hcode] at ht
    exact Or.inl (Option.some.inj ht).symm
  | read r =>
    simp only [hstart] at hret ht
    obtain ⟨⟨code, u⟩, hbody, ht⟩ := Option.bind_eq_some_iff.mp ht
    rw [hbody, Option.bind_some] at hret
    dsimp only at hret
    split_ifs at hret with hcode
    rw [finishTurn, if_neg hcode] at ht
    exact Or.inl (Option.some.inj ht).symm
  | wait r =>
    simp only [hstart] at ht
    have hstarted := handlerStart_started h rd
    rw [hstart] at hstarted
    cases hstarted
    exact Or.inr (Option.some.inj ht).symm

theorem header_skipN (rd : RsReqdumpData) (eh : List UInt8) :
    (rsBinlogHeaderHandler rd eh).binlogInfo.skipN = rd.binlogInfo.skipN := rfl

/-- A call puts a message when the count is a multiple, and counts up; else it sets the count to one. -/
theorem createData_position (hmev : r.binlogInfo.mev = 0) : ∃ u, rsBinlogCreateData r [] = some (.ok, u) ∧
    decide (u.ring = r.ring ++ [positionMessage r]) = decide (r.binlogInfo.skipN % rsSkipDataFlushNum = 0) ∧
    u.binlogInfo.skipN = if r.binlogInfo.skipN % rsSkipDataFlushNum = 0 then r.binlogInfo.skipN + 1 else 1 := by
  by_cases hskip : r.binlogInfo.skipN % rsSkipDataFlushNum = 0
  · refine ⟨_, by rw [rsBinlogCreateData, if_neg (fun hc => hc.2 hskip), createMessage, if_pos hmev]; rfl, ?_, ?_⟩
    · simp [hskip, positionMessage]
    · simp [hskip, hmev]
  · refine ⟨_, by rw [rsBinlogCreateData, if_pos ⟨hmev, hskip⟩], ?_, ?_⟩
    · simp [hskip]
    · simp [hskip]

theorem createData_row {data : List UInt8} {u : RsReqdumpData} {code : RsCode} (hmev : r.binlogInfo.mev ≠ 0)
    (hs : rsBinlogCreateData r data = some (code, u)) : u.binlogInfo.skipN = r.binlogInfo.skipN := by
  rw [rsBinlogCreateData, if_neg (fun hc => hmev hc.1)] at hs
  obtain ⟨m, -, hs⟩ := Option.bind_eq_some_iff.mp hs
  cases hs
  simp [hmev]

theorem handlerReturn_skipN (hrows : ∀ mev, h = .rows mev → mev ≠ 0) (hret : handlerReturn h rd body = some r) :
    r.binlogInfo.skipN = rd.binlogInfo.skipN := by
  have heffect : Effect rd body h r := by
    unfold handlerReturn at hret
    rcases @handler_effect rd h body hrows with ⟨-, -, hwait⟩ | ⟨u, hu, he⟩ | ⟨u, hu, hbody⟩
    · rw [hwait] at hret
      cases hret
    · rw [hu] at hret
      cases hret
      exact he
    · rw [hu] at hret
      obtain ⟨⟨code, v⟩, hv, hret⟩ := Option.bind_eq_some_iff.mp hret
      obtain ⟨rfl, he⟩ := hbody code v hv
      cases hret
      exact he
  cases heffect <;> rfl

/-- The finish handler counts exactly when it calls for the position. -/
theorem finishTurn_skipN (hpos : ¬ (r.binlogInfo.publishes ∧ r.binlogInfo.mev = 0)) {u : RsReqdumpData}
    (hfinish : finishTurn (.ok, r) = some (.top u)) : u.binlogInfo.skipN = r.binlogInfo.skipN := by
  rw [finishTurn, if_pos rfl] at hfinish
  obtain ⟨⟨code, v⟩, hrun, htop⟩ := Option.map_eq_some_iff.mp hfinish
  dsimp only at htop hrun
  split_ifs at htop with hcode
  cases htop
  unfold rsBinlogFinishHandler at hrun
  by_cases hpub : r.binlogInfo.publishes
  · rw [if_pos hpub] at hrun
    obtain ⟨⟨code1, w⟩, hcreate, hrun⟩ := Option.bind_eq_some_iff.mp hrun
    have hw := createData_row (fun hmev => hpos ⟨hpub, hmev⟩) hcreate
    dsimp only at hrun
    split_ifs at hrun
    · cases hrun
      exact hw
    · cases hrun
      exact hw
  · rw [if_neg hpub] at hrun
    cases hrun
    rfl

inductive Counts (n : UInt32) : List Bool → UInt32 → Prop
  | none : Counts n [] n
  | put (hn : n % rsSkipDataFlushNum = 0) : Counts n [true] (n + 1)
  | skip (hn : n % rsSkipDataFlushNum ≠ 0) : Counts n [false] 1

theorem positionCall_some {b : Bool} (hcall : positionCall rd e = some b) : ∃ h r, e.handler = some h ∧
    handlerReturn h (rsBinlogHeaderHandler rd e.head) e.body = some r ∧ r.binlogInfo.publishes ∧
        r.binlogInfo.mev = 0 ∧
    b = decide (r.binlogInfo.skipN % rsSkipDataFlushNum = 0) := by
  obtain ⟨h, hh, hcall⟩ := Option.bind_eq_some_iff.mp hcall
  obtain ⟨r, hret, hcall⟩ := Option.bind_eq_some_iff.mp hcall
  obtain ⟨⟨hpub, hmev⟩, hcall⟩ := Option.ite_none_right_eq_some.mp hcall
  obtain ⟨u, hcreate, hput, -⟩ := createData_position hmev
  rw [hcreate, Option.map_some, Option.some.injEq] at hcall
  exact ⟨h, r, hh, hret, hpub, hmev, hcall.symm.trans hput⟩

theorem turn_of_call (hpub : r.binlogInfo.publishes) (hmev : r.binlogInfo.mev = 0) : ∃ u,
    finishTurn (.ok, r) = some (.top u) ∧
    u.binlogInfo.skipN = if r.binlogInfo.skipN % rsSkipDataFlushNum = 0 then r.binlogInfo.skipN + 1 else 1 := by
  obtain ⟨u, hcreate, -, hn⟩ := createData_position hmev
  refine ⟨{ u with binlogInfo := { u.binlogInfo with sent := false, skip := false } }, ?_, hn⟩
  rw [finishTurn, if_pos rfl, rsBinlogFinishHandler, if_pos hpub, hcreate]
  rfl

theorem handler_mev (hh : e.handler = some h) (mev : UInt8) (hm : h = .rows mev) : mev ≠ 0 :=
  IsRowsEvent.ne_zero (rsBinlogFuncs_rows (hm ▸ hh))

theorem step_of_call {b : Bool} (hw : s.waiting = false) (hcall : positionCall s.rd e = some b) :
    ∃ t, sessionStep s (.event e) = some t ∧ Counts s.rd.binlogInfo.skipN [b] t.rd.binlogInfo.skipN := by
  obtain ⟨h, r, hh, hret, hpub, hmev, rfl⟩ := positionCall_some hcall
  obtain ⟨u, hturn, hn⟩ := turn_of_call hpub hmev
  have hskip : r.binlogInfo.skipN = s.rd.binlogInfo.skipN :=
    (handlerReturn_skipN (handler_mev hh) hret).trans (header_skipN s.rd e.head)
  refine ⟨⟨u, false⟩, ?_, ?_⟩
  · simp only [sessionStep, hw, turn, hh, runHandler_eq hret, hturn]
    rfl
  · rw [hskip] at hn ⊢
    change Counts _ _ u.binlogInfo.skipN
    rw [hn]
    by_cases hzero : s.rd.binlogInfo.skipN % rsSkipDataFlushNum = 0
    · simpa [hzero] using Counts.put hzero
    · simpa [hzero] using Counts.skip hzero

theorem step_without_call (hcall : positionCall s.rd e = none) (hs : sessionStep s (.event e) = some t) :
    t.rd.binlogInfo.skipN = s.rd.binlogInfo.skipN := by
  cases hw : s.waiting with
  | true => simp [sessionStep, hw] at hs
  | false =>
    simp only [sessionStep, hw, Bool.false_eq_true, if_false] at hs
    obtain ⟨u, hu, hs⟩ := Option.bind_eq_some_iff.mp hs
    unfold turn at hu
    cases hh : e.handler with
    | none =>
      rw [hh] at hu
      cases hu
      cases hs
      rfl
    | some h =>
      rw [hh] at hu
      dsimp only at hu
      cases hret : handlerReturn h (rsBinlogHeaderHandler s.rd e.head) e.body with
      | some r =>
        rw [runHandler_eq hret] at hu
        have hskip : r.binlogInfo.skipN = s.rd.binlogInfo.skipN :=
          (handlerReturn_skipN (handler_mev hh) hret).trans (header_skipN s.rd e.head)
        have hpos : ¬ (r.binlogInfo.publishes ∧ r.binlogInfo.mev = 0) := by
          intro hpos
          obtain ⟨v, hcreate, -⟩ := createData_position hpos.2
          simp [positionCall, hh, hret, hpos, hcreate] at hcall
        cases u with
        | top v =>
          cases hs
          rw [← hskip]
          exact finishTurn_skipN hpos hu
        | exit => cases hs
        | reopen v | wait v =>
          rw [finishTurn, if_pos rfl] at hu
          obtain ⟨⟨code, w⟩, -, hw⟩ := Option.map_eq_some_iff.mp hu
          dsimp only at hw
          split_ifs at hw
      | none =>
        rcases runHandler_none hret hu with rfl | rfl
        · cases hs
        · cases hs
          rfl

theorem stepCalls_none (hs : sessionStep s i = none) : stepCalls s i = [] := by
  cases i with
  | file name num => rfl
  | event e =>
    cases hw : s.waiting with
    | true => simp [stepCalls, hw]
    | false =>
      cases hcall : positionCall s.rd e with
      | none => simp [stepCalls, hw, hcall]
      | some b =>
        obtain ⟨t, ht, -⟩ := step_of_call hw hcall
        rw [hs] at ht
        cases ht

theorem stepCalls_counts (hs : sessionStep s i = some t) :
    Counts s.rd.binlogInfo.skipN (stepCalls s i) t.rd.binlogInfo.skipN := by
  cases i with
  | file name num =>
    cases hs
    exact .none
  | event e =>
    cases hw : s.waiting with
    | true => simp [sessionStep, hw] at hs
    | false =>
      cases hcall : positionCall s.rd e with
      | none =>
        simp only [stepCalls, hw, hcall, step_without_call hcall hs]
        exact .none
      | some b =>
        obtain ⟨u, hu, hcounts⟩ := step_of_call hw hcall
        rw [hs] at hu
        cases hu
        simpa [stepCalls, hw, hcall] using hcounts

/-- Once the count is one, no call puts a message any more. -/
theorem positionCalls_one (hn : s.rd.binlogInfo.skipN = 1) (is : List Item) :
    ∀ b ∈ positionCalls s is, b = false := by
  induction is generalizing s with
  | nil => nofun
  | cons i is ih =>
    cases hs : sessionStep s i with
    | none => simp [positionCalls, hs, stepCalls_none hs]
    | some t =>
      have hcounts := stepCalls_counts hs
      rw [hn] at hcounts
      simp only [positionCalls, hs, List.mem_append]
      generalize stepCalls s i = calls at hcounts
      generalize ht : t.rd.binlogInfo.skipN = n at hcounts
      cases hcounts with
      | none => simpa using ih ht
      | put hzero => exact absurd hzero (by decide)
      | skip => simpa using ih ht

/-- At the start of a session, the first call puts a message, and it is the only one. -/
theorem positionCalls_zero (hn : s.rd.binlogInfo.skipN = 0) (is : List Item) : positionCalls s is = [] ∨
    ∃ rest, positionCalls s is = true :: rest ∧ ∀ b ∈ rest, b = false := by
  induction is generalizing s with
  | nil => exact Or.inl rfl
  | cons i is ih =>
    cases hs : sessionStep s i with
    | none => exact Or.inl (by simp [positionCalls, hs, stepCalls_none hs])
    | some t =>
      have hcounts := stepCalls_counts hs
      rw [hn] at hcounts
      simp only [positionCalls, hs]
      generalize stepCalls s i = calls at hcounts
      generalize ht : t.rd.binlogInfo.skipN = n at hcounts
      cases hcounts with
      | none => simpa using ih ht
      | put => exact Or.inr ⟨_, rfl, positionCalls_one ht is⟩
      | skip hzero => exact absurd (by decide) hzero

theorem advances_iff_of_first {calls : List Bool}
    (h : calls = [] ∨ ∃ rest, calls = true :: rest ∧ ∀ b ∈ rest, b = false) :
    Advances calls ↔ calls.length ≤ rsSkipDataFlushNum.toNat := by
  rcases h with rfl | ⟨rest, rfl, hrest⟩
  · refine iff_of_true (fun i hi => ?_) (Nat.zero_le _)
    have hpos : 0 < rsSkipDataFlushNum.toNat := by decide
    simp only [List.length_nil] at hi
    omega
  · constructor
    · intro hadv
      by_contra hlong
      obtain ⟨k, hk, -, hput⟩ := hadv 1 (by omega)
      obtain ⟨k, rfl⟩ := Nat.exists_eq_add_of_le' hk
      exact absurd (hrest true (List.mem_of_getElem? (by simpa using hput))) (by decide)
    · intro hshort i hi
      obtain rfl : i = 0 := by omega
      exact ⟨0, le_rfl, by decide, rfl⟩

/-- In a run of a session, every `RS_SKIP_DATA_FLUSH_NUM` calls in a row put a message if and only
if there are no more calls than that. -/
theorem positionCalls_advances_iff (file : DumpFile) (num pos : UInt32) (tables : Option (List UInt8))
    (serverId : UInt32) (is : List Item) :
    Advances (positionCalls ⟨startSession file num pos tables serverId, false⟩ is) ↔
      (positionCalls ⟨startSession file num pos tables serverId, false⟩ is).length ≤ rsSkipDataFlushNum.toNat :=
  advances_iff_of_first (positionCalls_zero rfl is)

def sampleFormat : Event :=
  ⟨[0, 0, 0, 0, 15, 1, 0, 0, 0, 19, 0, 0, 0, 0, 0, 0, 0, 0, 0], [], rfl, rfl⟩

/-- Outside a transaction and with an open filter, such an event calls for the position and
leaves both as they are. -/
theorem format_step (hidle : s.rd.Idle) (hw : s.waiting = false) (hflags : s.rd.flags = ⟨false, false⟩) :
    ∃ b t, positionCall s.rd sampleFormat = some b ∧ sessionStep s (.event sampleFormat) = some t ∧
      t.rd.Idle ∧ t.waiting = false ∧ t.rd.flags = ⟨false, false⟩ := by
  obtain ⟨hfilter, htran⟩ := Flags.mk.inj hflags
  have hhandler : sampleFormat.handler = some .skip := rfl
  have hret : handlerReturn .skip (rsBinlogHeaderHandler s.rd sampleFormat.head) sampleFormat.body =
      some (rsBinlogHeaderHandler s.rd sampleFormat.head).setSkip := rfl
  have hpub : (rsBinlogHeaderHandler s.rd sampleFormat.head).setSkip.binlogInfo.publishes :=
    Or.inl ⟨by simp [RsReqdumpData.setSkip, rsBinlogHeaderHandler, htran],
      by simp [RsReqdumpData.setSkip, rsBinlogHeaderHandler, hidle.sent],
      by simp [RsReqdumpData.setSkip, rsBinlogHeaderHandler, hfilter]⟩
  have hmev : (rsBinlogHeaderHandler s.rd sampleFormat.head).setSkip.binlogInfo.mev = 0 := hidle.mev
  obtain ⟨v, hcreate, -⟩ := createData_position hmev
  cases hcall : positionCall s.rd sampleFormat with
  | none => simp [positionCall, hhandler, hret, hpub, hmev, hcreate] at hcall
  | some b =>
    obtain ⟨t, ht, -⟩ := step_of_call hw hcall
    obtain ⟨-, hstep⟩ := sessionStep_event hidle ht
    refine ⟨b, t, rfl, ht, hstep.idle hidle, ?_, ?_⟩
    · cases hstep with
      | unknown hh => rfl
      | stopped hh hid => exact absurd (hhandler.symm.trans hh) (by decide)
      | handled hh he hpos => rfl
    · rw [hstep.flags, hflags]
      rfl

theorem format_calls (hidle : s.rd.Idle) (hw : s.waiting = false) (hflags : s.rd.flags = ⟨false, false⟩) (n : ℕ) :
    (positionCalls s (List.replicate n (.event sampleFormat))).length = n := by
  induction n generalizing s with
  | zero => rfl
  | succ n ih =>
    obtain ⟨b, t, hcall, hs, hidle', hw', hflags'⟩ := format_step hidle hw hflags
    simp [List.replicate_succ, positionCalls, stepCalls, hw, hcall, hs, ih hidle' hw' hflags']

/-- A row event of a table that is not listed opens the filter; format description events follow. -/
def sampleQuiet : List Item := .event (sampleRows 97) :: List.replicate 900 (.event sampleFormat)

/-- After the first message of a session, nine hundred calls put none. -/
theorem not_advances : ¬ ∀ (file : DumpFile) (num pos : UInt32) (tables : Option (List UInt8)) (serverId : UInt32)
    (is : List Item), Advances (positionCalls ⟨startSession file num pos tables serverId, false⟩ is) := by
  intro h
  have hstart : (⟨startSession sampleFile 1 4 none 1, false⟩ : Session).rd.Idle := ⟨rfl, rfl, rfl, rfl⟩
  obtain ⟨t, hcalls, hs, hw, hflags⟩ : ∃ t,
      stepCalls ⟨startSession sampleFile 1 4 none 1, false⟩ (.event (sampleRows 97)) = [true] ∧
      sessionStep ⟨startSession sampleFile 1 4 none 1, false⟩ (.event (sampleRows 97)) = some t ∧
      t.waiting = false ∧ t.rd.flags = ⟨false, false⟩ := ⟨_, by decide +kernel, rfl, rfl, rfl⟩
  have hidle : t.rd.Idle := (sessionStep_event hstart hs).2.idle hstart
  have hlen : (positionCalls ⟨startSession sampleFile 1 4 none 1, false⟩ sampleQuiet).length = 901 := by
    rw [sampleQuiet, positionCalls, hcalls, hs, List.length_append, format_calls hidle hw hflags]
    rfl
  have hshort := (advances_iff_of_first (positionCalls_zero rfl _)).mp (h sampleFile 1 4 none 1 sampleQuiet)
  rw [hlen] at hshort
  exact absurd hshort (by decide)

end MySQLSyncer.Master
