import MySQLSyncer.Core.PallocSizes
import MySQLSyncer.Master.ParseDumpcmd
import MySQLSyncer.Slave.MessageChunks
import MySQLSyncer.Slave.RowSafety

/-! # A size of zero at the pool

Three callers of `rs_palloc_id` take their sizes from the network: the parser of the dump command,
the receiving thread and the row decoder. None of them looks at the id before it uses it.
-/
namespace MySQLSyncer.Slave
open Lib MySQLSyncer.Core Master

/-- The size that `rs_parse_dumpcmd` asks for: the packet length, once it has come. -/
def dumpcmdSize (stream : List UInt8) : Option ℕ := (rsSizeRead stream 4).map fun (len, _) => leNat len

theorem dumpcmd_served_iff (p : RsPool) (stream : List UInt8) :
    (∀ size, dumpcmdSize stream = some size → p.Serves size) ↔ stream.take 4 ≠ [0, 0, 0, 0] := by
  simp only [serves_iff]
  by_cases hlen : 4 ≤ stream.length
  · have hsize : dumpcmdSize stream = some (leNat (stream.take 4)) := by
      rw [dumpcmdSize, rsSizeRead, if_pos hlen]
      rfl
    rw [hsize]
    have hfour : (stream.take 4).length = 4 := by simpa using hlen
    simp only [Option.some.injEq, forall_eq']
    refine not_congr ⟨fun hzero => ?_, fun hzero => by rw [hzero]; rfl⟩
    have hbytes := leBytes_leNat (stream.take 4)
    rw [hzero, hfour] at hbytes
    exact hbytes.symm
  · refine iff_of_true (fun size hsize => ?_) (fun hzero => hlen ?_)
    · simp [dumpcmdSize, rsSizeRead, hlen] at hsize
    · have hfour := congrArg List.length hzero
      simp only [List.length_take, List.length_cons, List.length_nil] at hfour
      omega

/-- The ids that a step of the thread gives to `rs_pfree` and `rs_palloc` are valid. -/
def MessageSlots.ServedStep (s : MessageSlots) : SlotAct → Prop
  | .slot => s.phase = .ready → ∀ x, s.slots[s.wp]? = some (some x) → s.use.pool.ValidId x.id
  | .length (some (len, _)) => s.phase = .length →
    ∃ id, rsPallocId s.use.pool len.toNat = some id ∧ s.use.pool.ValidId id
  | _ => True

def MessageSlots.LengthOk (s : MessageSlots) : SlotAct → Prop
  | .length (some (len, _)) => s.phase = .length → len ≠ 0
  | _ => True

def MessageSlots.Kept (s : MessageSlots) : Prop := ∀ x, some x ∈ s.slots → s.use.pool.ValidId x.id

variable {s t : MessageSlots}

theorem allocMessage_kept {len answer : ℕ} (h : s.Kept) (hs : allocMessage s len answer = some t) : t.Kept := by
  obtain ⟨id, hid, hs⟩ := Option.bind_eq_some_iff.mp hs
  split_ifs at hs with herr hen
  · cases hs
    exact h
  · obtain ⟨⟨data, pool⟩, hcall, hs⟩ := Option.bind_eq_some_iff.mp hs
    cases hs
    have hsize : len ≠ 0 := by
      rintro rfl
      exact herr (Option.some.inj hid).symm
    obtain ⟨id', hid', hvalid⟩ := rsPallocId_valid (p := s.use.pool) hsize
    obtain rfl := Option.some.inj (hid.symm.trans hid')
    have hcalls : Relation.ReflTransGen RsPool.Call s.use.pool pool := .single (.palloc hcall)
    intro x hx
    rcases List.mem_or_eq_of_mem_set hx with hmem | hnew
    · exact (h x hmem).calls hcalls
    · obtain ⟨a, -, rfl⟩ := Option.map_eq_some_iff.mp hnew.symm
      exact hvalid.calls hcalls

theorem slotStep_kept {a : SlotAct} (h : s.Kept) (hs : slotStep s a = some t) : t.Kept := by
  cases a with
  | connect =>
    simp only [slotStep] at hs
    split_ifs at hs
    cases hs
    exact h
  | slot =>
    simp only [slotStep] at hs
    split_ifs at hs
    cases hslot : s.slots[s.wp]? with
    | none => simp [hslot] at hs
    | some x =>
      cases x with
      | none =>
        simp only [hslot] at hs
        cases hs
        exact h
      | some x =>
        simp only [hslot] at hs
        obtain ⟨use, hcall, rfl⟩ := Option.map_eq_some_iff.mp hs
        obtain ⟨pool, hfree, rfl⟩ := Option.map_eq_some_iff.mp hcall
        exact fun y hy => (h y hy).calls (.single (.pfree hfree))
  | length outcome =>
    cases outcome with
    | none =>
      simp only [slotStep] at hs
      split_ifs at hs
      cases hs
      exact h
    | some r =>
      simp only [slotStep] at hs
      split_ifs at hs
      exact allocMessage_kept h hs
  | payload ok =>
    simp only [slotStep] at hs
    split_ifs at hs
    all_goals
      cases hs
      exact h
  | consume =>
    simp only [slotStep] at hs
    split_ifs at hs
    cases hs
    exact h

theorem servedStep_iff (h : s.Kept) (a : SlotAct) : s.ServedStep a ↔ s.LengthOk a := by
  cases a with
  | slot => exact iff_of_true (fun _ x hx => h x (List.mem_of_getElem? hx)) trivial
  | length outcome =>
    cases outcome with
    | none => exact Iff.rfl
    | some r =>
      obtain ⟨len, answer⟩ := r
      refine imp_congr_right fun _ => ?_
      constructor
      · rintro ⟨id, hid, hvalid⟩ rfl
        obtain rfl := Option.some.inj hid
        exact not_validId_err _ hvalid
      · intro hlen
        exact rsPallocId_valid fun hzero => hlen (UInt32.toNat_inj.mp hzero)
  | connect => exact Iff.rfl
  | payload ok => exact Iff.rfl
  | consume => exact Iff.rfl

theorem slots_served_iff (use : PoolUse) (num : ℕ) (as : List SlotAct) :
    Along slotStep MessageSlots.ServedStep (MessageSlots.init use num) as ↔
      Along slotStep MessageSlots.LengthOk (MessageSlots.init use num) as := by
  have hinit : (MessageSlots.init use num).Kept := fun x hx =>
    absurd (List.eq_of_mem_replicate hx) (Option.some_ne_none x)
  exact along_iff_of_inv (fun s a t h hs => slotStep_kept h hs) (fun s a h => servedStep_iff h a) hinit

section

variable (env : RowEnv) (d : RowData) (type : UInt8) (h : RowHead)

/-- The parse handle of column `k` sets `dl` to `size`, and the value goes to the pool. -/
structure ColumnAsks (a : RowArrays) (k : ℕ) (c : RowCursor) (size : ℕ) : Prop where
  parsed : ∃ t parse packLen, Present a k c t ∧ (rsColumnMeta t).parseHandle = some parse ∧
    parse (a.body.drop c.p) (a.cm.drop c.cmp) (rsColumnMeta t).metaLen (rsColumnMeta t).fixedLen =
        some (packLen, size)
  pos : (env.pasArr k).pos ≠ -1
  alloc : (env.pasArr k).alloc = rsDmDataPool

/-- The column loop over the row at `s` comes to `rs_palloc_id` with `size`. -/
def RowAsks (s : RowState) (size : ℕ) : Prop :=
  s.p < d.body.length ∧ s.p + h.nullLen ≤ d.body.length ∧ ∃ k < h.cn.toNat, ∃ c r,
    rsDmBinlogColumns env (rowArrays d type h s) k 0 (rowCursor h s) = .done (c, r) ∧
    ColumnAsks env (rowArrays d type h s) k c size

end

/-- `rs_dm_binlog_row` comes to `rs_palloc_id` with `size`. -/
def DecoderAsks (env : RowEnv) (data : List UInt8) (type : UInt8) (size : ℕ) : Prop :=
  ∃ d h s, rsDmBinlogRow data data.length = some d ∧ rowHead type d.body = some h ∧
    Relation.ReflTransGen (RowTurn env d type h) (rowStart h) s ∧ RowAsks env d type h s size

section

variable (env : RowEnv) (d : RowData) (type : UInt8) (h : RowHead)

inductive RowPassed (s : RowState) : RowState → Prop
  | intro {c : RowCursor} {handle : RowHandle} {before : ℕ}
      (hreads : RowReads env h.cn.toNat d type h h.cn.toNat s c)
      (hhandle : rowHandle type s.before = .done (handle, before)) (hok : env.Accepts handle s.row) :
      RowPassed s ⟨c.p, before, c.columnMeta, c.pooled, s.row + 1⟩

/-- The row at `s` has an empty value for the pool, and is there up to that column. -/
def RowPoolsEmpty (s : RowState) : Prop :=
  ∃ k < h.cn.toNat, ∃ c t packLen, RowReads env h.cn.toNat d type h k s c ∧
    Present (rowArrays d type h s) k c t ∧ Measured t (d.cm.drop c.cmp) (d.body.drop c.p) packLen 0 ∧
    (env.pasArr k).pos ≠ -1 ∧ (env.pasArr k).alloc = rsDmDataPool

end

/-- The payload is laid out so far that its rows come to an empty value for the pool. -/
def PoolsEmpty (env : RowEnv) (data : List UInt8) (type : UInt8) : Prop :=
  ∃ ct cm body h s, ct.length < 2 ^ 32 ∧ cm.length < 2 ^ 32 ∧ data = rowLayout ct cm body ∧ HeadFits type body h ∧
    Relation.ReflTransGen (RowPassed env ⟨ct.length, ct, cm.length, cm, body⟩ type h) (rowStart h) s ∧
    RowPoolsEmpty env ⟨ct.length, ct, cm.length, cm, body⟩ type h s

variable {env : RowEnv} {d : RowData} {type : UInt8} {h : RowHead} {r r' : RowState} {a : RowArrays} {n : ℕ}
  {c : RowCursor}

theorem looksUpIn_all (env : RowEnv) (a : RowArrays) {k : ℕ} (hk : k ≤ n) (c : RowCursor) :
    LooksUpIn env n a k 0 c := by
  intro i hi c' r' _ _
  omega

theorem rowTurn_iff : RowTurn env d type h r r' ↔ RowPassed env d type h r r' := by
  constructor
  · rintro ⟨hmore, trace, hstep⟩
    obtain ⟨c, handle, before, stores, hreads, -, hhandle, hok, rfl⟩ :=
      rowStep_reads hmore (fun _ => looksUpIn_all env _ le_rfl _) hstep
    exact .intro hreads hhandle hok
  · rintro ⟨hreads, hhandle, hok⟩
    exact ⟨hreads.more, hreads.accepted hhandle hok⟩

theorem rowAsks_zero_iff : RowAsks env d type h r 0 ↔ RowPoolsEmpty env d type h r := by
  constructor
  · rintro ⟨hmore, hnull, k, hk, c, stores, hcols, ⟨⟨t, parse, packLen, hpresent, hhandle, hparse⟩, hpos, halloc⟩⟩
    have hfields := columns_fields (looksUpIn_all env _ hk.le _) hcols
    exact ⟨k, hk, c, t, packLen, ⟨hmore, hnull, hfields⟩, hpresent,
        measured_iff.mpr ⟨parse, hhandle, hparse⟩, hpos, halloc⟩
  · rintro ⟨k, hk, c, t, packLen, hreads, hpresent, hsize, hpos, halloc⟩
    obtain ⟨parse, hhandle, hparse⟩ := measured_iff.mp hsize
    obtain ⟨stores, hcols⟩ := hreads.fields.done
    exact ⟨hreads.more, hreads.nullBits, k, hk, c, stores, hcols,
      ⟨⟨t, parse, packLen, hpresent, hhandle, hparse⟩, hpos, halloc⟩⟩

theorem decoderAsks_zero_iff (env : RowEnv) (data : List UInt8) (type : UInt8) :
    DecoderAsks env data type 0 ↔ PoolsEmpty env data type := by
  have hturn (d : RowData) (h : RowHead) : RowTurn env d type h = RowPassed env d type h := by
    funext r r'
    exact propext rowTurn_iff
  constructor
  · rintro ⟨d, h, s, hd, hh, hreach, hasks⟩
    obtain ⟨ct, cm, body, hct, hcm, hdata, rfl⟩ := rsDmBinlogRow_eq_some.mp hd
    rw [hturn] at hreach
    exact ⟨ct, cm, body, h, s, hct, hcm, hdata, rowHead_eq_some.mp hh, hreach, rowAsks_zero_iff.mp hasks⟩
  · rintro ⟨ct, cm, body, h, s, hct, hcm, hdata, hh, hreach, hempty⟩
    rw [← hturn] at hreach
    exact ⟨_, h, s, rsDmBinlogRow_eq_some.mpr ⟨ct, cm, body, hct, hcm, hdata, rfl⟩, rowHead_eq_some.mpr hh, hreach,
      rowAsks_zero_iff.mpr hempty⟩

theorem decoder_served_iff (p : RsPool) (env : RowEnv) (data : List UInt8) (type : UInt8) :
    (∀ size, DecoderAsks env data type size → p.Serves size) ↔ ¬ PoolsEmpty env data type := by
  rw [← decoderAsks_zero_iff]
  simp only [serves_iff]
  constructor
  · exact fun hall hzero => hall 0 hzero rfl
  · rintro hzero size hasks rfl
    exact hzero hasks

/-- Whatever the pool, the packet, the run of the receiving thread and the payload: the ids are
valid if and only if no packet or message has a length of zero, and no value for the pool is empty. -/
theorem pool_ids_valid_iff (p : RsPool) :
    (∀ stream : List UInt8, (∀ size, dumpcmdSize stream = some size → p.Serves size) ↔
      stream.take 4 ≠ [0, 0, 0, 0]) ∧
    (∀ (live : List Chunk) (num : ℕ) (as : List SlotAct),
      Along slotStep MessageSlots.ServedStep (MessageSlots.init ⟨p, live⟩ num) as ↔
        Along slotStep MessageSlots.LengthOk (MessageSlots.init ⟨p, live⟩ num) as) ∧
    (∀ (env : RowEnv) (data : List UInt8) (type : UInt8),
      (∀ size, DecoderAsks env data type size → p.Serves size) ↔ ¬ PoolsEmpty env data type) :=
  ⟨dumpcmd_served_iff p, fun live num as => slots_served_iff ⟨p, live⟩ num as, decoder_served_iff p⟩

def samplePooled : RowEnv :=
  ⟨fun i => ⟨16 * i, rsDmDataPool, 0⟩, defaultPool, fun _ => true, fun _ => none, none⟩

/-- An insertion of one row into a table of one column of type `VARCHAR`: the empty string. -/
def sampleEmpty : List UInt8 := rowLayout [15] [10, 0] [0, 0, 0, 0, 0, 0, 0, 0, 1, 1, 0, 0]

theorem sampleEmpty_asks : DecoderAsks samplePooled sampleEmpty rsWriteRowsEvent 0 := by
  refine ⟨⟨1, [15], 2, [10, 0], [0, 0, 0, 0, 0, 0, 0, 0, 1, 1, 0, 0]⟩, ⟨1, 1, [1], [], 10⟩, _, by decide +kernel, rfl,
    .refl, by decide, by decide, 0, by decide, _, _, rfl, ?_⟩
  exact ⟨⟨15, rsBinlogParseVarchar, 1, ⟨rfl, rfl, rfl⟩, rfl, rfl⟩, by decide, rfl⟩

/-- The id for the empty string is `RS_ERR`. -/
theorem not_pool_ids_valid : ¬ ∀ (p : RsPool) (env : RowEnv) (data : List UInt8) (type : UInt8) (size : ℕ),
    DecoderAsks env data type size → p.Serves size := by
  intro hall
  exact absurd rfl ((serves_iff samplePool 0).mp (hall samplePool samplePooled sampleEmpty rsWriteRowsEvent 0 sampleEmpty_asks))

end MySQLSyncer.Slave
