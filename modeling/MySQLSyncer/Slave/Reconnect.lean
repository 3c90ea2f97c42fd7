import MySQLSyncer.Slave.IoThread

/-! # The stream after a reconnect

The invariant splits the stream of the current connection into the stored messages and
the bytes still in the buffer or in the call under way.
-/
namespace MySQLSyncer.Slave
open Lib MySQLSyncer.Core

variable {t u : IoThread} {r : Recv} {l w copied chunk data : List UInt8} {n s : ℕ} {b : RsBuf}
  {code : RsCode}

/-- What a call for `n` bytes does with the pending bytes `w`, if a failure leaves none. -/
def Delivers (w : List UInt8) (n : ℕ) : Recv → Prop
  | .ret .ok data b => w = data ++ b.bytes ∧ data.length = n
  | .ret _ _ b => b.bytes = []
  | .loop copied s b => w = copied ++ b.bytes ∧ copied.length + s = n ∧ b.bytes.length < s

def bufOf : Recv → RsBuf
  | .ret _ _ b => b
  | .loop _ _ b => b

theorem rsRecvTmpbuf_delivers (h : b.size < n → b.bytes = []) :
    Delivers b.bytes n (rsRecvTmpbuf b n) ∧ (bufOf (rsRecvTmpbuf b n)).size = b.size := by
  rcases rsRecvTmpbuf_cases b n with ⟨hlt, hr⟩ | ⟨data, c, hw, hlen, hc, hr⟩ | ⟨c, hnil, hc, hlt, hr⟩
  · rw [hr]
    exact ⟨h hlt, rfl⟩
  · rw [hr]
    exact ⟨⟨hw, hlen⟩, hc⟩
  · rw [hr]
    refine ⟨⟨?_, ?_, ?_⟩, hc⟩
    · rw [hnil, List.append_nil]
    · omega
    · rw [hnil, List.length_nil]
      omega

theorem rsRecvTmpbufRead_delivers (hn : copied.length + s = n) (hfail : chunk = [] → b.bytes = [])
    (h : rsRecvTmpbufRead copied s b chunk = some r) :
    Delivers (copied ++ (b.bytes ++ chunk)) n r ∧ (bufOf r).size = b.size := by
  rcases rsRecvTmpbufRead_cases h with ⟨hnil, rfl⟩ | ⟨c, hw, hc, hlt, rfl⟩ | ⟨data, c, hw, hlen, hc, rfl⟩
  · exact ⟨hfail hnil, rfl⟩
  · exact ⟨⟨by rw [hw], hn, hlt⟩, hc⟩
  · refine ⟨⟨by rw [hw, List.append_assoc], ?_⟩, hc⟩
    rw [List.length_append, hlen, hn]

theorem rsRecvTmpbuf_size (b : RsBuf) (n : ℕ) : (bufOf (rsRecvTmpbuf b n)).size = b.size := by
  rcases rsRecvTmpbuf_cases b n with ⟨-, hr⟩ | ⟨_, _, -, -, hc, hr⟩ | ⟨_, -, hc, -, hr⟩ <;> rw [hr]
  · rfl
  · exact hc
  · exact hc

theorem Delivers.nil_of_fail (hcode : code ≠ .ok) (h : Delivers w n (.ret code data b)) :
    b.bytes = [] := by
  cases code with
  | ok => exact absurd rfl hcode
  | _ => exact h

theorem afterPayload_fail (t : IoThread) (hcode : code ≠ .ok) :
    afterPayload t (.ret code data b) = { t with recvBuf := b, phase := .offline } := by
  cases code with
  | ok => exact absurd rfl hcode
  | _ => rfl

theorem afterLength_fail (t : IoThread) (alloc : Bool) (hcode : code ≠ .ok) :
    afterLength t alloc (.ret code data b) = some { t with recvBuf := b, phase := .offline } := by
  cases code with
  | ok => exact absurd rfl hcode
  | _ => rfl

theorem afterPayload_buf (t : IoThread) (r : Recv) : (afterPayload t r).recvBuf = bufOf r := by
  cases r with
  | loop => rfl
  | ret code => cases code <;> rfl

theorem afterLength_size {alloc : Bool} (h : afterLength t alloc r = some u) :
    u.recvBuf.size = (bufOf r).size := by
  cases r with
  | loop =>
    obtain rfl := Option.some.inj h
    rfl
  | ret code data b =>
    by_cases hcode : code = .ok
    · subst hcode
      rw [afterLength] at h
      split_ifs at h
      · obtain rfl := Option.some.inj h
        rw [afterPayload_buf]
        exact rsRecvTmpbuf_size b _
      · obtain rfl := Option.some.inj h
        rfl
    · rw [afterLength_fail t alloc hcode] at h
      obtain rfl := Option.some.inj h
      rfl

def IoThread.Split (t : IoThread) : Prop :=
  match t.phase with
  | .offline => t.recvBuf.bytes = [] ∧ ∃ w, t.stream = t.stored.flatMap frame ++ w
  | .ready => t.stream = t.stored.flatMap frame ++ t.recvBuf.bytes
  | .length copied s => t.stream = t.stored.flatMap frame ++ (copied ++ t.recvBuf.bytes) ∧
      copied.length + s = 4 ∧ t.recvBuf.bytes.length < s
  | .payload copied s => ∃ l : List UInt8, l.length = 4 ∧
      t.stream = t.stored.flatMap frame ++ (l ++ (copied ++ t.recvBuf.bytes)) ∧
      copied.length + s = leNat l ∧ t.recvBuf.bytes.length < s
  | .exited => ∃ w, t.stream = t.stored.flatMap frame ++ w

structure IoThread.Inv (t : IoThread) : Prop where
  short : ∀ m ∈ t.stored, m.length < 2 ^ 32
  split : t.Split
  tiny : t.recvBuf.size < 4 → t.recvBuf.bytes = [] ∧ ¬ t.Waiting

theorem IoThread.Waiting.ne_offline (h : t.Waiting) : t.phase ≠ .offline := by
  intro hp
  rw [IoThread.Waiting, hp] at h
  exact h

theorem leNat_lt_of_length (hl : l.length = 4) : leNat l < 2 ^ 32 := by
  have h := leNat_lt l
  rw [hl] at h
  exact h

theorem afterPayload_inv (hshort : ∀ m ∈ t.stored, m.length < 2 ^ 32) (hl : l.length = 4)
    (hstream : t.stream = t.stored.flatMap frame ++ (l ++ w)) (hr : Delivers w (leNat l) r) :
    (∀ m ∈ (afterPayload t r).stored, m.length < 2 ^ 32) ∧ (afterPayload t r).Split := by
  cases r with
  | loop copied s b =>
    obtain ⟨rfl, hlen, hlt⟩ := hr
    exact ⟨hshort, l, hl, hstream, hlen, hlt⟩
  | ret code data b =>
    by_cases hcode : code = .ok
    · subst hcode
      obtain ⟨rfl, hlen⟩ := hr
      refine ⟨?_, ?_⟩
      · intro m hm
        rcases List.mem_append.mp hm with hm | hm
        · exact hshort m hm
        · obtain rfl := List.mem_singleton.mp hm
          exact hlen ▸ leNat_lt_of_length hl
      · change t.stream = (t.stored ++ [data]).flatMap frame ++ b.bytes
        rw [hstream, List.flatMap_append, List.flatMap_singleton, frame_of_leNat hl hlen]
        simp only [List.append_assoc]
    · rw [afterPayload_fail t hcode]
      exact ⟨hshort, hr.nil_of_fail hcode, _, hstream⟩

theorem afterLength_inv {alloc : Bool} (hshort : ∀ m ∈ t.stored, m.length < 2 ^ 32)
    (hstream : t.stream = t.stored.flatMap frame ++ w) (hr : Delivers w 4 r)
    (hover : LastIfOver (bufOf r).size w) (h : afterLength t alloc r = some u) :
    (∀ m ∈ u.stored, m.length < 2 ^ 32) ∧ u.Split := by
  cases r with
  | loop copied s b =>
    obtain rfl := Option.some.inj h
    obtain ⟨rfl, hlen, hlt⟩ := hr
    exact ⟨hshort, hstream, hlen, hlt⟩
  | ret code data b =>
    by_cases hcode : code = .ok
    · subst hcode
      obtain ⟨rfl, hlen⟩ := hr
      rw [afterLength] at h
      split_ifs at h
      · obtain rfl := Option.some.inj h
        refine afterPayload_inv hshort hlen hstream (rsRecvTmpbuf_delivers fun hlt => ?_).1
        -- a length that does not fit is not followed by anything
        by_contra hne
        have hpos := List.length_pos_iff.mpr hne
        have hle := hover (by rw [List.length_append]; omega)
        rw [announced_append hlen] at hle
        change leNat data ≤ b.size at hle
        omega
      · obtain rfl := Option.some.inj h
        exact ⟨hshort, _, hstream⟩
    · rw [afterLength_fail t alloc hcode] at h
      obtain rfl := Option.some.inj h
      exact ⟨hshort, hr.nil_of_fail hcode, _, hstream⟩

theorem IoThread.Inv.connect (h : t.Inv) (hs : ioStep t .connect = some u) : u.Inv := by
  obtain ⟨-, hsplit, htiny⟩ := h
  change (if _ then _ else _) = _ at hs
  split_ifs at hs with hp
  obtain rfl := Option.some.inj hs
  unfold IoThread.Split at hsplit
  rw [hp] at hsplit
  exact ⟨fun m hm => absurd hm List.not_mem_nil, hsplit.1.symm, fun hlt => ⟨(htiny hlt).1, id⟩⟩

theorem IoThread.Inv.slot {alloc : Bool} (h : t.Inv) (hok : t.FailsEmpty (.slot alloc))
    (hs : ioStep t (.slot alloc) = some u) : u.Inv := by
  obtain ⟨hshort, hsplit, htiny⟩ := h
  change (if _ then _ else _) = _ at hs
  split_ifs at hs with hp
  unfold IoThread.Split at hsplit
  rw [hp] at hsplit
  obtain ⟨hdel, hsize⟩ := rsRecvTmpbuf_delivers (b := t.recvBuf) (n := 4) fun hlt => (htiny hlt).1
  obtain ⟨hshort', hsplit'⟩ := afterLength_inv hshort hsplit hdel (hsize ▸ hok) hs
  refine ⟨hshort', hsplit', fun hlt => ?_⟩
  rw [afterLength_size hs, hsize] at hlt
  have hr : rsRecvTmpbuf t.recvBuf 4 = .ret .err [] t.recvBuf := if_pos hlt
  rw [hr] at hs
  obtain rfl := Option.some.inj hs
  exact ⟨(htiny hlt).1, id⟩

theorem IoThread.Inv.read {chunk : List UInt8} {alloc : Bool} (h : t.Inv)
    (hok : t.FailsEmpty (.read chunk alloc)) (hs : ioStep t (.read chunk alloc) = some u) :
    u.Inv := by
  obtain ⟨hshort, hsplit, htiny⟩ := h
  obtain ⟨hfail, hover⟩ := hok
  unfold IoThread.Split at hsplit
  have hwide (hwait : t.Waiting) (hsize : u.recvBuf.size = t.recvBuf.size) :
      u.recvBuf.size < 4 → u.recvBuf.bytes = [] ∧ ¬ u.Waiting :=
    fun hlt => absurd hwait (htiny (hsize ▸ hlt)).2
  cases hp : t.phase with
  | offline => simp [ioStep, hp] at hs
  | ready => simp [ioStep, hp] at hs
  | exited => simp [ioStep, hp] at hs
  | length copied s =>
    have hwait : t.Waiting := by rw [IoThread.Waiting, hp]; trivial
    rw [hp] at hsplit hover
    simp only [ioStep, hp] at hs
    obtain ⟨r, hr, hs⟩ := Option.bind_eq_some_iff.mp hs
    obtain ⟨hstream, hlen, -⟩ := hsplit
    obtain ⟨hdel, hsize⟩ := rsRecvTmpbufRead_delivers hlen hfail hr
    obtain ⟨hshort', hsplit'⟩ := afterLength_inv (t := { t with stream := t.stream ++ chunk })
      hshort (by simp [hstream]) hdel (hsize ▸ hover) hs
    exact ⟨hshort', hsplit', hwide hwait ((afterLength_size hs).trans hsize)⟩
  | payload copied s =>
    have hwait : t.Waiting := by rw [IoThread.Waiting, hp]; trivial
    rw [hp] at hsplit
    simp only [ioStep, hp] at hs
    obtain ⟨r, hr, rfl⟩ := Option.map_eq_some_iff.mp hs
    obtain ⟨l, hl, hstream, hlen, -⟩ := hsplit
    obtain ⟨hdel, hsize⟩ := rsRecvTmpbufRead_delivers hlen hfail hr
    obtain ⟨hshort', hsplit'⟩ := afterPayload_inv (t := { t with stream := t.stream ++ chunk })
      hshort hl (by simp [hstream]) hdel
    exact ⟨hshort', hsplit', hwide hwait (by rw [afterPayload_buf, hsize])⟩

theorem IoThread.Inv.step (h : t.Inv) (a : IoAct) (hok : t.FailsEmpty a)
    (hs : ioStep t a = some u) : u.Inv := by
  cases a with
  | connect => exact h.connect hs
  | slot alloc => exact h.slot hok hs
  | read chunk alloc => exact h.read hok hs

theorem IoThread.init_inv (size : UInt32) : (IoThread.init size).Inv where
  short := fun _ hm => absurd hm List.not_mem_nil
  split := ⟨rfl, [], rfl⟩
  tiny := fun _ => ⟨rfl, id⟩

/-- The stream is the stored messages and a rest, from which a waiting thread can take no
further message. -/
theorem IoThread.Inv.rest (h : t.Inv) :
    ∃ w, t.stream = t.stored.flatMap frame ++ w ∧ (t.Waiting → Incomplete w) := by
  have hsplit := h.split
  unfold IoThread.Split at hsplit
  unfold IoThread.Waiting
  cases hp : t.phase with
  | offline =>
    rw [hp] at hsplit
    exact ⟨_, hsplit.2.choose_spec, fun h => h.elim⟩
  | ready =>
    rw [hp] at hsplit
    exact ⟨_, hsplit, fun h => h.elim⟩
  | exited =>
    rw [hp] at hsplit
    exact ⟨_, hsplit.choose_spec, fun h => h.elim⟩
  | length copied s =>
    rw [hp] at hsplit
    obtain ⟨hstream, hlen, hlt⟩ := hsplit
    exact ⟨_, hstream, fun _ => Or.inl (by rw [List.length_append]; omega)⟩
  | payload copied s =>
    rw [hp] at hsplit
    obtain ⟨l, hl, hstream, hlen, hlt⟩ := hsplit
    refine ⟨_, hstream, fun _ => Or.inr ?_⟩
    rw [announced_append hl, List.drop_left' hl, List.length_append]
    omega

theorem IoThread.Inv.clean (h : t.Inv) : t.Clean := by
  obtain ⟨w, hw, hwait⟩ := h.rest
  have hmessages : messages t.stream = t.stored ++ messages w := by rw [hw, messages_frames h.short]
  refine ⟨hmessages ▸ List.prefix_append _ _, fun hw' => ?_⟩
  rw [hmessages, messages_incomplete (hwait hw'), List.append_nil]

/-- As long as every failing receive leaves the buffer empty, each connection is decoded
from its own first byte. -/
theorem io_clean_of_failsEmpty (size : UInt32) (as : List IoAct)
    (hok : Along ioStep IoThread.FailsEmpty (IoThread.init size) as)
    (hrun : exec ioStep (IoThread.init size) as = some t) : t.Clean :=
  (exec_invariant_along _ (fun _ a _ h hok hs => h.step a hok hs)
    (IoThread.init_inv size) hok hrun).clean

def cleanRun : List IoAct :=
  [.connect, .slot true, .read [2, 0, 0, 0] true, .read [7, 8] true, .slot true, .read [] true,
    .connect, .slot true, .read [1, 0, 0, 0, 9] true]

theorem io_clean_of_cleanRun : Along ioStep IoThread.FailsEmpty (IoThread.init 16) cleanRun ∧
    ∃ t, exec ioStep (IoThread.init 16) cleanRun = some t ∧ t.stored = [[9]] ∧ t.Clean :=
  ⟨by decide, _, rfl, rfl, io_clean_of_failsEmpty 16 cleanRun (by decide) rfl⟩

/-- The first connection is lost after four of the five payload bytes. They stay in the
buffer and are taken for a length on the second connection. -/
theorem io_mixes_connections : ¬ ∀ (size : UInt32) (as : List IoAct) (t : IoThread),
    exec ioStep (IoThread.init size) as = some t → t.Clean := by
  intro h
  have hclean := h 16 [.connect, .slot true, .read [5, 0, 0, 0] true, .read [1, 0, 0, 0] true,
    .read [] true, .connect, .slot true, .read [1, 0, 0, 0, 9] true] _ rfl
  exact absurd hclean.prefix_stored (by decide)

end MySQLSyncer.Slave
