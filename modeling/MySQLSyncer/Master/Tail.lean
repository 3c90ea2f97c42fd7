import MySQLSyncer.Master.InStep

/-! # Waiting at the end of a growing file

The calls of `rs_eof_read_binlog2` on one file, with the end-of-file indicator of the stream:
`fread` sets it when it comes to the end of the file and returns nothing while it is set.
-/
namespace MySQLSyncer.Master
open Lib MySQLSyncer.Core

inductive Select where
  | timeout
  | ready
  | error (eintr : Bool)
  deriving DecidableEq

/-- `rs_timed_select`. After `EINTR` its loop tests the same result for ever. -/
def rsTimedSelect : Select → Option RsCode
  | .timeout => some .timedout
  | .ready => some .ok
  | .error eintr => if eintr then none else some .err

/-- Behind a call that returned `data`; in a call for `size` bytes, in front of `fread` or behind
one that returned nothing; or gone. -/
inductive TailPhase where
  | done (size : ℕ) (data : List UInt8)
  | reading (size : ℕ) (copied : List UInt8)
  | waiting (size : ℕ) (copied : List UInt8)
  | failed
  deriving DecidableEq

/-- The file, the offset and the indicator of its stream, and the buffer. The field `pos` records
where in the file the bytes of the current call begin. -/
structure Tail where
  file : List UInt8
  offset : ℕ
  eof : Bool
  ioBuf : RsBuf
  pos : ℕ
  phase : TailPhase
  deriving DecidableEq

inductive TailAct where
  | call (size : ℕ)
  /-- `rs_binlog_finish_handler` passes over some bytes. -/
  | skip (len : ℕ)
  | fread (n : ℕ)
  | wait (r : Select)
  | fail
  /-- The server appends to the file. -/
  | append (bytes : List UInt8)
  deriving DecidableEq

namespace Tail

def start (file : List UInt8) (pos : ℕ) (ioBuf : RsBuf) (offset : ℕ) : Tail :=
  { file := file, offset := offset, eof := false, ioBuf := ioBuf, pos := pos, phase := .done 0 [] }

def inCall (t : Tail) (size : ℕ) : Eof → Tail
  | .loop copied b => { t with ioBuf := b, phase := .reading size copied }
  | .ret data b => { t with ioBuf := b, eof := false, phase := .done size data }

def unread (t : Tail) : List UInt8 := t.file.drop t.offset

/-- `fread` of the whole buffer size, which returned `n` bytes. It may return fewer than there
are, but none only at the end of the file or with the indicator set. -/
def afterFread (t : Tail) (size : ℕ) (copied : List UInt8) (n : ℕ) : Option Tail :=
  if t.eof then
    if n = 0 then some { t with phase := .waiting size copied } else none
  else if n ≤ t.ioBuf.size ∧ n ≤ t.unread.length ∧ (n = 0 → t.unread = []) then
    let u := { t with
      offset := t.offset + n, eof := decide (n = t.unread.length ∧ n < t.ioBuf.size) }
    if n = 0 then some { u with phase := .waiting size copied }
    else some (u.inCall size (rsEofReadBinlog2Fread size copied t.ioBuf (t.unread.take n)))
  else none

/-- The moves of `rs_binlog_finish_handler`. -/
def afterSkip (t : Tail) (len : ℕ) : Option Tail :=
  if t.file.length < t.pos + len then none
  else if len ≤ t.ioBuf.bytes.length then
    some { t with
      pos := t.pos + len
      ioBuf := { t.ioBuf with pos := t.ioBuf.pos + len, bytes := t.ioBuf.bytes.drop len } }
  else some { t with
    pos := t.pos + len, ioBuf := rsBufDrop t.ioBuf, offset := t.pos + len, eof := false }

end Tail

def tailStep (t : Tail) : TailAct → Option Tail
  | .call size => match t.phase with
    | .done last _ =>
      some (Tail.inCall { t with pos := t.pos + last } size (rsEofReadBinlog2 t.ioBuf size))
    | _ => none
  | .skip len => match t.phase with
    | .done last _ => Tail.afterSkip { t with pos := t.pos + last, phase := .done 0 [] } len
    | _ => none
  | .fread n => match t.phase with
    | .reading size copied => t.afterFread size copied n
    | _ => none
  | .wait r => match t.phase with
    | .waiting size copied => (rsTimedSelect r).map fun code =>
        { t with phase := if code = .err then .failed else .reading size copied }
    | _ => none
  | .fail => some { t with phase := .failed }
  | .append bytes => some { t with file := t.file ++ bytes }

namespace Tail

def InLoop (t : Tail) : Prop :=
  match t.phase with
  | .reading _ _ | .waiting _ _ => True
  | _ => False

def missing (t : Tail) : ℕ :=
  match t.phase with
  | .reading size copied => size - copied.length
  | _ => 0

end Tail

def TailAct.Within : TailAct → Prop
  | .fread _ | .wait _ | .append _ => True
  | _ => False

def TailAct.isFread : TailAct → Bool
  | .fread _ => true
  | _ => false

/-- The thread sees what is appended: it never goes on to `fread` with the indicator set, what a
call returned are the next bytes of the file, with the rest of the buffer behind them, and once
the file holds the bytes asked for, the call returns them after finitely many `fread`s. -/
structure Tail.Sees (t : Tail) : Prop where
  clear : t.InLoop → t.eof = false
  data : ∀ size data, t.phase = .done size data → data = (t.file.drop t.pos).take size ∧
    data.length = size ∧ Buffered t.file (t.pos + size) t.ioBuf.bytes t.offset
  ends : ∀ size copied, t.phase = .reading size copied → t.pos + size ≤ t.file.length →
    ∀ as u, (∀ a ∈ as, a.Within) → exec tailStep t as = some u →
      u.missing + as.countP TailAct.isFread ≤ t.missing ∧
      ((∃ data, u.phase = .done size data) ∨
        (∃ copied, u.phase = .reading size copied) ∧ ∃ n, (tailStep u (.fread n)).isSome)

/-- An `fread` that comes to the end of the file brings the last of the bytes asked for. -/
def Tail.Completes (t : Tail) : TailAct → Prop
  | .fread n => n = t.unread.length → n < t.ioBuf.size → t.missing ≤ n
  | _ => True

variable {t u : Tail} {file copied chunk : List UInt8} {b : RsBuf} {size n pos offset : ℕ} {a : TailAct}
  {as : List TailAct}

theorem rsEofReadBinlog2Fread_ret (hshort : copied.length < size)
    (h : size ≤ copied.length + chunk.length) :
    ∃ data c, rsEofReadBinlog2Fread size copied b chunk = .ret data c := by
  have hmin : min chunk.length (size - copied.length) = size - copied.length := by omega
  rw [rsEofReadBinlog2Fread, hmin]
  exact ⟨_, _, if_neg (by omega)⟩

theorem rsEofReadBinlog2Fread_loop (h : copied.length + chunk.length < size) :
    rsEofReadBinlog2Fread size copied b chunk =
      .loop (copied ++ chunk) { b with pos := chunk.length, bytes := [] } := by
  have hmin : min chunk.length (size - copied.length) = chunk.length := by omega
  rw [rsEofReadBinlog2Fread, hmin, List.take_length, List.drop_length]
  exact if_pos h

def Eof.buf : Eof → RsBuf
  | .ret _ b => b
  | .loop _ b => b

theorem rsEofReadBinlog2_size (b : RsBuf) (size : ℕ) : (rsEofReadBinlog2 b size).buf.size = b.size := by
  simp only [rsEofReadBinlog2]
  split_ifs <;> rfl

theorem rsEofReadBinlog2Fread_size (size : ℕ) (copied : List UInt8) (b : RsBuf) (chunk : List UInt8) :
    (rsEofReadBinlog2Fread size copied b chunk).buf.size = b.size := by
  simp only [rsEofReadBinlog2Fread]
  split_ifs <;> rfl

/-- The bytes handed over so far and those in the buffer are those of the file, whatever the
indicator says. -/
structure Tail.Inv (t : Tail) : Prop where
  io : 1 ≤ t.ioBuf.size
  bytes : match t.phase with
    | .done size data => data = (t.file.drop t.pos).take size ∧ data.length = size ∧
        Buffered t.file (t.pos + size) t.ioBuf.bytes t.offset
    | .reading size copied | .waiting size copied =>
        InCall t.file t.pos size copied t.ioBuf.bytes t.offset
    | .failed => True

theorem Tail.Inv.done {data : List UInt8} (h : t.Inv) (hp : t.phase = .done size data) :
    data = (t.file.drop t.pos).take size ∧ data.length = size ∧
      Buffered t.file (t.pos + size) t.ioBuf.bytes t.offset := by
  have hbytes := h.bytes
  rw [hp] at hbytes
  exact hbytes

theorem Tail.Inv.reading (h : t.Inv) (hp : t.phase = .reading size copied) :
    InCall t.file t.pos size copied t.ioBuf.bytes t.offset := by
  have hbytes := h.bytes
  rw [hp] at hbytes
  exact hbytes

theorem Tail.inCall_inv {eof : Eof} (heof : EofOk t.file t.pos size t.offset eof)
    (hio : 1 ≤ eof.buf.size) : (t.inCall size eof).Inv := by
  cases eof with
  | loop copied b => exact ⟨hio, heof⟩
  | ret data b => exact ⟨hio, heof⟩

theorem afterFread_cases (h : t.afterFread size copied n = some u) :
    (t.eof = true ∧ n = 0 ∧ u = { t with phase := .waiting size copied }) ∨
    (t.eof = false ∧ n = 0 ∧ t.unread = [] ∧ u = { t with
      offset := t.offset + 0, eof := decide (0 = t.unread.length ∧ 0 < t.ioBuf.size)
      phase := .waiting size copied }) ∨
    (t.eof = false ∧ n ≠ 0 ∧ n ≤ t.ioBuf.size ∧ n ≤ t.unread.length ∧ u = Tail.inCall
      { t with offset := t.offset + n, eof := decide (n = t.unread.length ∧ n < t.ioBuf.size) }
      size (rsEofReadBinlog2Fread size copied t.ioBuf (t.unread.take n))) := by
  unfold Tail.afterFread at h
  split_ifs at h with heof hn hok hn
  · exact Or.inl ⟨heof, hn, (Option.some.inj h).symm⟩
  · subst hn
    exact Or.inr (Or.inl ⟨Bool.eq_false_of_not_eq_true heof, rfl, hok.2.2 rfl, (Option.some.inj h).symm⟩)
  · exact Or.inr (Or.inr ⟨Bool.eq_false_of_not_eq_true heof, hn, hok.1, hok.2.1,
      (Option.some.inj h).symm⟩)

theorem Tail.Inv.call (h : t.Inv) (hs : tailStep t (.call size) = some u) : u.Inv := by
  cases hp : t.phase with
  | done last data =>
    simp only [tailStep, hp] at hs
    obtain rfl := Option.some.inj hs
    obtain ⟨-, -, hbuf⟩ := h.done hp
    exact Tail.inCall_inv (rsEofReadBinlog2_ok hbuf size) (by rw [rsEofReadBinlog2_size]; exact h.io)
  | _ =>
    simp only [tailStep, hp] at hs
    cases hs

theorem Tail.Inv.skip {len : ℕ} (h : t.Inv) (hs : tailStep t (.skip len) = some u) : u.Inv := by
  cases hp : t.phase with
  | done last data =>
    simp only [tailStep, hp, Tail.afterSkip] at hs
    obtain ⟨-, -, hbuf⟩ := h.done hp
    split_ifs at hs with hlong hlen
    · obtain rfl := Option.some.inj hs
      exact ⟨h.io, rfl, rfl, hbuf.skip hlen⟩
    · obtain rfl := Option.some.inj hs
      exact ⟨h.io, rfl, rfl, .seek (Nat.le_of_not_lt hlong)⟩
  | _ =>
    simp only [tailStep, hp] at hs
    cases hs

theorem Tail.Inv.fread (h : t.Inv) (hs : tailStep t (.fread n) = some u) : u.Inv := by
  cases hp : t.phase with
  | reading size copied =>
    simp only [tailStep, hp] at hs
    have hcall := h.reading hp
    rcases afterFread_cases hs with ⟨-, -, rfl⟩ | ⟨-, -, -, rfl⟩ | ⟨-, -, hn, hle, rfl⟩
    · exact ⟨h.io, hcall⟩
    · exact ⟨h.io, hcall⟩
    · have hoff := hcall.buffered.off_le
      rw [Tail.unread, List.length_drop] at hle
      refine Tail.inCall_inv ?_ (by rw [rsEofReadBinlog2Fread_size]; exact h.io)
      exact rsEofReadBinlog2Fread_ok hcall (show t.offset + n ≤ t.file.length by omega)
  | _ =>
    simp only [tailStep, hp] at hs
    cases hs

theorem Tail.Inv.wait {r : Select} (h : t.Inv) (hs : tailStep t (.wait r) = some u) : u.Inv := by
  cases hp : t.phase with
  | waiting size copied =>
    have hbytes := h.bytes
    simp only [tailStep, hp] at hs hbytes
    obtain ⟨code, -, rfl⟩ := Option.map_eq_some_iff.mp hs
    refine ⟨h.io, ?_⟩
    by_cases hcode : code = .err
    · simp only [hcode, if_true]
    · simp only [hcode, if_false]
      exact hbytes
  | _ =>
    simp only [tailStep, hp] at hs
    cases hs

theorem Tail.Inv.append {bytes : List UInt8} (h : t.Inv) :
    Tail.Inv { t with file := t.file ++ bytes } := by
  refine ⟨h.io, ?_⟩
  have hbytes := h.bytes
  cases hp : t.phase with
  | done size data =>
    rw [hp] at hbytes
    obtain ⟨hdata, hlen, hbuf⟩ := hbytes
    have hle := hbuf.off_le
    have hoff := hbuf.off_eq
    refine ⟨?_, hlen, hbuf.append bytes⟩
    change data = ((t.file ++ bytes).drop t.pos).take size
    rw [List.drop_append_of_le_length (by omega), List.take_append_of_le_length
      (by rw [List.length_drop]; omega), hdata]
  | reading size copied =>
    rw [hp] at hbytes
    exact hbytes.append bytes
  | waiting size copied =>
    rw [hp] at hbytes
    exact hbytes.append bytes
  | failed => trivial

theorem Tail.Inv.step (h : t.Inv) (hs : tailStep t a = some u) : u.Inv := by
  cases a with
  | call size => exact h.call hs
  | skip len => exact h.skip hs
  | fread n => exact h.fread hs
  | wait r => exact h.wait hs
  | fail =>
    obtain rfl := Option.some.inj hs
    exact ⟨h.io, trivial⟩
  | append bytes =>
    obtain rfl := Option.some.inj hs
    exact h.append

theorem Tail.start_inv (hb : Buffered file pos b.bytes offset) (hio : 1 ≤ b.size) :
    (Tail.start file pos b offset).Inv := ⟨hio, rfl, rfl, hb⟩

/-- The call goes on with the indicator as `fread` left it; otherwise `clearerr` comes first. -/
theorem Tail.inCall_eof (t : Tail) (size : ℕ) (eof : Eof) :
    ((t.inCall size eof).eof = t.eof ∧ ∃ copied b, eof = .loop copied b) ∨
    ((t.inCall size eof).eof = false ∧ ∃ data b, eof = .ret data b) := by
  cases eof with
  | loop copied b => exact Or.inl ⟨rfl, copied, b, rfl⟩
  | ret data b => exact Or.inr ⟨rfl, data, b, rfl⟩

/-- An `fread` leaves the indicator clear if and only if the condition holds. -/
theorem Tail.Inv.fread_clear (h : t.Inv) (hp : t.phase = .reading size copied) (heof : t.eof = false)
    (hs : t.afterFread size copied n = some u) : u.eof = false ↔ t.Completes (.fread n) := by
  have hio := h.io
  have hshort := (h.reading hp).short
  have hmissing : t.missing = size - copied.length := by rw [Tail.missing, hp]
  rcases afterFread_cases hs with ⟨htrue, -⟩ | ⟨-, rfl, hnil, rfl⟩ | ⟨-, hn, -, hle, rfl⟩
  · exact absurd (heof.symm.trans htrue) (by decide)
  · -- nothing was left: the indicator is set and the call goes on
    constructor
    · intro hset
      simp only [hnil, List.length_nil, true_and, decide_eq_false_iff_not] at hset
      exact absurd hio hset
    · intro hok
      have hle := hok (by rw [hnil]; rfl) hio
      omega
  · have hlen : (t.unread.take n).length = n := List.length_take_of_le hle
    by_cases hlast : size ≤ copied.length + n
    · obtain ⟨data, c, hret⟩ := rsEofReadBinlog2Fread_ret (b := t.ioBuf) hshort (hlen.symm ▸ hlast)
      rw [hret]
      refine ⟨fun _ _ _ => ?_, fun _ => rfl⟩
      omega
    · rw [rsEofReadBinlog2Fread_loop (by rw [hlen]; omega)]
      change decide _ = false ↔ (_ → _ → _)
      simp only [decide_eq_false_iff_not, hmissing, not_and]
      constructor
      · exact fun hnot heq hlt => absurd hlt (hnot heq)
      · intro hok heq hlt
        have hle := hok heq hlt
        omega

/-- The indicator is set only inside a call. -/
theorem fread_inLoop (hs : t.afterFread size copied n = some u) (heof : u.eof = true) : u.InLoop := by
  rcases afterFread_cases hs with ⟨-, -, rfl⟩ | ⟨-, -, -, rfl⟩ | ⟨-, -, -, -, rfl⟩
  · trivial
  · trivial
  · rcases Tail.inCall_eof { t with
      offset := t.offset + n, eof := decide (n = t.unread.length ∧ n < t.ioBuf.size) } size
      (rsEofReadBinlog2Fread size copied t.ioBuf (t.unread.take n)) with
      ⟨-, c, b, hloop⟩ | ⟨hclear, -⟩
    · rw [hloop]
      trivial
    · exact absurd (hclear.symm.trans heof) (by decide)

theorem Tail.clear_step (hclear : t.eof = false) (hs : tailStep t a = some u)
    (ha : ∀ n, a ≠ .fread n) : u.eof = false := by
  cases a with
  | call size =>
    cases hp : t.phase with
    | done last data =>
      simp only [tailStep, hp] at hs
      obtain rfl := Option.some.inj hs
      rcases Tail.inCall_eof { t with pos := t.pos + last } size
        (rsEofReadBinlog2 t.ioBuf size) with ⟨h, -⟩ | ⟨h, -⟩
      · exact h.trans hclear
      · exact h
    | _ =>
      simp only [tailStep, hp] at hs
      cases hs
  | skip len =>
    cases hp : t.phase with
    | done last data =>
      simp only [tailStep, hp, Tail.afterSkip] at hs
      split_ifs at hs
      · obtain rfl := Option.some.inj hs
        exact hclear
      · obtain rfl := Option.some.inj hs
        rfl
    | _ =>
      simp only [tailStep, hp] at hs
      cases hs
  | fread n => exact absurd rfl (ha n)
  | wait r =>
    cases hp : t.phase with
    | waiting size copied =>
      simp only [tailStep, hp] at hs
      obtain ⟨code, -, rfl⟩ := Option.map_eq_some_iff.mp hs
      exact hclear
    | _ =>
      simp only [tailStep, hp] at hs
      cases hs
  | fail =>
    obtain rfl := Option.some.inj hs
    exact hclear
  | append bytes =>
    obtain rfl := Option.some.inj hs
    exact hclear

theorem Tail.Inv.clear_step (h : t.Inv) (hclear : t.eof = false) (hok : t.Completes a)
    (hs : tailStep t a = some u) : u.eof = false := by
  by_cases ha : ∀ n, a ≠ .fread n
  · exact Tail.clear_step hclear hs ha
  · obtain ⟨n, rfl⟩ := by simpa using ha
    cases hp : t.phase with
    | reading size copied =>
      simp only [tailStep, hp] at hs
      exact (h.fread_clear hp hclear hs).mpr hok
    | _ =>
      simp only [tailStep, hp] at hs
      cases hs

structure Tail.Ends (t : Tail) (size : ℕ) : Prop where
  inv : t.Inv
  clear : t.eof = false
  phase : (∃ data, t.phase = .done size data) ∨
    ((∃ copied, t.phase = .reading size copied) ∧ t.pos + size ≤ t.file.length)

theorem Tail.Inv.unread_length (h : t.Inv) (hp : t.phase = .reading size copied)
    (hle : t.pos + size ≤ t.file.length) : t.missing ≤ t.unread.length ∧ 0 < t.missing := by
  have hcall := h.reading hp
  have hshort := hcall.short
  have hoff := hcall.buffered.off_eq
  rw [List.length_nil] at hoff
  rw [Tail.missing, hp, Tail.unread, List.length_drop]
  constructor
  · change size - copied.length ≤ _
    omega
  · exact Nat.sub_pos_of_lt hshort

theorem Tail.Ends.fread (h : t.Ends size) (hs : tailStep t (.fread n) = some u) :
    u.Ends size ∧ u.missing + 1 ≤ t.missing := by
  obtain ⟨hinv, hclear, ⟨data, hp⟩ | ⟨⟨copied, hp⟩, hle⟩⟩ := h
  · simp only [tailStep, hp] at hs
    cases hs
  · have huinv := hinv.step hs
    obtain ⟨hunread, hpos⟩ := hinv.unread_length hp hle
    have hok : t.Completes (.fread n) := fun heq _ => heq ▸ hunread
    have huclear := hinv.clear_step hclear hok hs
    have hmissing : t.missing = size - copied.length := by rw [Tail.missing, hp]
    have hshort := (hinv.reading hp).short
    simp only [tailStep, hp] at hs
    rcases afterFread_cases hs with ⟨htrue, -⟩ | ⟨-, -, hnil, -⟩ | ⟨-, hn, -, hlen, rfl⟩
    · exact absurd (hclear.symm.trans htrue) (by decide)
    · rw [hnil] at hunread
      exact absurd (hpos.trans_le hunread) (Nat.lt_irrefl 0)
    · have hchunk : (t.unread.take n).length = n := List.length_take_of_le hlen
      by_cases hlast : size ≤ copied.length + n
      · obtain ⟨data, c, hret⟩ := rsEofReadBinlog2Fread_ret (b := t.ioBuf) hshort (hchunk.symm ▸ hlast)
        rw [hret] at huinv huclear ⊢
        exact ⟨⟨huinv, huclear, Or.inl ⟨data, rfl⟩⟩, by rw [Nat.add_comm]; exact hpos⟩
      · rw [rsEofReadBinlog2Fread_loop (by rw [hchunk]; omega)] at huinv huclear ⊢
        refine ⟨⟨huinv, huclear, Or.inr ⟨⟨_, rfl⟩, hle⟩⟩, ?_⟩
        change size - (copied ++ t.unread.take n).length + 1 ≤ _
        rw [List.length_append, hchunk, hmissing]
        omega

theorem Tail.Ends.step (h : t.Ends size) (ha : a.Within) (hs : tailStep t a = some u) :
    u.Ends size ∧ u.missing + (if a.isFread then 1 else 0) ≤ t.missing := by
  cases a with
  | fread n => exact h.fread hs
  | append bytes =>
    have huinv := h.inv.step hs
    obtain ⟨-, hclear, hphase⟩ := h
    obtain rfl := Option.some.inj hs
    refine ⟨⟨huinv, hclear, hphase.imp_right fun ⟨hp, hle⟩ => ⟨hp, ?_⟩⟩, le_rfl⟩
    exact hle.trans (by simp)
  | wait r =>
    obtain ⟨-, -, ⟨data, hp⟩ | ⟨⟨copied, hp⟩, -⟩⟩ := h
    · simp only [tailStep, hp] at hs
      cases hs
    · simp only [tailStep, hp] at hs
      cases hs
  | call size => exact ha.elim
  | skip len => exact ha.elim
  | fail => exact ha.elim

theorem Tail.Ends.run (h : t.Ends size) (has : ∀ a ∈ as, a.Within)
    (hrun : exec tailStep t as = some u) :
    u.Ends size ∧ u.missing + as.countP TailAct.isFread ≤ t.missing := by
  induction as generalizing t with
  | nil =>
    obtain rfl := Option.some.inj hrun
    exact ⟨h, le_rfl⟩
  | cons a as ih =>
    obtain ⟨v, hv, hrest⟩ := Option.bind_eq_some_iff.mp hrun
    obtain ⟨hvends, hle⟩ := h.step (has a List.mem_cons_self) hv
    obtain ⟨huends, hle'⟩ := ih hvends (fun x hx => has x (List.mem_cons_of_mem _ hx)) hrest
    refine ⟨huends, ?_⟩
    rw [List.countP_cons]
    omega

theorem Tail.Ends.enabled (h : t.Ends size) : (∃ data, t.phase = .done size data) ∨
    (∃ copied, t.phase = .reading size copied) ∧ ∃ n, (tailStep t (.fread n)).isSome := by
  obtain ⟨hinv, hclear, hdone | ⟨⟨copied, hp⟩, hle⟩⟩ := h
  · exact Or.inl hdone
  · obtain ⟨hunread, hpos⟩ := hinv.unread_length hp hle
    have hio := hinv.io
    refine Or.inr ⟨⟨copied, hp⟩, 1, ?_⟩
    simp only [tailStep, hp, Tail.afterFread, hclear, Bool.false_eq_true, if_false, one_ne_zero,
      false_imp_iff, and_true]
    rw [if_pos ⟨hio, hpos.trans_le hunread⟩]
    rfl

theorem Tail.Inv.sees (h : t.Inv) (hclear : t.eof = false) : t.Sees where
  clear _ := hclear
  data size data hp := h.done hp
  ends size copied hp hle as u has hrun := by
    have hends : t.Ends size := ⟨h, hclear, Or.inr ⟨⟨copied, hp⟩, hle⟩⟩
    obtain ⟨huends, hle⟩ := hends.run has hrun
    exact ⟨hle, huends.enabled⟩

theorem Tail.Inv.sees_iff (h : t.Inv) (hclear : t.eof = false) (hs : tailStep t a = some u) :
    t.Completes a ↔ u.Sees := by
  constructor
  · exact fun hok => (h.step hs).sees (h.clear_step hclear hok hs)
  · intro hsees
    cases a with
    | fread n =>
      cases hp : t.phase with
      | reading size copied =>
        simp only [tailStep, hp] at hs
        refine (h.fread_clear hp hclear hs).mp (Bool.eq_false_of_not_eq_true fun heof => ?_)
        exact absurd (heof.symm.trans (hsees.clear (fread_inLoop hs heof))) (by decide)
      | _ =>
        simp only [tailStep, hp] at hs
        cases hs
    | _ => trivial

/-- In every run of calls on a growing file, the thread sees what is appended in every state, if
and only if each `fread` that comes to the end of the file brings the last byte asked for. -/
theorem tail_sees_iff (hb : Buffered file pos b.bytes offset) (hio : 1 ≤ b.size)
    (hrun : exec tailStep (.start file pos b offset) as = some t) :
    (∀ k u, exec tailStep (.start file pos b offset) (as.take k) = some u → u.Sees) ↔
      Along tailStep Tail.Completes (.start file pos b offset) as :=
  along_iff_states (I := fun t => t.Inv ∧ t.eof = false) (fun _ h => h.1.sees h.2)
    (fun _ _ _ h hs hok => ⟨h.1.step hs, h.1.clear_step h.2 hok hs⟩)
    (fun _ _ _ h hs => h.1.sees_iff h.2 hs) ⟨Tail.start_inv hb hio, rfl⟩ hrun

instance (t : Tail) (a : TailAct) : Decidable (t.Completes a) :=
  match a with
  | .fread _ => inferInstanceAs (Decidable (_ → _ → _))
  | .call _ | .skip _ | .wait _ | .fail | .append _ => isTrue trivial

/-- A call for four bytes, of which one is in the buffer, while the server appends. -/
def sampleTail : List TailAct :=
  [.append [3, 4, 5, 6], .call 4, .fread 2, .append [7, 8], .fread 2, .call 1]

theorem tail_sees_sample : ∃ t, exec tailStep (.start [1, 2] 1 ⟨2, 0, [2]⟩ 2) sampleTail = some t ∧
    ∀ k u, exec tailStep (.start [1, 2] 1 ⟨2, 0, [2]⟩ 2) (sampleTail.take k) = some u → u.Sees :=
  ⟨_, rfl, (tail_sees_iff ⟨rfl, by decide, rfl⟩ (by decide) rfl).mpr (by decide)⟩

/-- The thread waits at the end of the file. Behind the wait the indicator is still set, so
that `fread` returns nothing although two bytes have been appended. -/
theorem tail_misses_append : ¬ ∀ (file : List UInt8) (pos : ℕ) (b : RsBuf) (offset : ℕ)
    (as : List TailAct) (t : Tail), Buffered file pos b.bytes offset → 1 ≤ b.size →
    exec tailStep (.start file pos b offset) as = some t → t.Sees := by
  intro h
  have hsees := h [] 0 ⟨16, 0, []⟩ 0
    [.call 2, .fread 0, .wait .timeout, .append [1, 2], .fread 0, .wait .timeout] _
    ⟨rfl, le_rfl, rfl⟩ (by decide) rfl
  exact absurd (hsees.clear trivial) (by decide)

end MySQLSyncer.Master
