import MySQLSyncer.Master.DumpThread

/-! # The bounds of the receive buffer

`rs_recv_tmpbuf` with its pointers, cut at its reads. What is stored between `start` and `last`
is a list, so a store at or behind `end` makes it longer than the buffer.
-/
namespace MySQLSyncer.Slave
open Lib MySQLSyncer.Core Master

/-- Behind a call, in the loop with `s` bytes owed, or behind a copy of a negative length. -/
inductive RecvPhase where
  | returned (code : RsCode) (data : List UInt8)
  | loop (copied : List UInt8) (s : ℤ)
  | undefined
  deriving DecidableEq

def RecvPhase.owed : RecvPhase → ℤ
  | .loop _ s => s
  | _ => 0

structure RecvTmpbuf where
  size : UInt32
  pos : ℕ
  mem : List UInt8
  phase : RecvPhase
  deriving DecidableEq

def RecvTmpbuf.init (size : UInt32) : RecvTmpbuf := ⟨size, 0, [], .returned .ok []⟩

inductive RecvAct where
  | call (size : UInt32)
  /-- A read returns, with nothing if it fails. -/
  | read (chunk : List UInt8)

namespace RecvTmpbuf

def call (t : RecvTmpbuf) (size : ℕ) : RecvTmpbuf :=
  let l := toInt32 (t.mem.length - t.pos)
  if t.size.toNat < size then { t with phase := .returned .err [] }
  -- the comparison is one of unsigned numbers
  else if size ≤ (l % 2 ^ 32).toNat then
    { t with pos := t.pos + size, phase := .returned .ok ((t.mem.drop t.pos).take size) }
  else if l < 0 then { t with phase := .undefined }
  else { t with pos := 0, mem := []
                phase := .loop ((t.mem.drop t.pos).take l.toNat) (toInt32 (size - l.toNat)) }

def read (t : RecvTmpbuf) (copied : List UInt8) (s : ℤ) (chunk : List UInt8) : RecvTmpbuf :=
  let mem := t.mem ++ chunk
  if chunk = [] then { t with phase := .returned .err copied }
  else if (mem.length : ℤ) - t.pos < s then { t with mem := mem }
  else if s < 0 then { t with mem := mem, phase := .undefined }
  else { t with pos := t.pos + s.toNat, mem := mem
                phase := .returned .ok (copied ++ (mem.drop t.pos).take s.toNat) }

structure Inside (t : RecvTmpbuf) : Prop where
  pos_le : t.pos ≤ t.mem.length
  last_le : t.mem.length ≤ t.size.toNat
  defined : t.phase ≠ .undefined

/-- A read fits in what the earlier reads of its call have left of the buffer, and no length that
is copied passes for a negative one. -/
def Fits (t : RecvTmpbuf) : RecvAct → Prop
  | .call size => t.size < size ∨ size.toNat ≤ t.mem.length - t.pos ∨ t.mem.length - t.pos < 2 ^ 31
  | .read chunk => chunk = [] ∨
      t.mem.length + chunk.length ≤ t.size.toNat ∧ 0 ≤ t.phase.owed

instance (t : RecvTmpbuf) : DecidablePred t.Fits
  | .call _ => inferInstanceAs (Decidable (_ ∨ _ ∨ _))
  | .read _ => inferInstanceAs (Decidable (_ ∨ _ ∧ _))

def toBuf (t : RecvTmpbuf) : RsBuf := ⟨t.size.toNat, t.pos, t.mem.drop t.pos⟩

def toRecv (t : RecvTmpbuf) : Option Recv :=
  match t.phase with
  | .returned code data => some (.ret code data t.toBuf)
  | .loop copied s => some (.loop copied s.toNat t.toBuf)
  | .undefined => none

end RecvTmpbuf

/-- A read asks for `b->size` bytes, whatever is stored already. -/
def recvStep (t : RecvTmpbuf) : RecvAct → Option RecvTmpbuf
  | .call size => match t.phase with
    | .returned _ _ => some (t.call size.toNat)
    | _ => none
  | .read chunk => match t.phase with
    | .loop copied s => if chunk.length ≤ t.size.toNat then some (t.read copied s chunk) else none
    | _ => none

variable {t u : RecvTmpbuf} {a : RecvAct} {copied chunk : List UInt8} {s : ℤ}

theorem toInt32_unsigned {n : ℕ} (h : n < 2 ^ 32) : (toInt32 n % 2 ^ 32).toNat = n := by
  have hmod : toInt32 n % 2 ^ 32 = (n : ℤ) % 2 ^ 32 := Int.bmod_emod
  rw [hmod]
  omega

namespace RecvTmpbuf

theorem call_over {size : ℕ} (h : t.size.toNat < size) :
    t.call size = { t with phase := .returned .err [] } := if_pos h

theorem call_held {size : ℕ} (hin : t.Inside) (hsize : size ≤ t.size.toNat)
    (h : size ≤ t.mem.length - t.pos) :
    t.call size = { t with pos := t.pos + size, phase := .returned .ok ((t.mem.drop t.pos).take size) } := by
  have hlast := hin.last_le
  have hmax := t.size.toNat_lt
  have hl := toInt32_unsigned (n := t.mem.length - t.pos) (by omega)
  rw [call, if_neg (by omega), if_pos (by omega)]

theorem call_short {size : ℕ} (hin : t.Inside) (hsize : size ≤ t.size.toNat)
    (h : t.mem.length - t.pos < size) :
    t.call size = if 2 ^ 31 ≤ t.mem.length - t.pos then { t with phase := .undefined } else
      { t with pos := 0, mem := []
               phase := .loop (t.mem.drop t.pos) (toInt32 (size - (t.mem.length - t.pos))) } := by
  have hlast := hin.last_le
  have hmax := t.size.toNat_lt
  have hl := toInt32_unsigned (n := t.mem.length - t.pos) (by omega)
  rw [call, if_neg (by omega), if_neg (by omega)]
  by_cases hneg : 2 ^ 31 ≤ t.mem.length - t.pos
  · rw [if_pos (toInt32_neg hneg (by omega)), if_pos hneg]
  · have heq := toInt32_of_lt (n := t.mem.length - t.pos) (by omega)
    rw [if_neg (by omega), if_neg hneg, heq, Int.toNat_natCast, List.take_of_length_le (by simp)]

theorem call_inside {size : UInt32} (hin : t.Inside) :
    (t.call size.toNat).Inside ↔ t.Fits (.call size) := by
  have hpos := hin.pos_le
  have hlast := hin.last_le
  by_cases hover : t.size < size
  · rw [call_over (UInt32.lt_iff_toNat_lt.mp hover)]
    exact iff_of_true ⟨hpos, hlast, nofun⟩ (Or.inl hover)
  · have hsize : size.toNat ≤ t.size.toNat := not_lt.mp (mt UInt32.lt_iff_toNat_lt.mpr hover)
    by_cases hheld : size.toNat ≤ t.mem.length - t.pos
    · rw [call_held hin hsize hheld]
      refine iff_of_true ⟨?_, hlast, nofun⟩ (Or.inr (Or.inl hheld))
      change t.pos + size.toNat ≤ t.mem.length
      omega
    · rw [call_short hin hsize (by omega)]
      by_cases hneg : 2 ^ 31 ≤ t.mem.length - t.pos
      · rw [if_pos hneg]
        refine iff_of_false (fun h => h.defined rfl) ?_
        simp only [Fits, hover, hheld, false_or]
        omega
      · rw [if_neg hneg]
        exact iff_of_true ⟨Nat.le_refl 0, Nat.zero_le _, nofun⟩ (Or.inr (Or.inr (by omega)))

theorem read_inside (hin : t.Inside) (hp : t.phase = .loop copied s) :
    (t.read copied s chunk).Inside ↔ t.Fits (.read chunk) := by
  have hpos := hin.pos_le
  have hlast := hin.last_le
  have hlen : (t.mem ++ chunk).length = t.mem.length + chunk.length := List.length_append
  have hfits : t.Fits (.read chunk) ↔
      chunk = [] ∨ t.mem.length + chunk.length ≤ t.size.toNat ∧ 0 ≤ s := by
    rw [Fits, hp, RecvPhase.owed]
  rw [hfits, read]
  by_cases hchunk : chunk = []
  · rw [if_pos hchunk]
    exact iff_of_true ⟨hpos, hlast, nofun⟩ (Or.inl hchunk)
  · simp only [hchunk, if_false, false_or]
    split_ifs with hmore hneg
    · constructor
      · intro h
        have hle : (t.mem ++ chunk).length ≤ t.size.toNat := h.last_le
        omega
      · intro h
        refine ⟨?_, ?_, hin.defined⟩
        · change t.pos ≤ (t.mem ++ chunk).length
          omega
        · change (t.mem ++ chunk).length ≤ t.size.toNat
          omega
    · exact iff_of_false (fun h => h.defined rfl) (by omega)
    · constructor
      · intro h
        have hle : (t.mem ++ chunk).length ≤ t.size.toNat := h.last_le
        omega
      · intro h
        refine ⟨?_, ?_, nofun⟩
        · change t.pos + s.toNat ≤ (t.mem ++ chunk).length
          omega
        · change (t.mem ++ chunk).length ≤ t.size.toNat
          omega

end RecvTmpbuf

theorem recvStep_inside (hin : t.Inside) (h : recvStep t a = some u) : u.Inside ↔ t.Fits a := by
  cases a with
  | call size =>
    rw [recvStep] at h
    split at h
    · obtain rfl := Option.some.inj h
      exact RecvTmpbuf.call_inside hin
    · cases h
  | read chunk =>
    rw [recvStep] at h
    split at h
    · rename_i copied s hp
      obtain ⟨-, h⟩ := Option.ite_none_right_eq_some.mp h
      obtain rfl := Option.some.inj h
      exact RecvTmpbuf.read_inside hin hp
    · cases h

theorem RecvTmpbuf.init_inside (size : UInt32) : (init size).Inside :=
  ⟨Nat.le_refl 0, Nat.zero_le _, nofun⟩

namespace RecvTmpbuf

theorem call_refines {size : UInt32} (hin : t.Inside) (hfits : t.Fits (.call size))
    (howed : size.toNat - (t.mem.length - t.pos) < 2 ^ 31) :
    (t.call size.toNat).toRecv = some (rsRecvTmpbuf t.toBuf size.toNat) := by
  have hbytes : t.toBuf.bytes.length = t.mem.length - t.pos := List.length_drop
  have hsz : t.toBuf.size = t.size.toNat := rfl
  by_cases hover : t.size.toNat < size.toNat
  · rw [call_over hover, rsRecvTmpbuf, if_pos (hsz ▸ hover)]
    rfl
  · by_cases hheld : size.toNat ≤ t.mem.length - t.pos
    · rw [call_held hin (by omega) hheld, rsRecvTmpbuf, if_neg (by omega), if_pos (by omega)]
      simp only [toRecv, toBuf, List.drop_drop]
    · have hsmall : ¬ 2 ^ 31 ≤ t.mem.length - t.pos := by
        simp only [Fits, UInt32.lt_iff_toNat_lt, hover, hheld, false_or] at hfits
        omega
      have heq := toInt32_of_lt howed
      rw [call_short hin (by omega) (by omega), if_neg hsmall]
      rw [rsRecvTmpbuf, if_neg (by omega), if_neg (by omega), hbytes]
      simp only [toRecv, toBuf, heq, Int.toNat_natCast, List.drop_nil]

theorem read_refines (hin : t.Inside) (hp : t.phase = .loop copied s) (hfits : t.Fits (.read chunk)) :
    (t.read copied s chunk).toRecv = rsRecvTmpbufRead copied s.toNat t.toBuf chunk := by
  have hpos := hin.pos_le
  have hbytes : t.toBuf.bytes ++ chunk = (t.mem ++ chunk).drop t.pos :=
    (List.drop_append_of_le_length hpos).symm
  have hlen : ((t.mem ++ chunk).drop t.pos).length = t.mem.length + chunk.length - t.pos := by
    rw [List.length_drop, List.length_append]
  have hroom : t.toBuf.pos + t.toBuf.bytes.length + chunk.length = t.mem.length + chunk.length := by
    change t.pos + (t.mem.drop t.pos).length + _ = _
    rw [List.length_drop]
    omega
  have hsz : t.toBuf.size = t.size.toNat := rfl
  rw [Fits, hp, RecvPhase.owed] at hfits
  rw [read, rsRecvTmpbufRead]
  by_cases hchunk : chunk = []
  · rw [if_pos hchunk, if_pos hchunk]
    rfl
  · obtain ⟨hfit, hs⟩ := hfits.resolve_left hchunk
    have hover : ¬ t.toBuf.size < t.toBuf.pos + t.toBuf.bytes.length + chunk.length := by omega
    have hmem : (t.mem ++ chunk).length = t.mem.length + chunk.length := List.length_append
    rw [if_neg hchunk, if_neg hchunk, if_neg hover, hbytes, hlen]
    by_cases hmore : ((t.mem ++ chunk).length : ℤ) - t.pos < s
    · have hless : t.mem.length + chunk.length - t.pos < s.toNat := by omega
      rw [if_pos hmore, if_pos hless]
      simp only [toRecv, toBuf, hp]
    · have hless : ¬ t.mem.length + chunk.length - t.pos < s.toNat := by omega
      rw [if_neg hmore, if_neg (not_lt.mpr hs), if_neg hless]
      simp only [toRecv, toBuf, List.drop_drop]

end RecvTmpbuf

/-- The pointers stay in the buffer through a run exactly if every read of it fits. -/
theorem recvTmpbuf_inside_iff (size : UInt32) (as : List RecvAct)
    (hrun : exec recvStep (.init size) as = some t) :
    (∀ k u, exec recvStep (.init size) (as.take k) = some u → u.Inside) ↔
      Along recvStep RecvTmpbuf.Fits (.init size) as :=
  along_iff_states (fun _ hin => hin) (fun _ _ _ hin h hfits => (recvStep_inside hin h).mpr hfits)
    (fun _ _ _ hin h => (recvStep_inside hin h).symm) (RecvTmpbuf.init_inside size) hrun

def twoCalls : List RecvAct := [.call 3, .read [1, 2], .read [3, 4], .call 1]

theorem recvTmpbuf_inside_twoCalls : Along recvStep RecvTmpbuf.Fits (.init 4) twoCalls ∧
    ∀ k u, exec recvStep (.init 4) (twoCalls.take k) = some u → u.Inside := by
  have hfits : Along recvStep RecvTmpbuf.Fits (.init 4) twoCalls := by decide +kernel
  exact ⟨hfits, (recvTmpbuf_inside_iff 4 twoCalls rfl).mpr hfits⟩

/-- The second read may store four bytes behind the first three. -/
theorem recvTmpbuf_overrun : ¬ ∀ (size : UInt32) (as : List RecvAct) (t : RecvTmpbuf),
    exec recvStep (.init size) as = some t → t.Inside := by
  intro h
  have hin := h 4 [.call 4, .read [1, 2, 3], .read [4, 5, 6, 7]] _ rfl
  exact absurd hin.last_le (by decide)

end MySQLSyncer.Slave
