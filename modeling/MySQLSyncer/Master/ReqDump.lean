import Mathlib.Algebra.Group.Nat.Defs
import Mathlib.Data.List.FinRange
import Mathlib.Logic.Function.Basic
import Mathlib.Order.Basic
import MySQLSyncer.Lib.Linked

/-! # The table of session slots

The slots lie in one array, and a pointer to a slot is its index. A descriptor, a stream, a
buffer, a pool and a thread are each a number; `none` is `-1`, `NULL` or `0`. The slot's other
fields are read by no function here.
-/
namespace MySQLSyncer.Master
open Lib

/-- `rs_reqdump_data_t`. The field `data` is the link of the free list. -/
structure ReqdumpData (num : ℕ) where
  cliFd : Option ℕ
  notifyFd : Option ℕ
  binlogFp : Option ℕ
  binlogIdxFp : Option ℕ
  ringbuf : Option ℕ
  pool : Option ℕ
  ioThread : Option ℕ
  dumpThread : Option ℕ
  sendBuf : Option ℕ
  ioBuf : Option ℕ
  data : Option (Fin num)
  reqDump : Bool
  isOpen : Bool
  ioThreadExit : Bool
  dumpThreadExit : Bool
  deriving DecidableEq, Inhabited

/-- `rs_reqdump_data_t_init`, which leaves the link alone. -/
def rsReqdumpDataInit {num : ℕ} (d : ReqdumpData num) : ReqdumpData num :=
  { cliFd := none, notifyFd := none, binlogFp := none, binlogIdxFp := none
    ringbuf := none, pool := none, ioThread := none, dumpThread := none
    sendBuf := none, ioBuf := none, data := d.data, reqDump := false
    isOpen := false, ioThreadExit := false, dumpThreadExit := false }

/-- `rs_reqdump_t`. -/
structure Reqdump (num : ℕ) where
  data : Fin num → ReqdumpData num
  free : Option (Fin num)
  freeNum : ℕ

/-- `sizeof(rs_reqdump_t)` and `sizeof(rs_reqdump_data_t)` on x86-64. -/
def sizeofReqdump : ℕ := 136
def sizeofReqdumpData : ℕ := 17768

/-- The size that `rs_create_reqdump` asks for, in the 32 bits of `len` and of `rs_palloc`. -/
def reqdumpBytes (num : ℕ) : ℕ :=
  (sizeofReqdump + sizeofReqdumpData * num % 2 ^ 32) % 2 ^ 32

variable {num : ℕ}

/-- The loop of `rs_create_reqdump` from the slot `i - 1` down. -/
def linkSlots : (i : ℕ) → i ≤ num → Option (Fin num) → (Fin num → ReqdumpData num) →
    Option (Fin num) × (Fin num → ReqdumpData num)
  | 0, _, next, slots => (next, slots)
  | i + 1, h, next, slots =>
    linkSlots i (Nat.le_of_succ_le h) (some ⟨i, h⟩)
      (Function.update slots ⟨i, h⟩ (rsReqdumpDataInit { slots ⟨i, h⟩ with data := next }))

/-- `rs_create_reqdump` on the block that the pool gives it, with arbitrary contents. It writes
all slots, so a block that is too small is overrun. -/
def rsCreateReqdump (num : ℕ) (block : Fin num → ReqdumpData num) : Option (Reqdump num) :=
  if num = 0 ∨ reqdumpBytes num < sizeofReqdump + sizeofReqdumpData * num then none
  else
    let (next, slots) := linkSlots num le_rfl none block
    some { data := slots, free := next, freeNum := num }

/-- `rs_get_reqdump_data`. Its test is on `rd`, which is not `NULL`; the head of the list is
dereferenced whatever it is. -/
def rsGetReqdumpData (s : Reqdump num) : Option (Fin num × Reqdump num) :=
  match s.free with
  | none => none
  | some i => some (i,
      { data := Function.update s.data i { s.data i with isOpen := true }
        free := (s.data i).data
        freeNum := s.freeNum - 1 })

/-- `rs_free_reqdump_data` down to `sleep`: the slot is closed. -/
def closeSlot (s : Reqdump num) (i : Fin num) : Reqdump num :=
  { s with data := Function.update s.data i { s.data i with isOpen := false } }

/-- `rs_free_reqdump_data` from `sleep` on: the slot goes back to the list. Both
`rs_destroy_ringbuf` and `rs_destroy_pool` dereference their argument. -/
def releaseSlot (s : Reqdump num) (i : Fin num) : Option (Reqdump num) :=
  if (s.data i).ringbuf = none ∨ (s.data i).pool = none then none
  else some
    { data := Function.update s.data i (rsReqdumpDataInit { s.data i with data := s.free })
      free := some i
      freeNum := s.freeNum + 1 }

def rsFreeReqdumpData (s : Reqdump num) (i : Fin num) : Option (Reqdump num) :=
  if (s.data i).isOpen then releaseSlot (closeSlot s i) i else some s

/-- The threads of a session, and the accept thread, set the other fields of a slot. -/
def writeSlot (s : Reqdump num) (i : Fin num) (d : ReqdumpData num) : Reqdump num :=
  let d' := { d with isOpen := (s.data i).isOpen, data := (s.data i).data }
  { s with data := Function.update s.data i d' }

/-- The free list is `l`: the slots that are closed, each once, but for one that is being
released. -/
structure Reqdump.Free (s : Reqdump num) (busy : Option (Fin num)) (l : List (Fin num)) : Prop where
  linked : Linked (fun i => (s.data i).data) s.free l
  nodup : l.Nodup
  mem_iff (i : Fin num) : i ∈ l ↔ (s.data i).isOpen = false ∧ busy ≠ some i
  length_eq : l.length = s.freeNum

theorem linkSlots_fst (i : ℕ) (h : i ≤ num) (next : Option (Fin num))
    (slots : Fin num → ReqdumpData num) : (linkSlots i h next slots).1 =
      if h0 : 0 < i then some ⟨0, lt_of_lt_of_le h0 h⟩ else next := by
  induction i generalizing next slots with
  | zero => rfl
  | succ i ih =>
    rw [linkSlots, ih, dif_pos i.succ_pos]
    split
    · rfl
    · next h0 =>
      obtain rfl : i = 0 := by omega
      rfl

theorem linkSlots_snd (i : ℕ) (h : i ≤ num) (next : Option (Fin num))
    (slots : Fin num → ReqdumpData num) (j : Fin num) : (linkSlots i h next slots).2 j =
      if j.1 < i then rsReqdumpDataInit { slots j with
        data := if hj : j.1 + 1 < i then some ⟨j.1 + 1, lt_of_lt_of_le hj h⟩ else next }
      else slots j := by
  induction i generalizing next slots with
  | zero => rfl
  | succ i ih =>
    rw [linkSlots, ih]
    rcases lt_trichotomy j.1 i with hj | hj | hj
    · have hne : j ≠ ⟨i, h⟩ := fun he => absurd (congrArg Fin.val he) (Nat.ne_of_lt hj)
      rw [if_pos hj, if_pos (by omega), Function.update_of_ne hne, dif_pos (by omega : j.1 + 1 < i + 1)]
      split
      · rfl
      · next h' =>
        have hji : j.1 + 1 = i := by omega
        simp only [hji]
    · have hji : j = ⟨i, h⟩ := Fin.ext hj
      rw [if_neg (by omega), if_pos (by omega), dif_neg (by omega), hji, Function.update_self]
    · have hne : j ≠ ⟨i, h⟩ := fun he => absurd (congrArg Fin.val he) (Nat.ne_of_gt hj)
      rw [if_neg (by omega), if_neg (by omega), Function.update_of_ne hne]

/-- Links from each slot to the next one make the array a list. -/
theorem linked_finRange {next : Fin num → Option (Fin num)}
    (hnext : ∀ j : Fin num, next j = if hj : j.1 + 1 < num then some ⟨j.1 + 1, hj⟩ else none)
    (k : ℕ) : Linked next (if hk : k < num then some ⟨k, hk⟩ else none)
      ((List.finRange num).drop k) := by
  induction hd : num - k generalizing k with
  | zero =>
    have hk : ¬ k < num := by omega
    rw [dif_neg hk, List.drop_eq_nil_of_le (by simp; omega)]
    trivial
  | succ d ih =>
    have hk : k < num := by omega
    rw [dif_pos hk, List.drop_eq_getElem_cons (by simpa using hk), List.getElem_finRange]
    refine ⟨rfl, ?_⟩
    rw [hnext]
    exact ih (k + 1) (by omega)

theorem rsCreateReqdump_isSome_iff {block : Fin num → ReqdumpData num} :
    (rsCreateReqdump num block).isSome ↔
      1 ≤ num ∧ sizeofReqdump + sizeofReqdumpData * num ≤ reqdumpBytes num := by
  rw [rsCreateReqdump]
  split <;> simp <;> omega

theorem free_rsCreateReqdump {block : Fin num → ReqdumpData num} {s : Reqdump num}
    (hs : rsCreateReqdump num block = some s) : s.Free none (List.finRange num) := by
  rw [rsCreateReqdump] at hs
  split at hs
  · cases hs
  · next h =>
    obtain rfl := Option.some.inj hs
    have hdata (j : Fin num) : ((linkSlots num le_rfl none block).2 j).isOpen = false ∧
        ((linkSlots num le_rfl none block).2 j).data =
          if hj : j.1 + 1 < num then some ⟨j.1 + 1, hj⟩ else none := by
      rw [linkSlots_snd, if_pos j.2]
      exact ⟨rfl, rfl⟩
    exact
      { linked := by
          change Linked _ (linkSlots num le_rfl none block).1 _
          rw [linkSlots_fst]
          exact linked_finRange (fun j => (hdata j).2) 0
        nodup := List.nodup_finRange num
        mem_iff := fun i => by simpa using (hdata i).1
        length_eq := List.length_finRange }

theorem blank_rsCreateReqdump {block : Fin num → ReqdumpData num} {s : Reqdump num}
    (hs : rsCreateReqdump num block = some s) (i : Fin num) :
    rsReqdumpDataInit (s.data i) = s.data i := by
  rw [rsCreateReqdump] at hs
  split at hs
  · cases hs
  · obtain rfl := Option.some.inj hs
    change rsReqdumpDataInit ((linkSlots num le_rfl none block).2 i) =
      (linkSlots num le_rfl none block).2 i
    rw [linkSlots_snd, if_pos i.2]
    rfl

variable {s t : Reqdump num} {busy : Option (Fin num)} {l : List (Fin num)} {i : Fin num}

/-- A slot that is handed out was closed and is the first of the list. -/
theorem Reqdump.Free.get (h : s.Free busy l) (hget : rsGetReqdumpData s = some (i, t)) :
    (s.data i).isOpen = false ∧ busy ≠ some i ∧ ∃ l', l = i :: l' ∧ t.Free busy l' := by
  rw [rsGetReqdumpData] at hget
  cases hfree : s.free with
  | none => rw [hfree] at hget; cases hget
  | some j =>
    rw [hfree] at hget
    obtain ⟨rfl, rfl⟩ := Prod.mk.inj (Option.some.inj hget)
    obtain ⟨l', rfl, hlinked⟩ := linked_some_iff.mp (hfree ▸ h.linked)
    obtain ⟨hnotMem, hnodup⟩ := List.nodup_cons.mp h.nodup
    obtain ⟨hclosed, hbusy⟩ := (h.mem_iff j).mp List.mem_cons_self
    refine ⟨hclosed, hbusy, l', rfl, ?_⟩
    exact
      { linked := hlinked.congr fun a ha => by
          have hne : a ≠ j := fun he => hnotMem (he ▸ ha)
          simp only [Function.update_of_ne hne]
        nodup := hnodup
        mem_iff := fun a => by
          by_cases ha : a = j
          · subst ha
            simp [hnotMem]
          · have := h.mem_iff a
            simpa [ha, Function.update_of_ne ha] using this
        length_eq := by
          have := h.length_eq
          simp only [List.length_cons] at this
          simp only []
          omega }

theorem Reqdump.Free.closeSlot (h : s.Free none l) (hopen : (s.data i).isOpen = true) :
    (closeSlot s i).Free (some i) l := by
  have hi : i ∉ l := fun hm => by
    have hclosed := ((h.mem_iff i).mp hm).1
    rw [hopen] at hclosed
    cases hclosed
  exact
    { linked := h.linked.congr fun a ha => by
        have hne : a ≠ i := fun he => hi (he ▸ ha)
        simp only [Master.closeSlot, Function.update_of_ne hne]
      nodup := h.nodup
      mem_iff := fun a => by
        by_cases ha : a = i
        · subst ha
          simp [hi]
        · have := h.mem_iff a
          simpa [Master.closeSlot, Function.update_of_ne ha, Ne.symm ha] using this
      length_eq := h.length_eq }

theorem Reqdump.Free.releaseSlot (h : s.Free (some i) l) (hrel : releaseSlot s i = some t) :
    t.Free none (i :: l) := by
  rw [Master.releaseSlot] at hrel
  split at hrel
  · cases hrel
  · obtain rfl := Option.some.inj hrel
    have hi : i ∉ l := fun hm => ((h.mem_iff i).mp hm).2 rfl
    exact
      { linked := by
          refine ⟨rfl, ?_⟩
          simp only [Function.update_self, rsReqdumpDataInit]
          refine h.linked.congr fun a ha => ?_
          have hne : a ≠ i := fun he => hi (he ▸ ha)
          simp only [Function.update_of_ne hne]
        nodup := List.nodup_cons.mpr ⟨hi, h.nodup⟩
        mem_iff := fun a => by
          by_cases ha : a = i
          · subst ha
            simp [rsReqdumpDataInit]
          · have := h.mem_iff a
            simpa [Function.update_of_ne ha, ha, Ne.symm ha] using this
        length_eq := by simp [h.length_eq] }

theorem Reqdump.Free.writeSlot (h : s.Free busy l) (d : ReqdumpData num) :
    (writeSlot s i d).Free busy l := by
  have hkeep (a : Fin num) : ((Master.writeSlot s i d).data a).data = (s.data a).data ∧
      ((Master.writeSlot s i d).data a).isOpen = (s.data a).isOpen := by
    by_cases ha : a = i
    · subst ha
      simp [Master.writeSlot]
    · simp [Master.writeSlot, Function.update_of_ne ha]
  exact
    { linked := h.linked.congr fun a _ => (hkeep a).1
      nodup := h.nodup
      mem_iff := fun a => by rw [(hkeep a).2]; exact h.mem_iff a
      length_eq := h.length_eq }

end MySQLSyncer.Master
