import MySQLSyncer.Lib.Transition
import MySQLSyncer.Master.ReqDump

/-! # Handing out session slots

The calls come from any threads, one after another under the mutex. Between them the threads
write the other fields of the slots.
-/
namespace MySQLSyncer.Master
open Lib

inductive SlotCall (num : ℕ) where
  | get
  | free (i : Fin num)
  | write (i : Fin num) (d : ReqdumpData num)

variable {num : ℕ}

def slotCall (s : Reqdump num) : SlotCall num → Option (Option (Fin num) × Reqdump num)
  | .get => (rsGetReqdumpData s).map fun (i, t) => (some i, t)
  | .free i => (rsFreeReqdumpData s i).map fun t => (none, t)
  | .write i d => some (none, writeSlot s i d)

def slotStep (s : Reqdump num) (a : SlotCall num) : Option (Reqdump num) :=
  (slotCall s a).map Prod.snd

/-- The free list holds the slots that are not open, each once, and `free_num` counts them. -/
def Reqdump.Partitioned (s : Reqdump num) : Prop := ∃ l, s.Free none l

/-- The call returns, keeps the partition and gives out no open slot. With all slots open a get
returns `NULL` and changes nothing, nor does the release of a slot that is not open. -/
def Reqdump.CallKept (s : Reqdump num) (a : SlotCall num) : Prop :=
  ∃ r t, slotCall s a = some (r, t) ∧ t.Partitioned ∧
    match a with
    | .get => ((∀ i, (s.data i).isOpen = true) → r = none ∧ t = s) ∧
        ∀ i, r = some i → (s.data i).isOpen = false ∧ (t.data i).isOpen = true
    | .free i => (s.data i).isOpen = false → t = s
    | .write _ _ => True

/-- A get finds a free slot, and an open slot is released only with its pool and ring in it. -/
def Reqdump.CallOk (s : Reqdump num) : SlotCall num → Prop
  | .get => s.free ≠ none
  | .free i => (s.data i).isOpen = true → (s.data i).ringbuf ≠ none ∧ (s.data i).pool ≠ none
  | .write _ _ => True

instance (s : Reqdump num) (a : SlotCall num) : Decidable (s.CallOk a) :=
  match a with
  | .get => inferInstanceAs (Decidable (_ ≠ _))
  | .free _ => inferInstanceAs (Decidable (_ → _))
  | .write _ _ => isTrue trivial

variable {s t : Reqdump num} {l : List (Fin num)} {i : Fin num}

theorem Reqdump.Free.free_ne_none_iff (h : s.Free none l) :
    s.free ≠ none ↔ ∃ i, (s.data i).isOpen = false := by
  constructor
  · intro hfree
    obtain ⟨j, hj⟩ := Option.ne_none_iff_exists'.mp hfree
    obtain ⟨l', rfl, -⟩ := linked_some_iff.mp (hj ▸ h.linked)
    exact ⟨j, ((h.mem_iff j).mp List.mem_cons_self).1⟩
  · rintro ⟨i, hi⟩ hfree
    have hl : l = [] := linked_none_iff.mp (hfree ▸ h.linked)
    have hm : i ∈ l := (h.mem_iff i).mpr ⟨hi, by simp⟩
    rw [hl] at hm
    cases hm

theorem rsFreeReqdumpData_partitioned (h : s.Partitioned) (hfree : rsFreeReqdumpData s i = some t) :
    t.Partitioned := by
  obtain ⟨l, hl⟩ := h
  rw [rsFreeReqdumpData] at hfree
  split at hfree
  · next hopen => exact ⟨i :: l, (hl.closeSlot hopen).releaseSlot hfree⟩
  · obtain rfl := Option.some.inj hfree
    exact ⟨l, hl⟩

theorem rsGetReqdumpData_partitioned (h : s.Partitioned) (hget : rsGetReqdumpData s = some (i, t)) :
    (s.data i).isOpen = false ∧ (t.data i).isOpen = true ∧ t.Partitioned := by
  obtain ⟨l, hl⟩ := h
  obtain ⟨hclosed, -, l', -, hl'⟩ := hl.get hget
  refine ⟨hclosed, ?_, l', hl'⟩
  rw [rsGetReqdumpData] at hget
  cases hfree : s.free with
  | none => rw [hfree] at hget; cases hget
  | some j =>
    rw [hfree] at hget
    obtain ⟨rfl, rfl⟩ := Prod.mk.inj (Option.some.inj hget)
    simp

theorem slotStep_partitioned (a : SlotCall num) (h : s.Partitioned) (hstep : slotStep s a = some t) :
    t.Partitioned := by
  obtain ⟨⟨r, t'⟩, hcall, rfl⟩ := Option.map_eq_some_iff.mp hstep
  cases a with
  | get =>
    obtain ⟨⟨j, u⟩, hget, he⟩ := Option.map_eq_some_iff.mp hcall
    obtain ⟨-, rfl⟩ := Prod.mk.inj he
    exact (rsGetReqdumpData_partitioned h hget).2.2
  | free i =>
    obtain ⟨u, hfree, he⟩ := Option.map_eq_some_iff.mp hcall
    obtain ⟨-, rfl⟩ := Prod.mk.inj he
    exact rsFreeReqdumpData_partitioned h hfree
  | write i d =>
    obtain ⟨-, rfl⟩ := Prod.mk.inj (Option.some.inj hcall)
    obtain ⟨l, hl⟩ := h
    exact ⟨l, hl.writeSlot d⟩

theorem rsFreeReqdumpData_isSome_iff : (rsFreeReqdumpData s i).isSome ↔ s.CallOk (.free i) := by
  rw [rsFreeReqdumpData, Reqdump.CallOk]
  split
  · next hopen =>
    have hrel : (releaseSlot (closeSlot s i) i).isSome ↔
        ¬ ((s.data i).ringbuf = none ∨ (s.data i).pool = none) := by
      simp only [releaseSlot, closeSlot, Function.update_self]
      split <;> simp_all
    rw [hrel, not_or]
    exact ⟨fun h _ => h, fun h => h hopen⟩
  · next hopen => simp [hopen]

/-- A call keeps the slots exactly if it meets the condition. -/
theorem callKept_iff (h : s.Partitioned) (a : SlotCall num) : s.CallKept a ↔ s.CallOk a := by
  cases a with
  | get =>
    constructor
    · rintro ⟨r, t, hcall, -⟩ hfree
      simp [slotCall, rsGetReqdumpData, hfree] at hcall
    · intro hfree
      obtain ⟨j, hj⟩ := Option.ne_none_iff_exists'.mp hfree
      obtain ⟨t, hget⟩ : ∃ t, rsGetReqdumpData s = some (j, t) := by simp [rsGetReqdumpData, hj]
      obtain ⟨hclosed, hopen, ht⟩ := rsGetReqdumpData_partitioned h hget
      refine ⟨some j, t, by rw [slotCall, hget]; rfl, ht, fun hall => ?_, fun i hi => ?_⟩
      · rw [hall j] at hclosed
        cases hclosed
      · obtain rfl := Option.some.inj hi
        exact ⟨hclosed, hopen⟩
  | free i =>
    rw [← rsFreeReqdumpData_isSome_iff]
    constructor
    · rintro ⟨r, t, hcall, -⟩
      obtain ⟨u, hfree, -⟩ := Option.map_eq_some_iff.mp hcall
      rw [hfree]
      rfl
    · intro hsome
      obtain ⟨t, hfree⟩ := Option.isSome_iff_exists.mp hsome
      refine ⟨none, t, by rw [slotCall, hfree]; rfl, rsFreeReqdumpData_partitioned h hfree, ?_⟩
      intro hclosed
      rw [rsFreeReqdumpData, hclosed] at hfree
      exact (Option.some.inj hfree).symm
  | write i d =>
    obtain ⟨l, hl⟩ := h
    exact ⟨fun _ => trivial, fun _ => ⟨none, _, rfl, ⟨l, hl.writeSlot d⟩, trivial⟩⟩

def oneSession : List (SlotCall 1) :=
  [.get, .write 0 { (default : ReqdumpData 1) with ringbuf := some 0, pool := some 1 },
    .free 0, .free 0, .get]

/-- The slots are kept over a run exactly if the table fits its block and every call meets the
condition. -/
theorem slots_kept_iff (num : ℕ) (hnum : 1 ≤ num) (block : Fin num → ReqdumpData num)
    (calls : List (SlotCall num)) :
    (∃ s, rsCreateReqdump num block = some s ∧ s.Partitioned ∧
        Along slotStep Reqdump.CallKept s calls) ↔
      sizeofReqdump + sizeofReqdumpData * num < 2 ^ 32 ∧
        ∀ s, rsCreateReqdump num block = some s → Along slotStep Reqdump.CallOk s calls := by
  have hcalls {s : Reqdump num} (hs : s.Partitioned) :
      Along slotStep Reqdump.CallKept s calls ↔ Along slotStep Reqdump.CallOk s calls :=
    along_iff_of_inv (fun _ a _ h hstep => slotStep_partitioned a h hstep)
      (fun _ a h => callKept_iff h a) hs
  have hfits : (rsCreateReqdump num block).isSome ↔
      sizeofReqdump + sizeofReqdumpData * num < 2 ^ 32 := by
    rw [rsCreateReqdump_isSome_iff, reqdumpBytes, sizeofReqdump, sizeofReqdumpData]
    omega
  constructor
  · rintro ⟨s, hs, hpart, hall⟩
    refine ⟨hfits.mp (hs ▸ rfl), fun s' hs' => ?_⟩
    obtain rfl := Option.some.inj (hs.symm.trans hs')
    exact (hcalls hpart).mp hall
  · rintro ⟨hsize, hall⟩
    obtain ⟨s, hs⟩ := Option.isSome_iff_exists.mp (hfits.mpr hsize)
    have hpart : s.Partitioned := ⟨_, free_rsCreateReqdump hs⟩
    exact ⟨s, hs, hpart, (hcalls hpart).mpr (hall s hs)⟩

theorem slots_kept_sample :
    (∃ s, rsCreateReqdump 1 (fun _ => default) = some s ∧ s.Partitioned ∧
        Along slotStep Reqdump.CallKept s oneSession) ↔
      sizeofReqdump + sizeofReqdumpData * 1 < 2 ^ 32 ∧
        ∀ s, rsCreateReqdump 1 (fun _ => default) = some s →
          Along slotStep Reqdump.CallOk s oneSession :=
  slots_kept_iff 1 le_rfl _ _

/-- A second connection on a table with one slot. -/
theorem get_beyond_last_slot : ∃ s, rsCreateReqdump 1 (fun _ => default) = some s ∧
    ¬ Along slotStep Reqdump.CallKept s [.get, .get] := by
  refine ⟨_, rfl, fun h => ?_⟩
  obtain ⟨-, hlater⟩ := h
  obtain ⟨⟨r, t, hcall, -⟩, -⟩ := hlater _ rfl
  cases hcall

end MySQLSyncer.Master
