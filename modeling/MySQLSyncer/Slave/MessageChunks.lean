import MySQLSyncer.Core.CreatePool
import MySQLSyncer.Core.PallocFits

/-! # The chunks of the slave's ring

What `rs_start_io_thread` does with the chunks of `si->pool`. The outcome of each receive is
chosen by the environment, as is the address that `malloc` returns if it is called; neither
`malloc` nor `realloc` fails.
-/
namespace MySQLSyncer.Slave
open Lib MySQLSyncer.Core

/-- Between connections, at the top of the inner loop, before the length and before the
payload of a message, gone, or behind an access outside the class table. -/
inductive SlotPhase where
  | offline
  | ready
  | length
  | payload
  | exited
  | undefined
  deriving DecidableEq, Repr

/-- The pool, and the pointer and id in each slot of the ring. Of the ring's other fields,
`wp` is an index and `used` is `wn - rn`. The history is every chunk a slot ever had, and
whether `rs_pfree` was called for a chunk that was not in use. -/
structure MessageSlots where
  use : PoolUse
  slots : List (Option Chunk)
  wp : ℕ
  used : ℕ
  phase : SlotPhase
  given : List Chunk
  freedTwice : Bool
  deriving DecidableEq, Repr

def MessageSlots.init (use : PoolUse) (num : ℕ) : MessageSlots :=
  { use := use, slots := List.replicate num none, wp := 0, used := 0, phase := .offline
    given := [], freedTwice := false }

inductive SlotAct where
  | connect
  /-- `rs_ringbuf_set` returns a slot, whose chunk is released. -/
  | slot
  /-- The first receive fails, or returns a length. -/
  | length (outcome : Option (UInt32 × ℕ))
  | payload (ok : Bool)
  /-- The other thread has read a slot. -/
  | consume
  deriving DecidableEq

/-- The call of `rs_palloc` for a message. -/
def allocMessage (s : MessageSlots) (len answer : ℕ) : Option MessageSlots := do
  let id ← rsPallocId s.use.pool len
  if id = RsCode.err.toInt then some { s with phase := .undefined }
  else if s.use.Enabled (.palloc len id answer) then
    let (data, pool) ← rsPalloc ⟨fun _ => some answer, true⟩ s.use.pool len id
    let x := data.map fun t => (⟨id, t, chunkLen s.use.pool len id⟩ : Chunk)
    some { s with
      use := ⟨pool, x.toList ++ s.use.live⟩
      slots := s.slots.set s.wp x
      phase := if x = none then .exited else .payload
      given := x.toList ++ s.given }
  else none

def slotStep (s : MessageSlots) : SlotAct → Option MessageSlots
  | .connect => if s.phase = .offline then some { s with phase := .ready } else none
  | .slot => if s.phase = .ready ∧ s.used < s.slots.length then
      match s.slots[s.wp]? with
      | none => none
      | some none => some { s with phase := .length }
      | some (some x) => (poolCall s.use (.pfree x)).map fun use =>
          -- the pointer stays in the slot
          { s with use := use, phase := .length, freedTwice := s.freedTwice || decide (x ∉ s.use.live) }
      else none
  | .length none => if s.phase = .length then some { s with phase := .offline } else none
  | .length (some (len, answer)) => if s.phase = .length then allocMessage s len.toNat answer else none
  | .payload ok => if s.phase = .payload then
      if ok then some { s with
        wp := if s.wp + 1 = s.slots.length then 0 else s.wp + 1, used := s.used + 1, phase := .ready }
      else some { s with phase := .offline }
      else none
  | .consume => if 0 < s.used then some { s with used := s.used - 1 } else none

/-- Each chunk of the pool that a slot ever had is in one slot, or once in its free list. A slot
has a chunk that is in use, and no two slots share one. -/
structure MessageSlots.Owned (s : MessageSlots) : Prop where
  single : ∀ x ∈ s.given, ¬ x.IsOverflow → s.slots.count (some x) + s.use.pool.freeCount x = 1
  live : ∀ x, some x ∈ s.slots → x ∈ s.use.live
  apart : s.slots.reduceOption.Pairwise fun x y => Disjoint x.extent.cells y.extent.cells

/-- No chunk is released twice, and no access leaves the class table. -/
structure MessageSlots.Sound (s : MessageSlots) : Prop where
  once : s.freedTwice = false
  defined : s.phase ≠ .undefined

/-- The slot that is being refilled still has the pointer to the chunk it has released. -/
def MessageSlots.Refilling (s : MessageSlots) : Prop := s.phase = .length

/-- A receive of a length fails only on a slot that never had a chunk, and none is zero. -/
def MessageSlots.RefillOk (s : MessageSlots) : SlotAct → Prop
  | .length none => s.slots[s.wp]? = some none
  | .length (some (len, _)) => len ≠ 0
  | _ => True

/-- The thread takes only slots that never had a chunk, and no length is zero. -/
def MessageSlots.FirstUse (s : MessageSlots) : SlotAct → Prop
  | .slot => s.slots[s.wp]? = some none
  | .length (some (len, _)) => len ≠ 0
  | _ => True

instance : ∀ (s : MessageSlots) (a : SlotAct), Decidable (s.RefillOk a)
  | s, .length none => inferInstanceAs (Decidable (s.slots[s.wp]? = some none))
  | _, .length (some (len, _)) => inferInstanceAs (Decidable (len ≠ 0))
  | _, .connect | _, .slot | _, .payload _ | _, .consume => isTrue trivial

instance : ∀ (s : MessageSlots) (a : SlotAct), Decidable (s.FirstUse a)
  | s, .slot => inferInstanceAs (Decidable (s.slots[s.wp]? = some none))
  | _, .length (some (len, _)) => inferInstanceAs (Decidable (len ≠ 0))
  | _, .connect | _, .length none | _, .payload _ | _, .consume => isTrue trivial

def MessageSlots.current (s : MessageSlots) : List (Option Chunk) :=
  if s.phase = .length then s.slots.set s.wp none else s.slots

structure MessageSlots.Inv (others : List Chunk) (s : MessageSlots) : Prop where
  pool : s.use.Inv
  sound : s.Sound
  inRing : s.phase = .length ∨ s.phase = .payload → s.wp < s.slots.length
  live : s.use.live.Perm (s.current.reduceOption ++ others)
  stale : s.phase = .length → ∀ x, s.slots[s.wp]? = some (some x) → x ∉ s.use.live
  given : ∀ x, some x ∈ s.slots → x ∈ s.given
  keeps : ∀ x ∈ s.given, ¬ x.IsOverflow → s.use.Keeps x
  foreign : ∀ x ∈ s.given, x ∉ others

variable {others : List Chunk} {s t : MessageSlots} {i : ℕ}

theorem count_reduceOption {α : Type*} [DecidableEq α] (l : List (Option α)) (x : α) :
    l.reduceOption.count x = l.count (some x) := by
  induction l with
  | nil => rfl
  | cons a l ih =>
    cases a with
    | none => rw [List.reduceOption_cons_of_none, ih, List.count_cons_of_ne (by simp)]
    | some a => simp only [List.reduceOption_cons_of_some, List.count_cons, ih]; simp

theorem reduceOption_set {l : List (Option Chunk)} (hi : i < l.length) (x : Option Chunk) :
    (l.set i x).reduceOption.Perm (x.toList ++ (l.set i none).reduceOption) := by
  obtain ⟨r, -, hset⟩ := perm_set (List.getElem?_eq_getElem hi)
  have hnone : (l.set i none).reduceOption.Perm r.reduceOption := (hset none).filterMap id
  have hx : (l.set i x).reduceOption.Perm (x.toList ++ r.reduceOption) := by
    refine ((hset x).filterMap id).trans (List.Perm.of_eq ?_)
    cases x <;> rfl
  exact hx.trans (hnone.symm.append_left x.toList)

theorem set_same {l : List (Option Chunk)} {x : Option Chunk} (h : l[i]? = some x) : l.set i x = l := by
  obtain ⟨hi, rfl⟩ := List.getElem?_eq_some_iff.mp h
  exact List.set_getElem_self hi

theorem MessageSlots.current_eq (hslot : s.phase = .length → s.slots[s.wp]? = some none) :
    s.current = s.slots := by
  rw [current]
  split_ifs with hp
  · exact set_same (hslot hp)
  · rfl

/-- Outside the refill of a slot, or when the slot had no chunk, the slots own their chunks. -/
theorem MessageSlots.Inv.owned (h : s.Inv others)
    (hslot : s.phase = .length → s.slots[s.wp]? = some none) : s.Owned := by
  have hperm := h.live
  rw [current_eq hslot] at hperm
  have hlive (x : Chunk) (hx : some x ∈ s.slots) : x ∈ s.use.live :=
    hperm.symm.subset (List.mem_append_left _ (List.reduceOption_mem_iff.mpr hx))
  have hnodup := (List.nodup_append.mp (hperm.nodup_iff.mp h.pool.live_nodup)).1
  have hdisjoint := h.pool.safe.disjoint
  refine ⟨fun x hx ho => ?_, hlive, ?_⟩
  · by_cases hin : x ∈ s.use.live
    · have hmem := (List.mem_append.mp (hperm.subset hin)).resolve_right (h.foreign x hx)
      rw [h.pool.freeCount_live hin, ← count_reduceOption, List.count_eq_one_of_mem hnodup hmem]
    · rw [h.pool.freeCount_keeps (h.keeps x hx ho) hin,
        List.count_eq_zero_of_not_mem fun hm => hin (hlive x hm)]
  · have hpair := (hperm.pairwise_iff fun {x y} hxy => Disjoint.symm hxy).mp hdisjoint
    exact (List.pairwise_append.mp hpair).1

/-- The thread leaves a slot that it has not released, or that never had a chunk. -/
theorem MessageSlots.Inv.leave {phase : SlotPhase} {wp used : ℕ} (h : s.Inv others)
    (hslot : s.phase = .length → s.slots[s.wp]? = some none)
    (hphase : phase = .offline ∨ phase = .ready) :
    MessageSlots.Inv others { s with phase := phase, wp := wp, used := used } := by
  have hne : phase ≠ .length ∧ phase ≠ .payload ∧ phase ≠ .undefined := by
    rcases hphase with rfl | rfl <;> decide
  exact
    { h with
      sound := ⟨h.sound.once, hne.2.2⟩
      inRing := fun hph => absurd hph (not_or.mpr ⟨hne.1, hne.2.1⟩)
      live := by
        have hlive := h.live
        rw [current_eq hslot] at hlive
        rw [current, if_neg hne.1]
        exact hlive
      stale := fun hph => absurd hph hne.1 }

theorem MessageSlots.Inv.connect (h : s.Inv others) (hs : slotStep s .connect = some t) :
    t.Inv others := by
  rw [slotStep] at hs
  split_ifs at hs with hp
  obtain rfl := Option.some.inj hs
  exact h.leave (by rw [hp]; nofun) (Or.inr rfl)

theorem MessageSlots.Inv.slot (h : s.Inv others) (hs : slotStep s .slot = some t) :
    t.Inv others ∧ t.phase = .length ∧ t.slots = s.slots ∧ t.wp = s.wp := by
  rw [slotStep] at hs
  split_ifs at hs with hp
  have hlive := h.live
  rw [current, if_neg (by rw [hp.1]; decide)] at hlive
  cases hslot : s.slots[s.wp]? with
  | none => rw [hslot] at hs; cases hs
  | some o =>
    have hin : s.wp < s.slots.length := (List.getElem?_eq_some_iff.mp hslot).1
    cases o with
    | none =>
      rw [hslot] at hs
      obtain rfl := Option.some.inj hs
      refine ⟨?_, rfl, rfl, rfl⟩
      exact
        { h with
          sound := ⟨h.sound.once, nofun⟩
          inRing := fun _ => hin
          live := by
            change s.use.live.Perm ((s.slots.set s.wp none).reduceOption ++ others)
            rw [set_same hslot]
            exact hlive
          stale := fun _ x hx => by
            have := hslot.symm.trans hx
            cases this }
    | some x =>
      rw [hslot] at hs
      obtain ⟨use, hcall, rfl⟩ := Option.map_eq_some_iff.mp hs
      have hx : x ∈ s.use.live :=
        hlive.symm.subset (List.mem_append_left _
          (List.reduceOption_mem_iff.mpr (List.mem_of_getElem? hslot)))
      obtain ⟨use', hcall', hinv⟩ := h.pool.pfree hx
      obtain rfl := Option.some.inj (hcall.symm.trans hcall')
      have huse : use.live = s.use.live.erase x := by
        obtain ⟨p, -, rfl⟩ := Option.map_eq_some_iff.mp hcall
        rfl
      refine ⟨?_, rfl, rfl, rfl⟩
      exact
        { pool := hinv
          sound := ⟨by simp [h.sound.once, hx], nofun⟩
          inRing := fun _ => hin
          live := by
            change use.live.Perm ((s.slots.set s.wp none).reduceOption ++ others)
            rw [huse]
            have hset := reduceOption_set hin (some x)
            rw [set_same hslot] at hset
            have hall : s.use.live.Perm (x :: ((s.slots.set s.wp none).reduceOption ++ others)) :=
              hlive.trans (hset.append_right others)
            exact ((List.perm_cons_erase hx).symm.trans hall).cons_inv
          stale := fun _ y hy => by
            obtain rfl := Option.some.inj (Option.some.inj (hslot.symm.trans hy))
            rw [huse]
            exact h.pool.live_nodup.not_mem_erase
          given := h.given
          keeps := fun y hy ho => (h.keeps y hy ho).pfree h.pool ho hcall
          foreign := h.foreign }

theorem slotStep_slot_keeps (hs : slotStep s .slot = some t) :
    s.used < s.slots.length ∧ t.used = s.used ∧ s.use.pool.SameTable t.use.pool := by
  obtain ⟨⟨-, hroom⟩, hs⟩ := Option.ite_none_right_eq_some.mp hs
  refine ⟨hroom, ?_⟩
  cases hslot : s.slots[s.wp]? with
  | none =>
    rw [hslot] at hs
    cases hs
  | some o =>
    rw [hslot] at hs
    cases o with
    | none =>
      obtain rfl := Option.some.inj hs
      exact ⟨rfl, .refl _⟩
    | some x =>
      obtain ⟨use, hcall, rfl⟩ := Option.map_eq_some_iff.mp hs
      exact ⟨rfl, poolCall_sameTable hcall⟩

theorem slotStep_length {a : SlotAct} (hs : slotStep s a = some t) : t.slots.length = s.slots.length := by
  cases a with
  | connect | consume =>
    obtain ⟨-, hs⟩ := Option.ite_none_right_eq_some.mp hs
    obtain rfl := Option.some.inj hs
    rfl
  | payload ok =>
    obtain ⟨-, hs⟩ := Option.ite_none_right_eq_some.mp hs
    split_ifs at hs <;> obtain rfl := Option.some.inj hs <;> rfl
  | slot =>
    obtain ⟨-, hs⟩ := Option.ite_none_right_eq_some.mp hs
    split at hs
    · cases hs
    · obtain rfl := Option.some.inj hs
      rfl
    · obtain ⟨use, -, rfl⟩ := Option.map_eq_some_iff.mp hs
      rfl
  | length outcome =>
    cases outcome with
    | none =>
      obtain ⟨-, hs⟩ := Option.ite_none_right_eq_some.mp hs
      obtain rfl := Option.some.inj hs
      rfl
    | some x =>
      obtain ⟨-, hs⟩ := Option.ite_none_right_eq_some.mp hs
      obtain ⟨id, -, hs⟩ := Option.bind_eq_some_iff.mp hs
      split_ifs at hs
      · obtain rfl := Option.some.inj hs
        rfl
      · obtain ⟨r, -, hs⟩ := Option.bind_eq_some_iff.mp hs
        obtain rfl := Option.some.inj hs
        exact List.length_set

/-- The chunk for a message that is not empty, when the call of `rs_palloc` may be made. -/
theorem allocMessage_eq {len answer : ℕ} (hlen : len ≠ 0) (hs : allocMessage s len answer = some t) :
    ∃ id r pool, rsPallocId s.use.pool len = some id ∧ s.use.Enabled (.palloc len id answer) ∧
      rsPalloc ⟨fun _ => some answer, true⟩ s.use.pool len id = some (r, pool) ∧
      t = { s with
        use := ⟨pool, (r.map fun a => (⟨id, a, chunkLen s.use.pool len id⟩ : Chunk)).toList ++ s.use.live⟩
        slots := s.slots.set s.wp (r.map fun a => ⟨id, a, chunkLen s.use.pool len id⟩)
        phase := if r = none then .exited else .payload
        given := (r.map fun a => (⟨id, a, chunkLen s.use.pool len id⟩ : Chunk)).toList ++ s.given } := by
  obtain ⟨id, hid, hrange⟩ := rsPallocId_spec s.use.pool hlen
  have herr : id ≠ RsCode.err.toInt := by
    rintro rfl
    rcases hrange with h | h
    · exact absurd h (by decide)
    · obtain ⟨c, hc⟩ := Option.isSome_iff_exists.mp h
      exact absurd (classAt_eq_some.mp hc).1 (by decide)
  simp only [allocMessage, hid, Option.bind_eq_bind, Option.bind_some, if_neg herr] at hs
  split_ifs at hs with hen
  obtain ⟨⟨r, pool⟩, hrun, hs⟩ := Option.bind_eq_some_iff.mp hs
  refine ⟨id, r, pool, hid, hen, hrun, (Option.some.inj hs).symm.trans ?_⟩
  cases r <;> rfl

/-- The slot under refill gets the chunk that `rs_palloc` returns, if it returns one. -/
theorem MessageSlots.Inv.fill {len answer : ℕ} {id : ℤ} {r : Option ℕ} {pool : RsPool} {phase : SlotPhase}
    (h : s.Inv others) (hp : s.phase = .length) (hen : s.use.Enabled (.palloc len id answer))
    (hrun : rsPalloc ⟨fun _ => some answer, true⟩ s.use.pool len id = some (r, pool))
    (hphase : phase = if r = none then .exited else .payload) {x : Option Chunk}
    (hx : x = r.map fun a => ⟨id, a, chunkLen s.use.pool len id⟩) :
    MessageSlots.Inv others { s with
      use := ⟨pool, x.toList ++ s.use.live⟩, slots := s.slots.set s.wp x
      phase := phase, given := x.toList ++ s.given } := by
  have hcall : poolCall s.use (.palloc len id answer) = some ⟨pool, x.toList ++ s.use.live⟩ := by
    rw [poolCall, hrun, hx]
    rfl
  obtain ⟨use, hcall', hinv⟩ := h.pool.palloc hen
  obtain rfl := Option.some.inj (hcall.symm.trans hcall')
  have hin := h.inRing (Or.inl hp)
  have hlive := h.live
  rw [current, if_pos hp] at hlive
  have hne : phase ≠ .length ∧ phase ≠ .undefined := by
    rw [hphase]
    split_ifs <;> exact ⟨nofun, nofun⟩
  have hnodup : (x.toList ++ s.use.live).Nodup := hinv.live_nodup
  have hnew (y : Chunk) (hy : y ∈ x.toList) : y ∉ s.use.live :=
    fun hm => (List.nodup_append.mp hnodup).2.2 y hy y hm rfl
  exact
    { pool := hinv
      sound := ⟨h.sound.once, hne.2⟩
      inRing := fun _ => (List.length_set ..).symm ▸ hin
      live := by
        rw [current, if_neg hne.1]
        refine (hlive.append_left x.toList).trans ?_
        rw [← List.append_assoc]
        exact (reduceOption_set hin x).symm.append_right others
      stale := fun hph => absurd hph hne.1
      given := fun y hy => by
        rcases List.mem_or_eq_of_mem_set hy with hy | hy
        · exact List.mem_append_right _ (h.given y hy)
        · exact List.mem_append_left _ (by rw [← hy]; exact List.mem_singleton_self y)
      keeps := fun y hy ho => by
        rcases List.mem_append.mp hy with hy | hy
        · exact Or.inl (List.mem_append_left _ hy)
        · exact (h.keeps y hy ho).palloc hcall
      foreign := fun y hy hm => by
        rcases List.mem_append.mp hy with hy | hy
        · exact hnew y hy (hlive.symm.subset (List.mem_append_right _ hm))
        · exact h.foreign y hy hm }

theorem MessageSlots.Inv.length {len : UInt32} {answer : ℕ} (h : s.Inv others) (hlen : len ≠ 0)
    (hs : slotStep s (.length (some (len, answer))) = some t) : t.Inv others ∧ t.phase ≠ .length := by
  rw [slotStep] at hs
  split_ifs at hs with hp
  have hne : len.toNat ≠ 0 := fun h0 => hlen (UInt32.toNat_inj.mp h0)
  obtain ⟨id, r, pool, -, hen, hrun, rfl⟩ := allocMessage_eq hne hs
  refine ⟨h.fill hp hen hrun rfl rfl, ?_⟩
  cases r <;> nofun

theorem MessageSlots.Inv.payload {ok : Bool} (h : s.Inv others)
    (hs : slotStep s (.payload ok) = some t) : t.Inv others ∧ t.phase ≠ .length := by
  rw [slotStep] at hs
  obtain ⟨hp, hs⟩ := Option.ite_none_right_eq_some.mp hs
  have hslot : s.phase = .length → s.slots[s.wp]? = some none := by
    rw [hp]
    nofun
  cases ok with
  | true =>
    rw [if_pos rfl] at hs
    obtain rfl := Option.some.inj hs
    exact ⟨h.leave hslot (Or.inr rfl), nofun⟩
  | false =>
    rw [if_neg Bool.false_ne_true] at hs
    obtain rfl := Option.some.inj hs
    exact ⟨h.leave hslot (Or.inl rfl), nofun⟩

theorem MessageSlots.Inv.consume (h : s.Inv others) (hs : slotStep s .consume = some t) :
    t.Inv others ∧ t.phase = s.phase ∧ t.slots = s.slots ∧ t.wp = s.wp := by
  rw [slotStep] at hs
  split_ifs at hs
  obtain rfl := Option.some.inj hs
  exact ⟨{ h with sound := ⟨h.sound.once, h.sound.defined⟩ }, rfl, rfl, rfl⟩

/-- A length of zero selects no class, and `rs_palloc` reads in front of the table. -/
theorem length_ne_zero {x : UInt32 × ℕ} (hs : slotStep s (.length (some x)) = some t)
    (ht : t.Sound) : x.1 ≠ 0 := by
  obtain ⟨len, answer⟩ := x
  rintro rfl
  rw [slotStep] at hs
  split_ifs at hs
  have hzero : allocMessage s 0 answer = some { s with phase := .undefined } := rfl
  obtain rfl := Option.some.inj (hzero.symm.trans hs)
  exact ht.defined rfl

theorem MessageSlots.Inv.step (h : s.Inv others) {a : SlotAct} (hok : s.RefillOk a)
    (hs : slotStep s a = some t) : t.Inv others := by
  cases a with
  | connect => exact h.connect hs
  | slot => exact (h.slot hs).1
  | length outcome =>
    cases outcome with
    | none =>
      rw [slotStep] at hs
      split_ifs at hs
      obtain rfl := Option.some.inj hs
      exact h.leave (fun _ => hok) (Or.inl rfl)
    | some x => exact (h.length hok hs).1
  | payload ok => exact (h.payload hs).1
  | consume => exact (h.consume hs).1

/-- The slot that comes next still has a chunk that was released. -/
def MessageSlots.Stale (s : MessageSlots) : Prop := ∃ x, s.slots[s.wp]? = some (some x) ∧ x ∉ s.use.live

theorem MessageSlots.Owned.not_stale (h : s.Owned) : ¬ s.Stale :=
  fun ⟨x, hx, hnot⟩ => hnot (h.live x (List.mem_of_getElem? hx))

theorem MessageSlots.Inv.slot_empty (h : s.Inv others) (hp : s.phase = .length) (hnot : ¬ s.Stale) :
    s.slots[s.wp]? = some none := by
  have hin := h.inRing (Or.inl hp)
  cases hslot : s.slots[s.wp]? with
  | none => exact absurd hin (List.getElem?_eq_none_iff.mp hslot).not_gt
  | some x =>
    cases x with
    | none => rfl
    | some x => exact absurd ⟨x, hslot, h.stale hp x hslot⟩ hnot

/-- Each step keeps the chunks owned exactly when a failing receive leaves no released chunk
in its slot. -/
theorem refillOk_iff (h : s.Inv others) {a : SlotAct} (hs : slotStep s a = some t) :
    s.RefillOk a ↔ t.Sound ∧ (¬ t.Refilling → t.Owned) := by
  refine ⟨fun hok => ?_, fun ⟨hsound, howned⟩ => ?_⟩
  · have ht := h.step hok hs
    exact ⟨ht.sound, fun hrefill => ht.owned fun hp => absurd hp hrefill⟩
  · cases a with
    | length outcome =>
      cases outcome with
      | none =>
        rw [slotStep] at hs
        split_ifs at hs with hp
        obtain rfl := Option.some.inj hs
        exact h.slot_empty hp (howned nofun).not_stale
      | some x => exact length_ne_zero hs hsound
    | _ => trivial

def MessageSlots.Fresh (s : MessageSlots) : Prop := s.phase = .length → s.slots[s.wp]? = some none

theorem fresh_step (h : s.Inv others) (hf : s.Fresh) {a : SlotAct} (hok : s.FirstUse a)
    (hs : slotStep s a = some t) : t.Inv others ∧ t.Fresh := by
  have ht : t.Inv others := by
    refine h.step ?_ hs
    cases a with
    | length outcome =>
      cases outcome with
      | none =>
        rw [slotStep] at hs
        split_ifs at hs with hp
        exact hf hp
      | some x => exact hok
    | _ => trivial
  refine ⟨ht, fun hp => ?_⟩
  cases a with
  | connect =>
    rw [slotStep] at hs
    split_ifs at hs
    obtain rfl := Option.some.inj hs
    cases hp
  | slot =>
    obtain ⟨-, -, hslots, hwp⟩ := h.slot hs
    rw [hslots, hwp]
    exact hok
  | length outcome =>
    cases outcome with
    | none =>
      rw [slotStep] at hs
      split_ifs at hs
      obtain rfl := Option.some.inj hs
      cases hp
    | some x => exact absurd hp (h.length hok hs).2
  | payload ok => exact absurd hp (h.payload hs).2
  | consume =>
    obtain ⟨-, hphase, hslots, hwp⟩ := h.consume hs
    rw [hslots, hwp]
    exact hf (hphase.symm.trans hp)

theorem firstUse_iff (h : s.Inv others) (hf : s.Fresh) {a : SlotAct} (hs : slotStep s a = some t) :
    s.FirstUse a ↔ t.Sound ∧ t.Owned := by
  refine ⟨fun hok => ?_, fun ⟨hsound, howned⟩ => ?_⟩
  · obtain ⟨ht, htf⟩ := fresh_step h hf hok hs
    exact ⟨ht.sound, ht.owned htf⟩
  · cases a with
    | slot =>
      obtain ⟨ht, hp, hslots, hwp⟩ := h.slot hs
      rw [MessageSlots.FirstUse, ← hslots, ← hwp]
      exact ht.slot_empty hp howned.not_stale
    | length outcome =>
      cases outcome with
      | none => trivial
      | some x => exact length_ne_zero hs hsound
    | _ => trivial

theorem reduceOption_replicate_none (α : Type*) (num : ℕ) :
    (List.replicate num (none : Option α)).reduceOption = [] := by
  induction num with
  | zero => rfl
  | succ n ih => rw [List.replicate_succ, List.reduceOption_cons_of_none, ih]

/-- The ring starts without chunks, in a pool that others have used. -/
theorem MessageSlots.init_inv {use : PoolUse} (h : use.Inv) (num : ℕ) :
    (MessageSlots.init use num).Inv use.live := by
  have hnone (x : Chunk) : some x ∉ List.replicate num (none : Option Chunk) := by
    intro hm
    cases List.eq_of_mem_replicate hm
  exact
    { pool := h
      sound := ⟨rfl, nofun⟩
      inRing := nofun
      live := by
        rw [current, if_neg nofun, init, reduceOption_replicate_none]
        exact List.Perm.refl _
      stale := nofun
      given := fun x hx => absurd hx (hnone x)
      keeps := nofun
      foreign := nofun }

/-- The runs in which every chunk of the ring has one owner, between refills and in every state. -/
theorem chunks_owned_iff {grow : UInt32 → UInt32} {start : ℕ} {initSize memSize pagesize : UInt32}
    (hpage : 1 < pagesize.toNat) {p : RsPool}
    (hpool : rsCreatePool grow start initSize memSize pagesize rsPoolClassIdx .prealloc = some p)
    {setup : List PoolCall} {use : PoolUse} (hsetup : exec poolStep ⟨p, []⟩ setup = some use)
    (num : ℕ) {as : List SlotAct} (hrun : exec slotStep (MessageSlots.init use num) as = some s) :
    ((∀ k u, exec slotStep (MessageSlots.init use num) (as.take k) = some u →
        u.Sound ∧ (¬ u.Refilling → u.Owned)) ↔
      Along slotStep MessageSlots.RefillOk (MessageSlots.init use num) as) ∧
    ((∀ k u, exec slotStep (MessageSlots.init use num) (as.take k) = some u → u.Sound ∧ u.Owned) ↔
      Along slotStep MessageSlots.FirstUse (MessageSlots.init use num) as) := by
  have huse : use.Inv := exec_invariant (fun u _ v hu hs => hu.step hs) (rsCreatePool_inv hpage hpool) hsetup
  have hinit := MessageSlots.init_inv huse num
  constructor
  · exact along_iff_states (I := MessageSlots.Inv use.live)
      (fun u hu => ⟨hu.sound, fun hr => hu.owned fun hp => absurd hp hr⟩)
      (fun u a v hu hs hok => hu.step hok hs) (fun u a v hu hs => refillOk_iff hu hs) hinit hrun
  · exact along_iff_states (I := fun u => MessageSlots.Inv use.live u ∧ u.Fresh)
      (fun u hu => ⟨hu.1.sound, hu.1.owned hu.2⟩) (fun u a v hu hs hok => fresh_step hu.1 hu.2 hok hs)
      (fun u a v hu hs => firstUse_iff hu.1 hu.2 hs) ⟨hinit, nofun⟩ hrun

def defaultPool : RsPool :=
  (rsCreatePool (fun d => d + d / 2) 4096 100 104857600 4096 rsPoolClassIdx .prealloc).getD
    (newPool .prealloc 0 0 0 [])

theorem rsCreatePool_default :
    rsCreatePool (fun d => d + d / 2) 4096 100 104857600 4096 rsPoolClassIdx .prealloc =
      some defaultPool := by
  decide +kernel

/-- A message is read and its slot used again; the connection is lost within the second message. -/
def refillRun : List SlotAct :=
  [.connect, .slot, .length (some (10, 0)), .payload true, .consume, .slot, .length (some (20, 0)),
    .payload false, .connect, .slot, .length (some (30, 0)), .payload true]

theorem chunks_owned_refill : ∃ use s, exec poolStep ⟨defaultPool, []⟩ [.palloc 64 0 0] = some use ∧
    exec slotStep (MessageSlots.init use 1) refillRun = some s ∧
    ∀ k u, exec slotStep (MessageSlots.init use 1) (refillRun.take k) = some u →
      u.Sound ∧ (¬ u.Refilling → u.Owned) := by
  have hsetup : (exec poolStep ⟨defaultPool, []⟩ [.palloc 64 0 0]).isSome := by decide +kernel
  have hsome : ((exec poolStep ⟨defaultPool, []⟩ [.palloc 64 0 0]).bind fun use =>
      exec slotStep (MessageSlots.init use 1) refillRun).isSome := by decide +kernel
  have hok : ∀ use ∈ exec poolStep ⟨defaultPool, []⟩ [.palloc 64 0 0],
      Along slotStep MessageSlots.RefillOk (MessageSlots.init use 1) refillRun := by decide +kernel
  obtain ⟨use, huse⟩ := Option.isSome_iff_exists.mp hsetup
  rw [huse, Option.bind_some] at hsome
  obtain ⟨s, hs⟩ := Option.isSome_iff_exists.mp hsome
  exact ⟨use, s, huse, hs,
    (chunks_owned_iff (by decide) rsCreatePool_default huse 1 hs).1.mpr (hok use huse)⟩

/-- The length of the second message is not received: the next turn releases the chunk of the
slot once more. -/
theorem chunk_released_twice : ¬ ∀ (grow : UInt32 → UInt32) (start : ℕ)
    (initSize memSize pagesize : UInt32) (p : RsPool) (num : ℕ) (as : List SlotAct) (s : MessageSlots),
    1 < pagesize.toNat →
    rsCreatePool grow start initSize memSize pagesize rsPoolClassIdx .prealloc = some p →
    exec slotStep (MessageSlots.init ⟨p, []⟩ num) as = some s →
    s.Sound ∧ (¬ s.Refilling → s.Owned) := by
  intro h
  have hfreed : ((exec slotStep (MessageSlots.init ⟨defaultPool, []⟩ 1)
      [.connect, .slot, .length (some (10, 0)), .payload true, .consume, .slot, .length none, .connect,
        .slot]).map (·.freedTwice)) = some true := by decide +kernel
  obtain ⟨s, hs, htwice⟩ := Option.map_eq_some_iff.mp hfreed
  have hsound := (h _ _ _ _ _ _ _ _ s (by decide) rsCreatePool_default hs).1
  exact Bool.false_ne_true (hsound.once.symm.trans htwice)

end MySQLSyncer.Slave
