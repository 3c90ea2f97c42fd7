import Mathlib.Tactic
import MySQLSyncer.Core.Ringbuf
import MySQLSyncer.Lib.Queue

/-! # The ring buffer is a lossless queue

The invariant reads the wrapping counters and the two pointers through the unbounded
counts of published and released items: item number `i` lives in slot `i mod num`.
-/
namespace MySQLSyncer.Core
open Lib

variable {α : Type*}

def slotOf (num : UInt32) (i : ℕ) : ℕ := ringbufDataSize.toNat * (i % num.toNat)

def RingFits (num : UInt32) : Prop :=
  ringbufSize.toNat + ringbufDataSize.toNat * num.toNat < 2 ^ 32

instance (num : UInt32) : Decidable (RingFits num) := inferInstanceAs (Decidable (_ < _))

/-- The producer's pointer against the number `w` of published and `r` of released items. -/
def Producer.At (num : UInt32) (w r wp : ℕ) : Producer → Prop
  | .outside => wp = slotOf num w
  | .slot p => wp = slotOf num w ∧ p = slotOf num w ∧ w < r + num.toNat
  | .moved p => wp = slotOf num (w + 1) ∧ p = slotOf num w ∧ w < r + num.toNat

def Consumer.At (num : UInt32) (w r rp : ℕ) : Consumer → Prop
  | .outside => rp = slotOf num r
  | .slot p => rp = slotOf num r ∧ p = slotOf num r ∧ r < w
  | .seen p => rp = slotOf num r ∧ p = slotOf num r ∧ r < w
  | .moved p => rp = slotOf num (r + 1) ∧ p = slotOf num r ∧ r < w

structure Spsc.Inv (num : UInt32) (s : Spsc α) : Prop where
  num_eq : s.ring.num = num
  stop_eq : s.ring.stop = ringbufDataSize.toNat * num.toNat
  chunk_eq : s.ring.chunk = ringbufSize.toNat + ringbufDataSize.toNat * num.toNat
  wn_eq : s.ring.wn = UInt64.ofNat s.published.length
  rn_eq : s.ring.rn = UInt64.ofNat s.released
  released_le : s.released ≤ s.published.length
  bounded : s.published.length ≤ s.released + num.toNat
  producer : s.producer.At num s.published.length s.released s.ring.wp
  consumer : s.consumer.At num s.published.length s.released s.ring.rp
  place : ∀ i x, s.published[i]? = some x → x.1 = slotOf num i
  window : ∀ i x, s.published[i]? = some x → s.released ≤ i → s.ring.slots x.1 = x.2
  taken : s.consumed = (s.published.map Prod.snd).take (s.released + s.consumer.ahead)

theorem toNat_pos {num : UInt32} (hnum : 1 ≤ num) : 0 < num.toNat :=
  UInt32.le_iff_toNat_le.mp hnum

theorem slotOf_inj {num : UInt32} {i j : ℕ} (h : slotOf num i = slotOf num j) :
    i % num.toNat = j % num.toNat :=
  Nat.eq_of_mul_eq_mul_left (by decide) h

theorem slotOf_lt {num : UInt32} (hnum : 1 ≤ num) (i : ℕ) :
    slotOf num i + ringbufDataSize.toNat ≤ ringbufDataSize.toNat * num.toNat := by
  have hpos := toNat_pos hnum
  have hlt : i % num.toNat + 1 ≤ num.toNat := Nat.mod_lt i hpos
  calc slotOf num i + ringbufDataSize.toNat
      = ringbufDataSize.toNat * (i % num.toNat + 1) := by rw [slotOf, Nat.mul_succ]
    _ ≤ ringbufDataSize.toNat * num.toNat := Nat.mul_le_mul_left _ hlt

theorem nextSlot_slotOf {num : UInt32} (hnum : 1 ≤ num) {rb : RsRingbuf α}
    (hstop : rb.stop = ringbufDataSize.toNat * num.toNat) (i : ℕ) :
    nextSlot rb (slotOf num i) = slotOf num (i + 1) := by
  have hpos := toNat_pos hnum
  have hsize : ringbufDataSize.toNat = 24 := rfl
  rw [nextSlot, hstop, slotOf, slotOf, mod_succ_eq hpos, hsize]
  by_cases h : i % num.toNat + 1 = num.toNat
  · rw [if_pos h, if_pos (by omega), Nat.mul_zero]
  · rw [if_neg h, if_neg (by omega), Nat.mul_succ]

/-- The wrapping difference of the two counters is the true number of unread items. -/
theorem counter_diff {w r : ℕ} (hrw : r ≤ w) {n : UInt32} (hn : w ≤ r + n.toNat) :
    (UInt64.ofNat w - UInt64.ofNat r).toNat = w - r := by
  have hlt : n.toNat < 2 ^ 32 := n.toNat_lt
  rw [← UInt64.ofNat_sub hrw, UInt64.toNat_ofNat_of_lt']
  exact lt_of_le_of_lt (by omega) (lt_trans hlt (by norm_num))

theorem Spsc.Inv.diff {num : UInt32} {s : Spsc α} (h : s.Inv num) :
    (s.ring.wn - s.ring.rn).toNat = s.published.length - s.released := by
  rw [h.wn_eq, h.rn_eq]
  exact counter_diff h.released_le h.bounded

theorem rsRingbufSet_ok {num : UInt32} {s : Spsc α} (h : s.Inv num) {p : ℕ}
    (hs : rsRingbufSet s.ring = .ok p) :
    p = s.ring.wp ∧ s.published.length < s.released + num.toNat := by
  unfold rsRingbufSet at hs
  split_ifs at hs with hfull
  refine ⟨(Except.ok.inj hs).symm, ?_⟩
  have hne : (s.ring.wn - s.ring.rn).toNat ≠ num.toNat := by
    intro he
    apply hfull
    rw [h.num_eq]
    exact UInt64.toNat_inj.mp (by rw [he, UInt32.toNat_toUInt64])
  have := h.diff
  have := h.bounded
  have := h.released_le
  omega

theorem rsRingbufSet_full {num : UInt32} {s : Spsc α} (h : s.Inv num)
    (hs : rsRingbufSet s.ring = .error .full) : s.published.length - s.released = num.toNat := by
  unfold rsRingbufSet at hs
  split_ifs at hs with hfull
  rw [← h.diff, hfull, h.num_eq, UInt32.toNat_toUInt64]

theorem rsRingbufGet_ok {num : UInt32} {s : Spsc α} (h : s.Inv num) {p : ℕ}
    (hs : rsRingbufGet s.ring = .ok p) : p = s.ring.rp ∧ s.released < s.published.length := by
  unfold rsRingbufGet at hs
  split_ifs at hs with hempty
  refine ⟨(Except.ok.inj hs).symm, ?_⟩
  have hne : (s.ring.wn - s.ring.rn).toNat ≠ 0 := by
    intro he
    exact hempty (UInt64.toNat_inj.mp (by rw [he]; rfl))
  have := h.diff
  omega

theorem rsRingbufGet_empty {num : UInt32} {s : Spsc α} (h : s.Inv num)
    (hs : rsRingbufGet s.ring = .error .empty) : s.published.length = s.released := by
  unfold rsRingbufGet at hs
  split_ifs at hs with hempty
  have hd := h.diff
  rw [hempty] at hd
  have := h.released_le
  have hz : (0 : UInt64).toNat = 0 := rfl
  omega

theorem Spsc.init_inv {num : UInt32} (hfit : RingFits num) (d : α) :
    (Spsc.init num d).Inv num := by
  have hh : ringbufSize.toNat = 72 := rfl
  have hd : ringbufDataSize.toNat = 24 := rfl
  unfold RingFits at hfit
  have hlen : (ringbufDataSize * num).toNat = ringbufDataSize.toNat * num.toNat := by
    rw [UInt32.toNat_mul, Nat.mod_eq_of_lt (by omega)]
  constructor
  case chunk_eq =>
    change (ringbufSize + ringbufDataSize * num).toNat = _
    rw [UInt32.toNat_add, hlen, Nat.mod_eq_of_lt hfit]
  case stop_eq => exact hlen
  all_goals simp [Spsc.init, rsCreateRingbuf, Producer.At, Consumer.At, slotOf]

section Steps
variable {num : UInt32} {s t : Spsc α}

theorem Spsc.Inv.set (h : s.Inv num) (hs : spscStep s .set = some t) : t.Inv num := by
  cases hp : s.producer with
  | moved p => simp [spscStep, hp] at hs
  | outside | slot p =>
    have hwp : s.ring.wp = slotOf num s.published.length := by
      have := h.producer
      rw [hp] at this
      first | exact this | exact this.1
    cases hr : rsRingbufSet s.ring with
    | error c =>
      simp only [spscStep, hp, hr, Option.some.injEq] at hs
      subst hs
      exact { h with producer := hwp }
    | ok q =>
      simp only [spscStep, hp, hr, Option.some.injEq] at hs
      subst hs
      obtain ⟨hq, hlt⟩ := rsRingbufSet_ok h hr
      exact { h with producer := ⟨hwp, hq.trans hwp, hlt⟩ }

/-- The slot being filled is not in the window of unread items. -/
theorem Spsc.Inv.fill {a : α} (h : s.Inv num) (hs : spscStep s (.fill a) = some t) :
    t.Inv num := by
  cases hp : s.producer with
  | outside | moved p => simp [spscStep, hp] at hs
  | slot p =>
    simp only [spscStep, hp, Option.some.injEq] at hs
    subst hs
    have hprod := h.producer
    rw [hp] at hprod
    obtain ⟨hwp, hpw, hlt⟩ := hprod
    refine { h with producer := ⟨hwp, hpw, hlt⟩, window := ?_ }
    intro i x hx hi
    change s.released ≤ i at hi
    have hiw : i < s.published.length := (List.getElem?_eq_some_iff.mp hx).1
    have hne : x.1 ≠ p := by
      rw [h.place i x hx, hpw]
      exact fun he => mod_ne_of_window hiw (by omega) (slotOf_inj he)
    change Function.update s.ring.slots p a x.1 = x.2
    rw [Function.update_of_ne hne]
    exact h.window i x hx hi

theorem Spsc.Inv.setPointer (hnum : 1 ≤ num) (h : s.Inv num)
    (hs : spscStep s .setPointer = some t) : t.Inv num := by
  cases hp : s.producer with
  | outside | moved p => simp [spscStep, hp] at hs
  | slot p =>
    simp only [spscStep, hp, Option.some.injEq] at hs
    subst hs
    have hprod := h.producer
    rw [hp] at hprod
    obtain ⟨hwp, hpw, hlt⟩ := hprod
    have hnext : nextSlot s.ring s.ring.wp = slotOf num (s.published.length + 1) := by
      rw [hwp]
      exact nextSlot_slotOf hnum h.stop_eq _
    exact { h with producer := ⟨hnext, hpw, hlt⟩ }

theorem Consumer.At.publish {c : Consumer} {w r rp : ℕ} (h : c.At num w r rp) :
    c.At num (w + 1) r rp := by
  cases c with
  | outside => exact h
  | slot p | seen p | moved p => exact ⟨h.1, h.2.1, by have := h.2.2; omega⟩

/-- Publishing puts the item with the next number behind all others. -/
theorem Spsc.Inv.setCounter (h : s.Inv num) (hs : spscStep s .setCounter = some t) :
    t.Inv num := by
  cases hp : s.producer with
  | outside | slot p => simp [spscStep, hp] at hs
  | moved p =>
    simp only [spscStep, hp, Option.some.injEq] at hs
    subst hs
    have hprod := h.producer
    rw [hp] at hprod
    obtain ⟨hwp, hpw, hlt⟩ := hprod
    have hlen : (s.published ++ [(p, s.ring.slots p)]).length = s.published.length + 1 := by simp
    have hget : ∀ i x, (s.published ++ [(p, s.ring.slots p)])[i]? = some x →
        s.published[i]? = some x ∨ i = s.published.length ∧ x = (p, s.ring.slots p) := by
      intro i x hx
      rw [List.getElem?_append] at hx
      split_ifs at hx with hi
      · exact Or.inl hx
      · obtain ⟨hlt', hx'⟩ := List.getElem?_eq_some_iff.mp hx
        have hi' : i - s.published.length = 0 := by simpa using hlt'
        exact Or.inr ⟨by omega, by simpa [hi'] using hx'.symm⟩
    have htake : s.released + s.consumer.ahead ≤ s.published.length := by
      have hc := h.consumer
      have hr := h.released_le
      cases hcons : s.consumer <;> rw [hcons] at hc <;> simp only [Consumer.ahead] <;>
        first | omega | exact (Nat.succ_le_of_lt hc.2.2)
    constructor
    case num_eq => exact h.num_eq
    case stop_eq => exact h.stop_eq
    case chunk_eq => exact h.chunk_eq
    case wn_eq =>
      change s.ring.wn + 1 = UInt64.ofNat (s.published ++ [(p, s.ring.slots p)]).length
      rw [h.wn_eq, hlen, UInt64.ofNat_add]
      rfl
    case rn_eq => exact h.rn_eq
    case released_le => exact h.released_le.trans (by simp)
    case bounded =>
      change (s.published ++ [(p, s.ring.slots p)]).length ≤ s.released + num.toNat
      omega
    case producer => exact hlen ▸ hwp
    case consumer => exact hlen ▸ h.consumer.publish
    case place =>
      intro i x hx
      obtain hx | ⟨rfl, rfl⟩ := hget i x hx
      · exact h.place i x hx
      · exact hpw
    case window =>
      intro i x hx hi
      obtain hx | ⟨rfl, rfl⟩ := hget i x hx
      · exact h.window i x hx hi
      · rfl
    case taken =>
      change s.consumed = ((s.published ++ [(p, s.ring.slots p)]).map Prod.snd).take _
      rw [List.map_append, List.take_append_of_le_length (by simpa using htake)]
      exact h.taken

theorem Spsc.Inv.get (h : s.Inv num) (hs : spscStep s .get = some t) : t.Inv num := by
  cases hc : s.consumer with
  | seen p | moved p => simp [spscStep, hc] at hs
  | outside | slot p =>
    have hrp : s.ring.rp = slotOf num s.released := by
      have := h.consumer
      rw [hc] at this
      first | exact this | exact this.1
    have htaken := h.taken
    rw [hc] at htaken
    cases hr : rsRingbufGet s.ring with
    | error c =>
      simp only [spscStep, hc, hr, Option.some.injEq] at hs
      subst hs
      exact { h with consumer := hrp, taken := htaken }
    | ok q =>
      simp only [spscStep, hc, hr, Option.some.injEq] at hs
      subst hs
      obtain ⟨hq, hlt⟩ := rsRingbufGet_ok h hr
      exact { h with consumer := ⟨hrp, hq.trans hrp, hlt⟩, taken := htaken }

/-- The slot the consumer copies still has the contents that were published in it. -/
theorem Spsc.Inv.read (h : s.Inv num) (hs : spscStep s .read = some t) : t.Inv num := by
  cases hc : s.consumer with
  | outside | seen p | moved p => simp [spscStep, hc] at hs
  | slot p =>
    simp only [spscStep, hc, Option.some.injEq] at hs
    subst hs
    have hcons := h.consumer
    rw [hc] at hcons
    obtain ⟨hrp, hpr, hlt⟩ := hcons
    obtain ⟨x, hx⟩ : ∃ x, s.published[s.released]? = some x :=
      ⟨_, List.getElem?_eq_getElem hlt⟩
    have hslot : s.ring.slots p = x.2 := by
      rw [hpr, ← h.place _ x hx]
      exact h.window _ x hx le_rfl
    have htaken := h.taken
    rw [hc] at htaken
    refine { h with consumer := ⟨hrp, hpr, hlt⟩, taken := ?_ }
    change s.consumed ++ [s.ring.slots p] =
      (s.published.map Prod.snd).take (s.released + 1)
    rw [List.take_add_one, htaken, hslot, List.getElem?_map, hx]
    rfl

theorem Spsc.Inv.getPointer (hnum : 1 ≤ num) (h : s.Inv num)
    (hs : spscStep s .getPointer = some t) : t.Inv num := by
  cases hc : s.consumer with
  | outside | slot p | moved p => simp [spscStep, hc] at hs
  | seen p =>
    simp only [spscStep, hc, Option.some.injEq] at hs
    subst hs
    have hcons := h.consumer
    rw [hc] at hcons
    obtain ⟨hrp, hpr, hlt⟩ := hcons
    have hnext : nextSlot s.ring s.ring.rp = slotOf num (s.released + 1) := by
      rw [hrp]
      exact nextSlot_slotOf hnum h.stop_eq _
    have htaken := h.taken
    rw [hc] at htaken
    exact { h with consumer := ⟨hnext, hpr, hlt⟩, taken := htaken }

theorem Producer.At.release {p : Producer} {w r wp : ℕ} (h : p.At num w r wp) :
    p.At num w (r + 1) wp := by
  cases p with
  | outside => exact h
  | slot p | moved p => exact ⟨h.1, h.2.1, by have := h.2.2; omega⟩

theorem Spsc.Inv.getCounter (h : s.Inv num) (hs : spscStep s .getCounter = some t) :
    t.Inv num := by
  cases hc : s.consumer with
  | outside | slot p | seen p => simp [spscStep, hc] at hs
  | moved p =>
    simp only [spscStep, hc, Option.some.injEq] at hs
    subst hs
    have hcons := h.consumer
    rw [hc] at hcons
    obtain ⟨hrp, hpr, hlt⟩ := hcons
    have hbounded := h.bounded
    have htaken := h.taken
    rw [hc] at htaken
    have hrn : s.ring.rn + 1 = UInt64.ofNat (s.released + 1) := by
      rw [h.rn_eq, UInt64.ofNat_add]
      rfl
    exact { h with
      rn_eq := hrn
      released_le := hlt
      bounded := by change s.published.length ≤ s.released + 1 + num.toNat; omega
      producer := h.producer.release
      consumer := hrp
      window := fun i x hx hi => h.window i x hx (by change s.released + 1 ≤ i at hi; omega)
      taken := htaken }

theorem Spsc.Inv.step (hnum : 1 ≤ num) (h : s.Inv num) (a : RingStep α)
    (hs : spscStep s a = some t) : t.Inv num := by
  cases a with
  | set => exact h.set hs
  | fill a => exact h.fill hs
  | setPointer => exact h.setPointer hnum hs
  | setCounter => exact h.setCounter hs
  | get => exact h.get hs
  | read => exact h.read hs
  | getPointer => exact h.getPointer hnum hs
  | getCounter => exact h.getCounter hs

end Steps

theorem Spsc.Inv.lossless {num : UInt32} {s : Spsc α} (hnum : 1 ≤ num) (h : s.Inv num) :
    s.Lossless := by
  have hunread : s.unread.length = s.published.length - s.released := by
    simp [Spsc.unread]
  have hle := h.released_le
  have hbound := h.bounded
  have hprod : ∀ p, s.producer.held = some p →
      p = slotOf num s.published.length ∧ s.published.length < s.released + num.toNat := by
    intro p hp
    have hat := h.producer
    cases hpc : s.producer <;> rw [hpc] at hp hat <;> simp only [Producer.held] at hp
    · cases hp
    all_goals exact Option.some.inj hp ▸ hat.2
  have hcons : ∀ p, s.consumer.held = some p →
      p = slotOf num s.released ∧ s.released < s.published.length := by
    intro p hp
    have hat := h.consumer
    cases hpc : s.consumer <;> rw [hpc] at hp hat <;> simp only [Consumer.held] at hp
    · cases hp
    all_goals exact Option.some.inj hp ▸ hat.2
  constructor
  case fifo =>
    rw [h.taken]
    exact List.take_prefix _ _
  case count => rw [h.diff, hunread]
  case bounded =>
    rw [hunread, h.num_eq]
    omega
  case full =>
    intro hf
    rw [hunread, h.num_eq]
    exact rsRingbufSet_full h hf
  case empty =>
    intro he
    have hw := rsRingbufGet_empty h he
    refine ⟨by omega, ?_⟩
    rw [h.taken]
    exact List.take_of_length_le (by simp [hw])
  case exclusive =>
    intro p hp
    obtain ⟨hpw, hlt⟩ := hprod p hp
    have hdisj : ∀ i, s.released ≤ i → i < s.published.length → slotOf num i ≠ p := by
      intro i hi hiw he
      exact mod_ne_of_window hiw (by omega) (slotOf_inj (he.trans hpw))
    constructor
    · intro x hx
      obtain ⟨i, hi⟩ := List.mem_iff_getElem?.mp hx
      rw [Spsc.unread, List.getElem?_drop] at hi
      have hiw := (List.getElem?_eq_some_iff.mp hi).1
      rw [h.place _ x hi]
      exact hdisj _ (by omega) hiw
    · intro hc
      obtain ⟨hpr, hr⟩ := hcons p hc
      exact hdisj _ le_rfl hr hpr.symm
  case inside =>
    intro p hp
    have hp' : ∃ i, p = slotOf num i := by
      obtain hp | hp := hp
      · exact ⟨_, (hprod p hp).1⟩
      · exact ⟨_, (hcons p hp).1⟩
    obtain ⟨i, rfl⟩ := hp'
    have := slotOf_lt hnum i
    rw [h.chunk_eq]
    omega

theorem Spsc.inv_of_run {num : UInt32} (hnum : 1 ≤ num) (hfit : RingFits num) {d : α}
    {acts : List (RingStep α)} {s : Spsc α}
    (hrun : exec spscStep (Spsc.init num d) acts = some s) : s.Inv num :=
  exec_invariant (fun _ a _ h hs => h.step hnum a hs) (Spsc.init_inv hfit d) hrun

structure Spsc.Denotes (s : Spsc α) (q : Queue α) : Prop where
  items : q.items = s.unread.map Prod.snd
  produced : q.produced = s.published.map Prod.snd

/-- Only the counter updates change what is published and what is released. -/
theorem spscStep_frame {s t : Spsc α} {a : RingStep α} (hs : spscStep s a = some t)
    (hset : a ≠ .setCounter) (hget : a ≠ .getCounter) :
    t.published = s.published ∧ t.released = s.released := by
  cases a <;> simp only [spscStep] at hs <;> try contradiction
  all_goals split at hs <;> first | contradiction | (cases hs; exact ⟨rfl, rfl⟩)

/-- The counter updates are the queue operations; every other step leaves the queue alone. -/
theorem Spsc.Denotes.step {num : UInt32} {s t : Spsc α} {q : Queue α}
    {a : RingStep α} (hinv : s.Inv num) (h : s.Denotes q) (hs : spscStep s a = some t) :
    ∃ bs r, exec (queueStep num.toNat) q bs = some r ∧ t.Denotes r := by
  have hlen : q.items.length = s.published.length - s.released := by
    simp [h.items, Spsc.unread]
  cases a with
  | setCounter =>
    cases hp : s.producer with
    | outside | slot p => simp [spscStep, hp] at hs
    | moved p =>
      simp only [spscStep, hp, Option.some.injEq] at hs
      subst hs
      have hprod := hinv.producer
      rw [hp] at hprod
      have hlt := hprod.2.2
      have hle := hinv.released_le
      refine ⟨[.push (s.ring.slots p)], _, by
        rw [exec_cons, queueStep, if_pos (by omega)]
        rfl, ?_, ?_⟩
      · simp [h.items, Spsc.unread, List.drop_append_of_le_length hle]
      · simp [h.produced]
  | getCounter =>
    cases hc : s.consumer with
    | outside | slot p | seen p => simp [spscStep, hc] at hs
    | moved p =>
      simp only [spscStep, hc, Option.some.injEq] at hs
      subst hs
      have hcons := hinv.consumer
      rw [hc] at hcons
      have hlt := hcons.2.2
      have hdrop : s.unread = s.published[s.released] :: s.published.drop (s.released + 1) :=
        List.drop_eq_getElem_cons hlt
      have hitems := h.items
      rw [hdrop, List.map_cons] at hitems
      refine ⟨[.pop], ⟨(s.published.drop (s.released + 1)).map Prod.snd, q.produced,
        q.taken ++ [s.published[s.released].2]⟩, ?_, rfl, h.produced⟩
      simp [queueStep, hitems]
  | set | fill a | setPointer | get | read | getPointer =>
    obtain ⟨hpub, hrel⟩ := spscStep_frame hs (by simp) (by simp)
    exact ⟨[], q, rfl, by rw [h.items, Spsc.unread, Spsc.unread, hpub, hrel], by
      rw [h.produced, hpub]⟩

/-- Every run of the ring is a run of the queue it stands for. -/
theorem spsc_refines_queue {num : UInt32} (hnum : 1 ≤ num) (hfit : RingFits num) {d : α}
    {acts : List (RingStep α)} {s : Spsc α}
    (hrun : exec spscStep (Spsc.init num d) acts = some s) :
    ∃ bs q, exec (queueStep num.toNat) Queue.new bs = some q ∧ q.Ordered num.toNat ∧
      s.Denotes q := by
  have hR : ∀ (s : Spsc α) a t (q : Queue α), s.Inv num ∧ s.Denotes q → spscStep s a = some t →
      ∃ bs r, exec (queueStep num.toNat) q bs = some r ∧ t.Inv num ∧ t.Denotes r := by
    rintro s a t q ⟨hinv, hq⟩ hs
    obtain ⟨bs, r, hbs, hr⟩ := hq.step hinv hs
    exact ⟨bs, r, hbs, hinv.step hnum a hs, hr⟩
  have hnew : (Spsc.init num d).Denotes Queue.new := ⟨rfl, rfl⟩
  obtain ⟨bs, q, hbs, -, hq⟩ := exec_simulates hR ⟨Spsc.init_inv hfit d, hnew⟩ hrun
  exact ⟨bs, q, hbs, Queue.ordered_of_run hbs, hq⟩

def publishOne : List (RingStep α) := [.set, .setPointer, .setCounter]

/-- The state after `i` items were published in consecutive slots and none was read. -/
def Spsc.filled (num : UInt32) (d : α) (i wp : ℕ) : Spsc α :=
  { Spsc.init num d with
    ring := { rsCreateRingbuf num d with wn := UInt64.ofNat i, wp := wp }
    published := (List.range i).map fun j => (ringbufDataSize.toNat * j, d) }

theorem Spsc.filled_set (num : UInt32) (d : α) {i : ℕ} (hi : i < num.toNat) (wp : ℕ) :
    spscStep (Spsc.filled num d i wp) .set =
      some { Spsc.filled num d i wp with producer := .slot wp } := by
  have hne : UInt64.ofNat i - 0 ≠ num.toUInt64 := by
    intro he
    have hlt : num.toNat < 2 ^ 32 := num.toNat_lt
    have := congrArg UInt64.toNat he
    rw [UInt64.sub_zero, UInt64.toNat_ofNat_of_lt' (lt_trans (hi.trans hlt) (by norm_num)),
      UInt32.toNat_toUInt64] at this
    omega
  have hset : rsRingbufSet (Spsc.filled num d i wp).ring = .ok wp := if_neg hne
  unfold spscStep
  rw [hset]
  rfl

theorem Spsc.filled_publish (num : UInt32) (d : α) {i : ℕ} (hi : i < num.toNat) :
    exec spscStep (Spsc.filled num d i (ringbufDataSize.toNat * i)) publishOne =
      some (Spsc.filled num d (i + 1)
        (nextSlot (rsCreateRingbuf num d) (ringbufDataSize.toNat * i))) := by
  have hwn : UInt64.ofNat (i + 1) = UInt64.ofNat i + 1 := UInt64.ofNat_add i 1
  have hrange : (List.range (i + 1)).map (fun j => (ringbufDataSize.toNat * j, d)) =
      (List.range i).map (fun j => (ringbufDataSize.toNat * j, d)) ++
        [(ringbufDataSize.toNat * i, d)] := by
    simp [List.range_succ]
  rw [publishOne, exec_cons, Spsc.filled_set num d hi, Option.bind_some]
  unfold Spsc.filled
  rw [hwn, hrange]
  rfl

theorem Spsc.filled_reachable (num : UInt32) (d : α) {i : ℕ} (hi : i ≤ num.toNat)
    (hstop : ∀ j, 1 ≤ j → j ≤ i → ringbufDataSize.toNat * j ≠ (rsCreateRingbuf num d).stop) :
    ∃ acts, exec spscStep (Spsc.init num d) acts =
      some (Spsc.filled num d i (ringbufDataSize.toNat * i)) := by
  induction i with
  | zero => exact ⟨[], rfl⟩
  | succ i ih =>
    obtain ⟨acts, hacts⟩ := ih (by omega) (fun j h1 h2 => hstop j h1 (by omega))
    refine ⟨acts ++ publishOne, exec_append_eq_some.mpr ⟨_, hacts, ?_⟩⟩
    have hne := hstop (i + 1) (by omega) le_rfl
    rw [Nat.mul_succ] at hne
    rw [Spsc.filled_publish num d (by omega), nextSlot, if_neg hne, Nat.mul_succ]

/-- A table end before slot `num` sends the pointer back onto an unread slot. -/
theorem not_lossless_of_wrap {num : UInt32} (d : α) {j : ℕ} (hj : 1 ≤ j) (hjn : j < num.toNat)
    (hstop : ringbufDataSize.toNat * j = (rsCreateRingbuf num d).stop)
    (hfirst : ∀ k, 1 ≤ k → k < j → ringbufDataSize.toNat * k ≠ (rsCreateRingbuf num d).stop) :
    ∃ acts s, exec spscStep (Spsc.init num d) acts = some s ∧ ¬ s.Lossless := by
  obtain ⟨i, rfl⟩ : ∃ i, j = i + 1 := ⟨j - 1, by omega⟩
  obtain ⟨acts, hacts⟩ := Spsc.filled_reachable num d (i := i) (by omega)
    (fun k h1 h2 => hfirst k h1 (by omega))
  have hpub := Spsc.filled_publish num d (i := i) (by omega)
  rw [nextSlot, if_pos (by rw [← Nat.mul_succ]; exact hstop)] at hpub
  refine ⟨acts ++ (publishOne ++ [.set]),
    { Spsc.filled num d (i + 1) 0 with producer := .slot 0 }, ?_, ?_⟩
  · refine exec_append_eq_some.mpr ⟨_, hacts, exec_append_eq_some.mpr ⟨_, hpub, ?_⟩⟩
    rw [exec_cons, Spsc.filled_set num d hjn]
    rfl
  · intro h
    have hmem : ((0, d) : ℕ × α) ∈ (List.range (i + 1)).map
        fun k => (ringbufDataSize.toNat * k, d) :=
      List.mem_map.mpr ⟨0, by simp, rfl⟩
    exact (h.exclusive 0 rfl).1 _ hmem rfl

/-- A pointer that never wraps leaves a chunk that is too short for `num` slots. -/
theorem not_lossless_of_overrun {num : UInt32} (hnum : 1 ≤ num) (hfit : ¬ RingFits num) (d : α)
    (hstop : ∀ k, 1 ≤ k → k < num.toNat →
      ringbufDataSize.toNat * k ≠ (rsCreateRingbuf num d).stop) :
    ∃ acts s, exec spscStep (Spsc.init num d) acts = some s ∧ ¬ s.Lossless := by
  obtain ⟨i, hi⟩ : ∃ i, num.toNat = i + 1 := ⟨num.toNat - 1, by have := toNat_pos hnum; omega⟩
  obtain ⟨acts, hacts⟩ := Spsc.filled_reachable num d (i := i) (by omega)
    (fun k h1 h2 => hstop k h1 (by omega))
  refine ⟨acts ++ [.set], _, exec_append_eq_some.mpr ⟨_, hacts, by
    rw [exec_cons, Spsc.filled_set num d (by omega)]
    rfl⟩, ?_⟩
  intro h
  have hin := h.inside (ringbufDataSize.toNat * i) (Or.inl rfl)
  have hchunk : (rsCreateRingbuf num d).chunk < 2 ^ 32 := UInt32.toNat_lt _
  change _ ≤ (rsCreateRingbuf num d).chunk at hin
  unfold RingFits at hfit
  rw [hi, Nat.mul_succ] at hfit
  omega

/-- With a table that does not fit its chunk some run goes wrong. -/
theorem exists_not_lossless {num : UInt32} (hnum : 1 ≤ num) (hfit : ¬ RingFits num) (d : α) :
    ∃ acts s, exec spscStep (Spsc.init num d) acts = some s ∧ ¬ s.Lossless := by
  classical
  by_cases hwrap : ∃ j, (1 ≤ j ∧ j < num.toNat) ∧
      ringbufDataSize.toNat * j = (rsCreateRingbuf num d).stop
  · obtain ⟨⟨hj1, hjn⟩, hj⟩ := Nat.find_spec hwrap
    exact not_lossless_of_wrap d hj1 hjn hj fun k hk1 hk2 hk =>
      Nat.find_min hwrap hk2 ⟨⟨hk1, by omega⟩, hk⟩
  · exact not_lossless_of_overrun hnum hfit d fun k hk1 hk2 hk => hwrap ⟨k, ⟨hk1, hk2⟩, hk⟩

/-- In every interleaving of the two threads the ring is a lossless queue, exactly when
the 32-bit size of its slot table and header does not wrap. -/
theorem ringbuf_lossless_iff {num : UInt32} (hnum : 1 ≤ num) (d : α) :
    (∀ acts s, exec spscStep (Spsc.init num d) acts = some s → s.Lossless) ↔ RingFits num := by
  constructor
  · intro h
    by_contra hfit
    obtain ⟨acts, s, hrun, hbad⟩ := exists_not_lossless hnum hfit d
    exact hbad (h acts s hrun)
  · intro hfit acts s hrun
    exact (Spsc.inv_of_run hnum hfit hrun).lossless hnum

/-- The ring of 8000 slots that the sample configuration asks for. -/
theorem ringbuf_lossless_8000 : (1 : UInt32) ≤ 8000 ∧
    ((∀ acts s, exec spscStep (Spsc.init 8000 0) acts = some s → s.Lossless) ↔ RingFits 8000) :=
  ⟨by decide, ringbuf_lossless_iff (by decide) 0⟩

/-- With 536870913 slots the 32-bit table length wraps to that of one slot: the second
item overwrites the first one before it is read. -/
theorem ringbuf_loses_item : ¬ ∀ num : UInt32, 1 ≤ num → ∀ (acts : List (RingStep ℕ)) s,
    exec spscStep (Spsc.init num 0) acts = some s →
      s.consumed <+: s.published.map Prod.snd := by
  intro h
  let acts : List (RingStep ℕ) := [.set, .fill 1, .setPointer, .setCounter,
    .set, .fill 2, .setPointer, .setCounter, .get, .read]
  have hrun := h 536870913 (by decide) acts _ rfl
  exact absurd hrun (by decide)

end MySQLSyncer.Core
