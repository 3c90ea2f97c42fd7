import MySQLSyncer.Master.TeardownSession

/-! # The end of every session

A step concerns one session and one slot, and leaves the other sessions alone.
-/
namespace MySQLSyncer.Master
open Lib

variable {num : ℕ}

def Sessions.heldBy (s : Sessions num) (n : ℕ) : Option ThreadKind :=
  match s.holder with
  | some (k, m) => if m = n then some k else none
  | none => none

structure Sessions.Inv (s : Sessions num) : Prop where
  free : ∃ l, s.table.Free (s.holder.bind fun th => (s.threads th.2).slot) l
  given : ∀ i n, s.given i = some n → (s.threads n).slot = some i ∧ n < s.next
  setUp : ∀ i n, s.given i = some n → s.accepting = some n →
    SetUp (s.table.data i) (s.threads n) ∧ s.heldBy n = none
  live : ∀ i n, s.given i = some n → s.accepting ≠ some n →
    Live n (s.table.data i) (s.threads n) (s.heldBy n)
  blank : ∀ i, s.given i = none → rsReqdumpDataInit (s.table.data i) = s.table.data i
  accepting : ∀ n, s.accepting = some n → ∃ i, s.given i = some n
  holder : ∀ k n, s.holder = some (k, n) → ∃ i, s.given i = some n
  gone : ∀ n, (∀ i, s.given i ≠ some n) → Over (s.threads n)
  nodup : ∀ n, (s.threads n).opened.Nodup
  fresh : ∀ n, ∀ id ∈ (s.threads n).opened, id < s.fresh
  apart : ∀ m n, m ≠ n → (s.threads m).opened.Disjoint (s.threads n).opened
  cancels : ∀ n, ∀ m ∈ (s.threads n).cancels, m = n

theorem Sessions.Inv.given_inj {s : Sessions num} (h : s.Inv) {i j : Fin num} {n : ℕ}
    (hi : s.given i = some n) (hj : s.given j = some n) : j = i :=
  Option.some.inj ((h.given j n hj).1.symm.trans (h.given i n hi).1)

theorem writeSlot_same (t : Reqdump num) (i : Fin num) (d : ReqdumpData num) :
    (writeSlot t i d).data i = { d with isOpen := (t.data i).isOpen, data := (t.data i).data } :=
  Function.update_self ..

theorem writeSlot_other (t : Reqdump num) {i j : Fin num} (hj : j ≠ i) (d : ReqdumpData num) :
    (writeSlot t i d).data j = t.data j :=
  Function.update_of_ne hj ..

theorem closeSlot_same (t : Reqdump num) (i : Fin num) :
    (closeSlot t i).data i = { t.data i with isOpen := false } :=
  Function.update_self ..

theorem Sessions.setThreads_same (s : Sessions num) (n : ℕ) (x : SessionThreads num) :
    (s.setThreads n x).threads n = x :=
  Function.update_self ..

theorem Sessions.setThreads_other (s : Sessions num) {m n : ℕ} (hm : m ≠ n)
    (x : SessionThreads num) : (s.setThreads n x).threads m = s.threads m :=
  Function.update_of_ne hm ..

theorem Sessions.Inv.books {s : Sessions num} (h : s.Inv) {n f : ℕ} {x : SessionThreads num}
    (hf : s.fresh ≤ f) (hcancels : ∀ m ∈ x.cancels, m = n) (hnodup : x.opened.Nodup)
    (hopened : ∀ id ∈ x.opened, id ∈ (s.threads n).opened ∨ s.fresh ≤ id ∧ id < f) :
    (∀ m, ((s.setThreads n x).threads m).opened.Nodup) ∧
    (∀ m, ∀ id ∈ ((s.setThreads n x).threads m).opened, id < f) ∧
    (∀ m m', m ≠ m' → ((s.setThreads n x).threads m).opened.Disjoint
      ((s.setThreads n x).threads m').opened) ∧
    ∀ m, ∀ m' ∈ ((s.setThreads n x).threads m).cancels, m' = m := by
  have hother {m : ℕ} (hm : m ≠ n) : x.opened.Disjoint (s.threads m).opened := by
    intro id hid hid'
    rcases hopened id hid with hold | ⟨hge, -⟩
    · exact h.apart n m (Ne.symm hm) hold hid'
    · exact absurd (h.fresh m id hid') (Nat.not_lt.mpr hge)
  refine ⟨fun m => ?_, fun m id hid => ?_, fun m m' hne => ?_, fun m m' hm' => ?_⟩
  · rcases eq_or_ne m n with rfl | hm
    · rwa [setThreads_same]
    · rw [setThreads_other s hm]
      exact h.nodup m
  · rcases eq_or_ne m n with rfl | hm
    · rw [setThreads_same] at hid
      rcases hopened id hid with hold | ⟨-, hlt⟩
      · exact lt_of_lt_of_le (h.fresh m id hold) hf
      · exact hlt
    · rw [setThreads_other s hm] at hid
      exact lt_of_lt_of_le (h.fresh m id hid) hf
  · rcases eq_or_ne m n with rfl | hm
    · rw [setThreads_same, setThreads_other s (Ne.symm hne)]
      exact hother (Ne.symm hne)
    · rcases eq_or_ne m' n with rfl | hm'
      · rw [setThreads_same, setThreads_other s hm]
        exact List.disjoint_symm (hother hm)
      · rw [setThreads_other s hm, setThreads_other s hm']
        exact h.apart m m' hne
  · rcases eq_or_ne m n with rfl | hm
    · rw [setThreads_same] at hm'
      exact hcancels m' hm'
    · rw [setThreads_other s hm] at hm'
      exact h.cancels m m' hm'

structure Beside (s t : Sessions num) (i : Fin num) (n : ℕ) (x : SessionThreads num) : Prop where
  threads : t.threads = Function.update s.threads n x
  data : ∀ j, j ≠ i → t.table.data j = s.table.data j
  given : ∀ j, j ≠ i → t.given j = s.given j
  heldBy : ∀ m, m ≠ n → t.heldBy m = s.heldBy m
  accepting : ∀ m, m ≠ n → (t.accepting = some m ↔ s.accepting = some m)
  next : s.next ≤ t.next
  fresh : s.fresh ≤ t.fresh
  before : ∀ m, m ≠ n → s.given i ≠ some m
  elsewhere : ∀ j, j ≠ i → s.given j ≠ some n
  cancels : ∀ m ∈ x.cancels, m = n
  nodup : x.opened.Nodup
  opened : ∀ id ∈ x.opened, id ∈ (s.threads n).opened ∨ s.fresh ≤ id ∧ id < t.fresh
  holder : ∀ k m, t.holder = some (k, m) → m ≠ n → s.holder = some (k, m)

structure Sessions.Has (s : Sessions num) (i : Fin num) (n : ℕ) (x : SessionThreads num) : Prop where
  given : s.given i = some n
  slot : x.slot = some i
  lt : n < s.next
  setUp : s.accepting = some n → SetUp (s.table.data i) x ∧ s.heldBy n = none
  live : s.accepting ≠ some n → Live n (s.table.data i) x (s.heldBy n)

structure Sessions.Vacated (s : Sessions num) (i : Fin num) (n : ℕ) (x : SessionThreads num) : Prop where
  given : s.given i = none
  blank : rsReqdumpDataInit (s.table.data i) = s.table.data i
  gone : Over x
  accepting : s.accepting ≠ some n
  holder : ∀ k, s.holder ≠ some (k, n)

theorem Sessions.Inv.has {s : Sessions num} (h : s.Inv) {i : Fin num} {n : ℕ} (hi : s.given i = some n) :
    s.Has i n (s.threads n) where
  given := hi
  slot := (h.given i n hi).1
  lt := (h.given i n hi).2
  setUp := h.setUp i n hi
  live := h.live i n hi

namespace Beside

variable {s t : Sessions num} {i j : Fin num} {m n : ℕ} {x : SessionThreads num}

theorem threads_same (hb : Beside s t i n x) : t.threads n = x := by
  rw [hb.threads, Function.update_self]

theorem threads_other (hb : Beside s t i n x) (hne : m ≠ n) : t.threads m = s.threads m := by
  rw [hb.threads, Function.update_of_ne hne]

theorem has_other (hb : Beside s t i n x) (hne : m ≠ n) (hji : j ≠ i) (h : s.Has j m (s.threads m)) :
    t.Has j m (t.threads m) := by
  have hheld := hb.heldBy m hne
  have hacc := hb.accepting m hne
  rw [hb.threads_other hne]
  refine ⟨(hb.given j hji).trans h.given, h.slot, lt_of_lt_of_le h.lt hb.next, fun ha => ?_, fun ha => ?_⟩
  · rw [hb.data j hji, hheld]
    exact h.setUp (hacc.mp ha)
  · rw [hb.data j hji, hheld]
    exact h.live fun hs => ha (hacc.mpr hs)

theorem has (hb : Beside s t i n x) (h : s.Inv) (hafter : t.Has i n x ∨ t.Vacated i n x)
    (hj : t.given j = some m) : t.Has j m (t.threads m) := by
  rcases eq_or_ne j i with rfl | hji
  · rcases hafter with hhas | hgone
    · obtain rfl := Option.some.inj (hhas.given.symm.trans hj)
      rw [hb.threads_same]
      exact hhas
    · rw [hgone.given] at hj
      cases hj
  · have hs : s.given j = some m := (hb.given j hji).symm.trans hj
    have hne : m ≠ n := by
      rintro rfl
      exact hb.elsewhere j hji hs
    exact hb.has_other hne hji (h.has hs)

theorem given_other (hb : Beside s t i n x) (hne : m ≠ n) (hj : s.given j = some m) : t.given j = some m := by
  have hji : j ≠ i := by
    rintro rfl
    exact hb.before m hne hj
  rw [hb.given j hji, hj]

end Beside

/-- Such a step keeps the invariant if it keeps it for its session. -/
theorem Sessions.Inv.step_session {s t : Sessions num} (h : s.Inv) {i : Fin num} {n : ℕ}
    {x : SessionThreads num} (hb : Beside s t i n x)
    (hfree : ∃ l, t.table.Free (t.holder.bind fun th => (t.threads th.2).slot) l)
    (hafter : t.Has i n x ∨ t.Vacated i n x) : t.Inv := by
  obtain ⟨hnodup, hfresh, hapart, hcancels⟩ := h.books hb.fresh hb.cancels hb.nodup hb.opened
  have hset : (s.setThreads n x).threads = t.threads := hb.threads.symm
  rw [hset] at hnodup hfresh hapart hcancels
  -- a session that the accepting thread or the holder names has a slot
  have hstays {m : ℕ} (hsame : m = n → ¬ t.Vacated i n x) (hother : m ≠ n → ∃ j, s.given j = some m) :
      ∃ j, t.given j = some m := by
    rcases eq_or_ne m n with rfl | hne
    · exact ⟨i, (hafter.resolve_right (hsame rfl)).given⟩
    · obtain ⟨j, hj⟩ := hother hne
      exact ⟨j, hb.given_other hne hj⟩
  exact
    { free := hfree
      given := fun j m hj => ⟨(hb.has h hafter hj).slot, (hb.has h hafter hj).lt⟩
      setUp := fun j m hj => (hb.has h hafter hj).setUp
      live := fun j m hj => (hb.has h hafter hj).live
      blank := fun j hj => by
        rcases eq_or_ne j i with rfl | hji
        · rcases hafter with hhas | hgone
          · rw [hhas.given] at hj
            cases hj
          · exact hgone.blank
        · rw [hb.data j hji]
          exact h.blank j ((hb.given j hji).symm.trans hj)
      accepting := fun m hacc => hstays (fun hm hgone => hgone.accepting (hm ▸ hacc))
        fun hne => h.accepting m ((hb.accepting m hne).mp hacc)
      holder := fun k m hhold => hstays (fun hm hgone => hgone.holder k (hm ▸ hhold))
        fun hne => h.holder k m (hb.holder k m hhold hne)
      gone := fun m hno => by
        rcases eq_or_ne m n with rfl | hne
        · rcases hafter with hhas | hgone
          · exact absurd hhas.given (hno i)
          · exact hb.threads_same ▸ hgone.gone
        · rw [hb.threads_other hne]
          exact h.gone m fun j hj => hno j (hb.given_other hne hj)
      nodup := hnodup
      fresh := hfresh
      apart := hapart
      cancels := hcancels }

/-- A step that changes one session's threads and the fields of its slot keeps the invariant if
it keeps it for this session. -/
theorem Sessions.Inv.step_local {s : Sessions num} (h : s.Inv) {i : Fin num} {n f : ℕ}
    {a : Option ℕ} (hgiven : s.given i = some n)
    (ha : a = s.accepting ∨ s.accepting = some n ∧ a = none) (hacc : a ≠ some n)
    {d : ReqdumpData num} {x : SessionThreads num} (hf : s.fresh ≤ f) (hslot : x.slot = some i)
    (hcancels : x.cancels = (s.threads n).cancels) (hnodup : x.opened.Nodup)
    (hopened : ∀ id ∈ x.opened, id ∈ (s.threads n).opened ∨ s.fresh ≤ id ∧ id < f)
    (hlive : Live n ((writeSlot s.table i d).data i) x (s.heldBy n)) :
    ({ s.setThreads n x with
        table := writeSlot s.table i d, accepting := a, fresh := f } : Sessions num).Inv := by
  refine h.step_session (i := i) (n := n) (x := x) ?_ ?_ (Or.inl ⟨hgiven, hslot, (h.given i n hgiven).2,
    fun he => absurd he hacc, fun _ => hlive⟩)
  · exact
      { threads := rfl
        data := fun j hj => writeSlot_other s.table hj d
        given := fun _ _ => rfl
        heldBy := fun _ _ => rfl
        accepting := fun m hm => by
          rcases ha with rfl | ⟨hs, rfl⟩
          · exact Iff.rfl
          · simp only [hs, Option.some.injEq, reduceCtorEq, false_iff]
            exact Ne.symm hm
        next := le_rfl
        fresh := hf
        before := fun m hm he => hm (Option.some.inj (he.symm.trans hgiven))
        elsewhere := fun j hj he => hj (h.given_inj hgiven he)
        cancels := fun m hm => h.cancels n m (hcancels ▸ hm)
        nodup := hnodup
        opened := hopened
        holder := fun _ _ hh _ => hh }
  · obtain ⟨l, hl⟩ := h.free
    refine ⟨l, ?_⟩
    have hslots (m : ℕ) : ((s.setThreads n x).threads m).slot = (s.threads m).slot := by
      rcases eq_or_ne m n with rfl | hm
      · rw [setThreads_same, hslot, (h.given i m hgiven).1]
      · rw [setThreads_other s hm]
    change Reqdump.Free _ (s.holder.bind fun th => ((s.setThreads n x).threads th.2).slot) l
    simp only [hslots]
    exact hl.writeSlot d

/-- A late step of a thread whose session has no slot any more. -/
theorem Sessions.Inv.step_over {s : Sessions num} (h : s.Inv) {n : ℕ}
    (hgiven : ∀ i, s.given i ≠ some n) {x : SessionThreads num} (hslot : x.slot = (s.threads n).slot)
    (hcancels : x.cancels = (s.threads n).cancels) (hopened : x.opened = (s.threads n).opened)
    (hover : Over x) : (s.setThreads n x).Inv := by
  obtain ⟨hb1, hb2, hb3, hb4⟩ := h.books (f := s.fresh) le_rfl
    (fun m hm => h.cancels n m (hcancels ▸ hm)) (hopened ▸ h.nodup n) (fun id hid => Or.inl (hopened ▸ hid))
  have hslots (m : ℕ) : ((s.setThreads n x).threads m).slot = (s.threads m).slot := by
    rcases eq_or_ne m n with rfl | hm
    · rw [setThreads_same, hslot]
    · rw [setThreads_other s hm]
  have hmn {j : Fin num} {m : ℕ} (hj : s.given j = some m) : m ≠ n := fun he => hgiven j (he ▸ hj)
  exact
    { free := by
        obtain ⟨l, hl⟩ := h.free
        refine ⟨l, ?_⟩
        change Reqdump.Free _ (s.holder.bind fun th => ((s.setThreads n x).threads th.2).slot) l
        simp only [hslots]
        exact hl
      given := fun j m hj => by
        rw [hslots]
        exact h.given j m hj
      setUp := fun j m hj hm => by
        rw [setThreads_other s (hmn hj)]
        exact h.setUp j m hj hm
      live := fun j m hj hm => by
        rw [setThreads_other s (hmn hj)]
        exact h.live j m hj hm
      blank := h.blank
      accepting := h.accepting
      holder := h.holder
      gone := fun m hm => by
        rcases eq_or_ne m n with rfl | hne
        · rwa [setThreads_same]
        · rw [setThreads_other s hne]
          exact h.gone m hm
      nodup := hb1
      fresh := hb2
      apart := hb3
      cancels := hb4 }

variable {n : ℕ}

theorem Sessions.Inv.not_accepting {s : Sessions num} (h : s.Inv) {i : Fin num} {k : ThreadKind}
    (hgiven : s.given i = some n) (hphase : (s.threads n).phase k ≠ .idle) :
    s.accepting ≠ some n := fun hacc =>
  hphase ((h.setUp i n hgiven hacc).1.phase k)

/-- A thread of a session that has a slot takes a step in its cleanup handler. -/
theorem Sessions.Inv.step_exiting {s : Sessions num} (h : s.Inv) {i : Fin num} {k : ThreadKind}
    {p : ThreadPhase} (hgiven : s.given i = some n)
    (hk : (s.threads n).phase k ≠ .idle ∧ (s.threads n).phase k ≠ .holding) (hp : p.Exiting)
    (hhold : p ≠ .holding) (hdone : p = .done → (s.table.data i).isOpen = false) :
    ({ s.setThreads n ((s.threads n).setPhase k p) with
        table := writeSlot s.table i (markExit k (s.table.data i)) } : Sessions num).Inv := by
  have hacc := h.not_accepting hgiven hk.1
  refine h.step_local (f := s.fresh) (a := s.accepting) hgiven (Or.inl rfl) hacc le_rfl
    (h.given i n hgiven).1 rfl (h.nodup n) (fun id hid => Or.inl hid) ?_
  have hlive := (h.live i n hgiven hacc).exiting hk hp hhold hdone
  rw [writeSlot_same, ← markExit_isOpen k, ← markExit_data k]
  exact hlive

/-- Nothing is written by a thread that has set its exit flag before. -/
theorem Sessions.Inv.writeSlot_markExit {s : Sessions num} (h : s.Inv) {i : Fin num}
    {k : ThreadKind} (hgiven : s.given i = some n) (hk : ((s.threads n).phase k).Exiting) :
    writeSlot s.table i (markExit k (s.table.data i)) = s.table := by
  have hidle : (s.threads n).phase k ≠ .idle := fun he => by rw [he] at hk; exact hk
  rw [(h.live i n hgiven (h.not_accepting hgiven hidle)).markExit_eq hk, writeSlot]
  simp only [Function.update_eq_self]

theorem Sessions.Inv.connect {s t : Sessions num} (h : s.Inv)
    (hstep : teardownStep s .connect = some t) : t.Inv := by
  rw [teardownStep] at hstep
  split at hstep
  case isFalse => cases hstep
  case isTrue hfree =>
    obtain ⟨⟨i, table⟩, hget, rfl⟩ := Option.map_eq_some_iff.mp hstep
    obtain ⟨l, hl⟩ := h.free
    rw [hfree.2] at hl
    obtain ⟨hclosed, -, l', -, hl'⟩ := hl.get hget
    have htable : table.data = Function.update s.table.data i { s.table.data i with isOpen := true } := by
      rw [rsGetReqdumpData] at hget
      cases hhead : s.table.free with
      | none => rw [hhead] at hget; cases hget
      | some j =>
        rw [hhead] at hget
        obtain ⟨rfl, rfl⟩ := Prod.mk.inj (Option.some.inj hget)
        rfl
    have hno (m : ℕ) : s.heldBy m = none := by rw [heldBy, hfree.2]
    have hnone : s.given i = none := by
      cases hg : s.given i with
      | none => rfl
      | some m =>
        have hlive := h.live i m hg (by simp [hfree.1])
        rw [hno] at hlive
        rw [hlive.isOpen.mpr rfl] at hclosed
        cases hclosed
    refine h.step_session (i := i) (n := s.next) (x := { (.init : SessionThreads num) with slot := some i })
      ?_ ?_ (Or.inl ⟨Function.update_self .., rfl, Nat.lt_succ_self _, fun _ => ⟨?_, hno _⟩,
        fun hne => absurd rfl hne⟩)
    · exact
        { threads := rfl
          data := fun j hj => by rw [htable, Function.update_of_ne hj]
          given := fun j hj => Function.update_of_ne hj ..
          heldBy := fun _ _ => rfl
          accepting := fun m hm => by
            simp only [hfree.1, Option.some.injEq, reduceCtorEq, iff_false]
            exact Ne.symm hm
          next := Nat.le_succ _
          fresh := le_rfl
          before := fun m _ he => by rw [hnone] at he; cases he
          elsewhere := fun j _ hj => absurd (h.given j _ hj).2 (lt_irrefl _)
          cancels := by simp [SessionThreads.init]
          nodup := List.nodup_nil
          opened := by simp [SessionThreads.init]
          holder := fun _ _ hh _ => hh }
    · refine ⟨l', ?_⟩
      rw [hfree.2]
      exact hl'
    · have hdata : table.data i = { s.table.data i with isOpen := true } := by
        rw [htable, Function.update_self]
      have hblank := h.blank i hnone
      exact
        { blank := by
            rw [hdata]
            change rsReqdumpDataInit (s.table.data i) = { s.table.data i with isOpen := false }
            rw [hblank, ← hclosed]
          isOpen := by rw [hdata]
          phase := fun _ => rfl
          place := rfl
          opened := rfl
          released := rfl }

theorem Sessions.Inv.close {s : Sessions num} (h : s.Inv) {i : Fin num} {k : ThreadKind}
    (hgiven : s.given i = some n) (hk : (s.threads n).phase k = .calling) (hholder : s.holder = none)
    (hopen : (s.table.data i).isOpen = true) (hplace : (s.threads n).place ≠ .unwatching) :
    ({ s with
        table := closeSlot s.table i
        holder := some (k, n)
        threads := (toCancel (s.table.data i)).foldl cancelThread
          (Function.update s.threads n ((s.threads n).close k (s.table.data i))) } :
      Sessions num).Inv := by
  have hacc := h.not_accepting (k := k) hgiven (by rw [hk]; decide)
  have hlive := h.live i n hgiven hacc
  have hheld : s.heldBy n = none := by rw [heldBy, hholder]
  rw [hheld] at hlive
  obtain ⟨c, hthreads, hc⟩ := foldl_cancelThread _ hlive.toCancel_own s.threads
    ((s.threads n).close k (s.table.data i))
  rw [hthreads]
  have hheld' (m : ℕ) (hm : m ≠ n) : (if n = m then some k else none) = s.heldBy m := by
    rw [if_neg (Ne.symm hm), heldBy, hholder]
  obtain ⟨l, hl⟩ := h.free
  rw [hholder] at hl
  refine h.step_session (i := i) (n := n)
    (x := { (s.threads n).close k (s.table.data i) with cancelled := c }) ?_ ⟨l, ?_⟩
    (Or.inl ⟨hgiven, (h.given i n hgiven).1, (h.given i n hgiven).2, fun he => absurd he hacc,
      fun _ => ?_⟩)
  · exact
      { threads := rfl
        data := fun j hj => Function.update_of_ne hj ..
        given := fun _ _ => rfl
        heldBy := hheld'
        accepting := fun _ _ => Iff.rfl
        next := le_rfl
        fresh := le_rfl
        before := fun m hm he => hm (Option.some.inj (he.symm.trans hgiven))
        elsewhere := fun j hj he => hj (h.given_inj hgiven he)
        cancels := fun m hm => by
          rcases List.mem_append.mp hm with hm | hm
          · obtain ⟨th, hth, rfl⟩ := List.mem_map.mp hm
            exact hlive.toCancel_own th hth
          · exact h.cancels n m hm
        nodup := h.nodup n
        opened := fun _ hid => Or.inl hid
        holder := fun k' m he hm => absurd (congrArg Prod.snd (Option.some.inj he)).symm hm }
  · simp only [Option.bind_some, Function.update_self]
    change Reqdump.Free _ (s.threads n).slot l
    rw [(h.given i n hgiven).1]
    exact hl.closeSlot hopen
  · have hself : ({ s with holder := some (k, n) } : Sessions num).heldBy n = some k := if_pos rfl
    change Live n ((closeSlot s.table i).data i) _
      (({ s with holder := some (k, n) } : Sessions num).heldBy n)
    rw [hself, closeSlot_same]
    exact hlive.close hk hplace fun j hj => hc j (Or.inr hj)

theorem Sessions.Inv.release {s : Sessions num} (h : s.Inv) {i : Fin num} {k : ThreadKind}
    (hgiven : s.given i = some n) (hk : (s.threads n).phase k = .holding)
    (hholder : s.holder = some (k, n)) (hplace : (s.threads n).place ≠ .reopening)
    {table : Reqdump num} (hrel : releaseSlot s.table i = some table) :
    ({ s.setThreads n ((s.threads n).release k (s.table.data i)) with
        table := table, holder := none, given := Function.update s.given i none } :
      Sessions num).Inv := by
  have hacc := h.not_accepting (k := k) hgiven (by rw [hk]; decide)
  have hheld : s.heldBy n = some k := by simp [heldBy, hholder]
  have hlive := h.live i n hgiven hacc
  rw [hheld] at hlive
  have htable : table.data = Function.update s.table.data i
      (rsReqdumpDataInit { s.table.data i with data := s.table.free }) := by
    rw [releaseSlot] at hrel
    split at hrel
    · cases hrel
    · obtain rfl := Option.some.inj hrel
      rfl
  obtain ⟨l, hl⟩ := h.free
  rw [hholder, Option.bind_some, (h.given i n hgiven).1] at hl
  refine h.step_session (i := i) (n := n) (x := (s.threads n).release k (s.table.data i)) ?_
    ⟨_, hl.releaseSlot hrel⟩ (Or.inr ⟨Function.update_self .., ?_, hlive.release hplace, hacc, by simp⟩)
  · exact
      { threads := rfl
        data := fun j hj => by rw [htable, Function.update_of_ne hj]
        given := fun j hj => Function.update_of_ne hj ..
        heldBy := fun m hm => by
          have : s.heldBy m = none := by simp [heldBy, hholder, Ne.symm hm]
          exact this.symm
        accepting := fun _ _ => Iff.rfl
        next := le_rfl
        fresh := le_rfl
        before := fun m hm he => hm (Option.some.inj (he.symm.trans hgiven))
        elsewhere := fun j hj he => hj (h.given_inj hgiven he)
        cancels := fun m hm => h.cancels n m hm
        nodup := h.nodup n
        opened := fun _ hid => Or.inl hid
        holder := by simp }
  · rw [htable, Function.update_self]
    rfl

theorem Sessions.Inv.of_tenant {s : Sessions num} {i : Fin num} {m : ℕ}
    (hslot : (s.threads n).slot = some i) (htenant : s.tenant n = some m) : s.given i = some m := by
  rwa [tenant, hslot] at htenant

theorem Sessions.slotOpen_eq {s : Sessions num} {i : Fin num} (hslot : (s.threads n).slot = some i) :
    s.slotOpen n = (s.table.data i).isOpen := by
  simp [slotOpen, hslot]

theorem Sessions.Inv.gone_of_tenant {s : Sessions num} (h : s.Inv) (htenant : s.tenant n = none)
    (i : Fin num) : s.given i ≠ some n := by
  intro hi
  rw [tenant, (h.given i n hi).1] at htenant
  rw [Option.bind_some, hi] at htenant
  cases htenant

theorem Sessions.Inv.closed_of_tenant {s : Sessions num} (h : s.Inv) {i : Fin num}
    (hslot : (s.threads n).slot = some i) (htenant : s.tenant n = none) :
    (s.table.data i).isOpen = false := by
  rw [tenant, hslot, Option.bind_some] at htenant
  rw [← h.blank i htenant]
  rfl

/-- A thread that has set its exit flag goes on, without a write. -/
theorem Sessions.Inv.step_call {s : Sessions num} (h : s.Inv) {i : Fin num} {k : ThreadKind}
    {p : ThreadPhase} (hslot : (s.threads n).slot = some i)
    (htenant : s.tenant n = some n ∨ s.tenant n = none)
    (hk : ((s.threads n).phase k).Exiting ∧ (s.threads n).phase k ≠ .holding)
    (hp : p = .calling ∧ (s.table.data i).isOpen = true ∨
      p = .done ∧ (s.table.data i).isOpen = false) :
    (s.setThreads n ((s.threads n).setPhase k p)).Inv := by
  have hidle : (s.threads n).phase k ≠ .idle := fun he => by
    rw [he] at hk
    exact hk.1
  rcases htenant with htenant | htenant
  · have hgiven := Inv.of_tenant hslot htenant
    have := h.step_exiting (p := p) hgiven ⟨hidle, hk.2⟩
      (by rcases hp with ⟨rfl, -⟩ | ⟨rfl, -⟩ <;> trivial)
      (by rcases hp with ⟨rfl, -⟩ | ⟨rfl, -⟩ <;> decide)
      (by rcases hp with ⟨rfl, -⟩ | ⟨-, hc⟩; exacts [nofun, fun _ => hc])
    rw [h.writeSlot_markExit hgiven hk.1] at this
    exact this
  · rcases hp with ⟨-, hopen⟩ | ⟨rfl, -⟩
    · rw [h.closed_of_tenant hslot htenant] at hopen
      cases hopen
    · have hgone := h.gone_of_tenant htenant
      exact h.step_over hgone rfl rfl rfl (h.gone n hgone).done

theorem Sessions.Inv.start {s t : Sessions num} (h : s.Inv) (hstep : teardownStep s .start = some t) :
    t.Inv := by
  simp only [teardownStep, Option.bind_eq_bind, Option.bind_eq_some_iff] at hstep
  obtain ⟨n, hacc, i, hslot, hstep⟩ := hstep
  obtain rfl := Option.some.inj hstep
  obtain ⟨j, hj⟩ := h.accepting n hacc
  obtain rfl : j = i := Option.some.inj ((h.given j n hj).1.symm.trans hslot)
  obtain ⟨hsetUp, hheld⟩ := h.setUp j n hj hacc
  refine h.step_local (a := none) hj (Or.inr ⟨hacc, rfl⟩) nofun (Nat.le_add_right _ 5) hslot rfl ?_ ?_ ?_
  · rw [hsetUp.opened, List.append_nil]
    exact List.nodup_range'
  · intro id hid
    rw [hsetUp.opened, List.append_nil, List.mem_range'_1] at hid
    exact Or.inr hid
  · rw [writeSlot_same, hheld]
    exact hsetUp.start s.fresh n

theorem Sessions.Inv.createIo {s t : Sessions num} {n : ℕ} (h : s.Inv)
    (hstep : teardownStep s (.createIo n) = some t) : t.Inv := by
  obtain ⟨i, hslot, hstep⟩ := Option.bind_eq_some_iff.mp hstep
  obtain ⟨hphase, hstep⟩ := Option.ite_none_right_eq_some.mp hstep
  obtain rfl := Option.some.inj hstep
  -- without a slot its dump thread would not be running
  have hgiven : s.given i = some n := by
    by_contra hno
    refine (h.gone n fun j hj => hno ?_).created hphase.2 hphase.1
    obtain rfl : j = i := Option.some.inj ((h.given j n hj).1.symm.trans hslot)
    exact hj
  have hacc := h.not_accepting (k := .dump) hgiven (by rw [hphase.1]; decide)
  refine h.step_local (f := s.fresh) (a := s.accepting) hgiven (Or.inl rfl) hacc le_rfl hslot rfl
    (h.nodup n) (fun id hid => Or.inl hid) ?_
  rw [writeSlot_same]
  exact (h.live i n hgiven hacc).createIo hphase.1 hphase.2

theorem Sessions.Inv.file {s t : Sessions num} {n : ℕ} {op : FileOp} (h : s.Inv)
    (hok : s.TeardownOk (.file n op)) (hstep : teardownStep s (.file n op) = some t) : t.Inv := by
  obtain ⟨i, hslot, hstep⟩ := Option.bind_eq_some_iff.mp hstep
  obtain ⟨hio, hstep⟩ := Option.ite_none_right_eq_some.mp hstep
  obtain ⟨⟨d', x'⟩, hfile, hstep⟩ := Option.bind_eq_some_iff.mp hstep
  obtain rfl := Option.some.inj hstep
  have hgiven := Inv.of_tenant hslot hok.1
  have hacc := h.not_accepting (k := .io) hgiven (by rw [hio]; decide)
  have hwatch (hop : op = .watch) : (s.table.data i).isOpen = true := by
    subst hop
    rw [← slotOpen_eq hslot]
    exact hok.2
  obtain ⟨hlive, hopen, hdata, hslot', -, hcancels, hopened⟩ :=
    (h.live i n hgiven hacc).file hio hwatch hfile
  refine h.step_local (f := s.fresh + 1) (a := s.accepting) hgiven (Or.inl rfl) hacc
    (Nat.le_succ _) (hslot'.trans hslot) hcancels ?_ ?_ ?_
  · rcases hopened with he | he
    · rw [he]
      exact h.nodup n
    · rw [he]
      exact List.nodup_cons.mpr ⟨fun hm => absurd (h.fresh n _ hm) (lt_irrefl _), h.nodup n⟩
  · intro id hid
    rcases hopened with he | he
    · exact Or.inl (he ▸ hid)
    · rw [he] at hid
      rcases List.mem_cons.mp hid with rfl | hid
      · exact Or.inr ⟨le_rfl, Nat.lt_succ_self _⟩
      · exact Or.inl hid
  · rw [writeSlot_same, ← hopen, ← hdata]
    exact hlive

theorem Sessions.Inv.stop {s t : Sessions num} {k : ThreadKind} {n : ℕ} (h : s.Inv)
    (hok : s.TeardownOk (.stop k n)) (hstep : teardownStep s (.stop k n) = some t) : t.Inv := by
  obtain ⟨i, hslot, hstep⟩ := Option.bind_eq_some_iff.mp hstep
  obtain ⟨hk, hstep⟩ := Option.ite_none_right_eq_some.mp hstep
  obtain rfl := Option.some.inj hstep
  exact h.step_exiting (p := .marked) (Inv.of_tenant hslot hok) (by rw [hk]; decide) trivial
    (by decide) nofun

theorem Sessions.Inv.call {s t : Sessions num} {k : ThreadKind} {n : ℕ} (h : s.Inv)
    (hok : s.TeardownOk (.call k n)) (hstep : teardownStep s (.call k n) = some t) : t.Inv := by
  obtain ⟨i, hslot, hstep⟩ := Option.bind_eq_some_iff.mp hstep
  obtain ⟨hk, hstep⟩ := Option.ite_none_right_eq_some.mp hstep
  have hexit : ((s.threads n).phase k).Exiting ∧ (s.threads n).phase k ≠ .holding := by
    rw [hk]
    exact ⟨trivial, by decide⟩
  split at hstep
  case isTrue hopen =>
    obtain ⟨-, hstep⟩ := Option.ite_none_right_eq_some.mp hstep
    obtain rfl := Option.some.inj hstep
    exact h.step_call hslot hok hexit (Or.inl ⟨rfl, hopen⟩)
  case isFalse hclosed =>
    obtain rfl := Option.some.inj hstep
    exact h.step_call hslot hok hexit (Or.inr ⟨rfl, Bool.eq_false_of_not_eq_true hclosed⟩)

theorem Sessions.Inv.lock {s t : Sessions num} {k : ThreadKind} {n : ℕ} (h : s.Inv)
    (hok : s.TeardownOk (.lock k n)) (hstep : teardownStep s (.lock k n) = some t) : t.Inv := by
  obtain ⟨i, hslot, hstep⟩ := Option.bind_eq_some_iff.mp hstep
  obtain ⟨hk, hstep⟩ := Option.ite_none_right_eq_some.mp hstep
  split at hstep
  case isTrue hopen =>
    obtain rfl := Option.some.inj hstep
    rcases hok.1 with htenant | htenant
    · exact h.close (Inv.of_tenant hslot htenant) hk.1 hk.2 hopen
        (hok.2 ((slotOpen_eq hslot).trans hopen))
    · rw [h.closed_of_tenant hslot htenant] at hopen
      cases hopen
  case isFalse hclosed =>
    obtain rfl := Option.some.inj hstep
    refine h.step_call hslot hok.1 ?_ (Or.inr ⟨rfl, Bool.eq_false_of_not_eq_true hclosed⟩)
    rw [hk.1]
    exact ⟨trivial, by decide⟩

/-- Every step that meets the condition keeps the invariant. -/
theorem Sessions.Inv.step {s t : Sessions num} (a : TeardownAct) (h : s.Inv) (hok : s.TeardownOk a)
    (hstep : teardownStep s a = some t) : t.Inv := by
  cases a with
  | connect => exact h.connect hstep
  | start => exact h.start hstep
  | createIo n => exact h.createIo hstep
  | file n op => exact h.file hok hstep
  | stop k n => exact h.stop hok hstep
  | call k n => exact h.call hok hstep
  | lock k n => exact h.lock hok hstep
  | release k n =>
    obtain ⟨i, hslot, hstep⟩ := Option.bind_eq_some_iff.mp hstep
    obtain ⟨hk, hstep⟩ := Option.ite_none_right_eq_some.mp hstep
    obtain ⟨table, hrel, hstep⟩ := Option.bind_eq_some_iff.mp hstep
    obtain rfl := Option.some.inj hstep
    obtain ⟨j, hj⟩ := h.holder k n hk.2
    obtain rfl : j = i := Option.some.inj ((h.given j n hj).1.symm.trans hslot)
    exact h.release hj hk.1 hk.2 hok hrel

theorem Sessions.inv_init {table : Reqdump num} (h : ∃ l, table.Free none l)
    (hblank : ∀ i, rsReqdumpDataInit (table.data i) = table.data i) : (Sessions.init table).Inv :=
  { free := h
    given := nofun
    setUp := nofun
    live := nofun
    blank := fun i _ => hblank i
    accepting := nofun
    holder := nofun
    gone := fun _ _ => ⟨List.Perm.refl _, nofun, nofun⟩
    nodup := fun _ => List.nodup_nil
    fresh := nofun
    apart := fun _ _ _ => List.disjoint_nil_left _
    cancels := nofun }

theorem Sessions.Inv.released_of {s : Sessions num} (h : s.Inv) (n : ℕ) :
    (s.threads n).released.Nodup ∧ (s.threads n).released ⊆ (s.threads n).opened ∧
      ((s.threads n).Ended → (s.threads n).opened ⊆ (s.threads n).released) := by
  by_cases hgiven : ∃ i, s.given i = some n
  · obtain ⟨i, hi⟩ := hgiven
    by_cases hacc : s.accepting = some n
    · have hsetUp := (h.setUp i n hi hacc).1
      rw [hsetUp.released, hsetUp.opened]
      exact ⟨List.nodup_nil, List.Subset.refl _, fun _ => List.Subset.refl _⟩
    · have hlive := h.live i n hi hacc
      have hnodup := hlive.perm.nodup_iff.mpr (h.nodup n)
      refine ⟨(List.nodup_append.mp hnodup).2.1,
        fun id hid => hlive.perm.subset (List.mem_append_right _ hid), fun hended => ?_⟩
      -- one of its threads would be releasing the slot
      exfalso
      have hclosed : (s.table.data i).isOpen ≠ true := fun ho => hlive.notDone ho .dump hended.1
      obtain ⟨k, hk⟩ := Option.ne_none_iff_exists'.mp fun hn => hclosed (hlive.isOpen.mpr hn)
      have hholding := (hlive.holding k).mpr hk
      cases k with
      | dump => rw [hended.1] at hholding; cases hholding
      | io => rcases hended.2 with he | he <;> rw [he] at hholding <;> cases hholding
  · have hover := h.gone n fun i hi => hgiven ⟨i, hi⟩
    exact ⟨hover.perm.nodup_iff.mpr (h.nodup n), hover.perm.subset, fun _ => hover.perm.symm.subset⟩

theorem Sessions.Inv.ends {s : Sessions num} (h : s.Inv) {k : ThreadKind} {n : ℕ}
    (hholder : s.holder = some (k, n)) : (teardownStep s (.release k n)).isSome := by
  obtain ⟨i, hi⟩ := h.holder k n hholder
  have hheld : s.heldBy n = some k := by simp [heldBy, hholder]
  have hacc : s.accepting ≠ some n := fun hacc => by
    rw [(h.setUp i n hi hacc).2] at hheld
    cases hheld
  have hlive := h.live i n hi hacc
  have hphase := (hlive.holding k).mpr hheld
  obtain ⟨t, ht⟩ : ∃ t, releaseSlot s.table i = some t := by
    simp [releaseSlot, hlive.ringbuf, hlive.pool]
  simp [teardownStep, (h.given i n hi).1, hphase, hholder, ht]

/-- The invariant says that the sessions are torn down. -/
theorem Sessions.Inv.tornDown {s : Sessions num} (h : s.Inv) : s.TornDown :=
  { apart := h.apart
    once := fun n => (h.released_of n).1
    own := fun n => (h.released_of n).2.1
    all := fun n => (h.released_of n).2.2
    cancels := h.cancels
    marks := fun i n hi => by
      by_cases hacc : s.accepting = some n
      · have hblank := (h.setUp i n hi hacc).1.blank
        have hdump := congrArg ReqdumpData.dumpThreadExit hblank
        have hio := congrArg ReqdumpData.ioThreadExit hblank
        simp only [rsReqdumpDataInit] at hdump hio
        rw [← hdump, ← hio]
        simp
      · have hlive := h.live i n hi hacc
        exact ⟨hlive.dumpExit.mp, hlive.ioExit.mp⟩
    ends := fun _ _ => h.ends }

/-- Every state of a run whose steps meet the condition has its sessions torn down. -/
theorem tornDown_of_teardownOk (num : ℕ) (block : Fin num → ReqdumpData num) (table : Reqdump num)
    (htable : rsCreateReqdump num block = some table) (acts : List TeardownAct) (t : Sessions num)
    (hok : Along teardownStep Sessions.TeardownOk (.init table) acts)
    (hrun : exec teardownStep (.init table) acts = some t) : t.TornDown := by
  have hblank := blank_rsCreateReqdump htable
  have hinit := Sessions.inv_init ⟨_, free_rsCreateReqdump htable⟩ hblank
  exact (exec_invariant_along Sessions.TeardownOk (fun s a t hs ha hstep => hs.step a ha hstep)
    hinit hok hrun).tornDown

/-- A session whose io thread finds the watch readable and ends, while the dump thread is
cancelled, and the next session. -/
def oneTeardown : List TeardownAct :=
  [.connect, .start, .createIo 0, .file 0 .fopenIdx, .file 0 (.fopen true), .file 0 .watch,
    .file 0 .closeWatch, .file 0 .unwatch, .stop .io 0, .call .io 0, .lock .io 0, .stop .dump 0,
    .call .dump 0, .release .io 0, .connect, .start]

def oneSlot : Reqdump 1 := (rsCreateReqdump 1 fun _ => default).get rfl

theorem tornDown_sample : ∃ t, exec teardownStep (.init oneSlot) oneTeardown = some t ∧ t.TornDown :=
  ⟨_, rfl, tornDown_of_teardownOk 1 (fun _ => default) oneSlot (Option.some_get _).symm oneTeardown _
    (by decide +kernel) rfl⟩

/-- The dump thread's handler runs when its slot has been given to the next connection. -/
theorem late_handler_releases_later : ∃ t, exec teardownStep (.init oneSlot)
    [.connect, .start, .createIo 0, .stop .io 0, .call .io 0, .lock .io 0, .release .io 0,
      .connect, .start, .stop .dump 0, .call .dump 0, .lock .dump 0] = some t ∧ ¬ t.TornDown := by
  refine ⟨_, rfl, fun h => ?_⟩
  -- the descriptor of the second connection is closed by a thread of the first
  exact absurd (h.own 0) (by decide +kernel)

end MySQLSyncer.Master
