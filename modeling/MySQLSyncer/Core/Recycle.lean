import MySQLSyncer.Core.PallocId
import MySQLSyncer.Core.PallocInvariant

/-! # What becomes of a chunk

A chunk that was handed out stays in use until it is given back, and then it is in the free
list of its class until it is handed out again.
-/
namespace MySQLSyncer.Core
open Lib

def RsPool.freeCount (p : RsPool) (x : Chunk) : ℕ :=
  ((p.classAt x.id).map fun c => c.freeChunk.count x.extent.addr).getD 0

def PoolUse.Keeps (s : PoolUse) (x : Chunk) : Prop :=
  x ∈ s.live ∨ ∃ c, s.pool.classAt x.id = some c ∧ c.size = x.extent.len ∧
    x.extent.addr ∈ c.freeChunk

def RsPool.FreeIn (p q : RsPool) (lost : ℤ → ℕ → Prop) : Prop :=
  ∀ id c, p.classAt id = some c → ∃ d, q.classAt id = some d ∧ d.size = c.size ∧
    ∀ a ∈ c.freeChunk, a ∈ d.freeChunk ∨ lost id a

variable {p q r : RsPool} {id : ℤ} {c d : RsPoolClass} {lost : ℤ → ℕ → Prop} {libc : Libc}

theorem classAt_setClass (hc : p.classAt id = some c) (d : RsPoolClass) (j : ℤ) :
    (p.setClass id d).classAt j = if j = id then some d else p.classAt j := by
  obtain ⟨hid, hc⟩ := classAt_eq_some.mp hc
  have hlt := (List.getElem?_eq_some_iff.mp hc).1
  by_cases hj : j = id
  · subst hj
    rw [if_pos rfl]
    exact classAt_eq_some.mpr ⟨hid, List.getElem?_set_self hlt⟩
  · rw [if_neg hj, RsPool.classAt, RsPool.classAt]
    split_ifs with hpos
    · have hne : id.toNat ≠ j.toNat := by omega
      exact List.getElem?_set_ne hne
    · rfl

theorem RsPool.FreeIn.refl (p : RsPool) : p.FreeIn p lost :=
  fun _ c hc => ⟨c, hc, rfl, fun _ ha => Or.inl ha⟩

theorem RsPool.FreeIn.trans (h : p.FreeIn q fun _ _ => False) (h' : q.FreeIn r lost) :
    p.FreeIn r lost := by
  intro id c hc
  obtain ⟨d, hd, hsize, hfree⟩ := h id c hc
  obtain ⟨e, he, hsize', hfree'⟩ := h' id d hd
  exact ⟨e, he, hsize'.trans hsize, fun a ha => hfree' a ((hfree a ha).resolve_right not_false)⟩

theorem freeIn_of_slabClass (h : q.slabClass = p.slabClass) : p.FreeIn q lost := by
  intro id c hc
  refine ⟨c, ?_, rfl, fun _ ha => Or.inl ha⟩
  rwa [RsPool.classAt, h]

theorem freeIn_setClass (hc : p.classAt id = some c) (hsize : d.size = c.size)
    (hfree : ∀ a ∈ c.freeChunk, a ∈ d.freeChunk ∨ lost id a) : p.FreeIn (p.setClass id d) lost := by
  intro j e he
  rw [classAt_setClass hc]
  by_cases hj : j = id
  · subst hj
    obtain rfl := Option.some.inj (hc.symm.trans he)
    exact ⟨d, if_pos rfl, hsize, hfree⟩
  · exact ⟨e, (if_neg hj).trans he, rfl, fun _ ha => Or.inl ha⟩

theorem rsPallocGrow_keeps (libc : Libc) (c : RsPoolClass) :
    (rsPallocGrow libc c).2.size = c.size ∧ (rsPallocGrow libc c).2.freeChunk = c.freeChunk := by
  rw [rsPallocGrow]
  split_ifs <;> exact ⟨rfl, rfl⟩

theorem addSlab_keeps {t : ℕ} (h : addSlab c t = some d) :
    d.size = c.size ∧ d.freeChunk = c.freeChunk := by
  rw [addSlab] at h
  split at h
  · cases h
  · split_ifs at h
    obtain rfl := Option.some.inj h
    exact ⟨rfl, rfl⟩

theorem rsPallocNew_freeIn {code : RsCode} (hc : p.classAt id = some c)
    (h : rsPallocNew libc p id c = some (code, q)) : p.FreeIn q fun _ _ => False := by
  obtain ⟨d, hq, hd⟩ := rsPallocNew_cases h
  obtain ⟨hsize, hfree⟩ : d.size = c.size ∧ d.freeChunk = c.freeChunk := by
    have hgrow := rsPallocGrow_keeps libc c
    rcases hd with rfl | ⟨t, hadd⟩
    · exact hgrow
    · obtain ⟨hsize, hfree⟩ := addSlab_keeps hadd
      exact ⟨hsize.trans hgrow.1, hfree.trans hgrow.2⟩
  have hset : p.FreeIn (p.setClass id d) fun _ _ => False :=
    freeIn_setClass hc hsize fun a ha => Or.inl (hfree ▸ ha)
  exact hset.trans (freeIn_of_slabClass hq)

theorem takeChunk_freeIn {t : Option ℕ} (hc : p.classAt id = some c) (h : takeChunk p id c = (t, q)) :
    p.FreeIn q fun j a => j = id ∧ t = some a := by
  rw [takeChunk] at h
  cases hfree : c.freeChunk with
  | cons a rest =>
    simp only [hfree] at h
    obtain ⟨rfl, rfl⟩ := Prod.mk.inj h
    refine freeIn_setClass hc rfl fun b hb => ?_
    rw [hfree] at hb
    rcases List.mem_cons.mp hb with rfl | hb
    · exact Or.inr ⟨rfl, rfl⟩
    · exact Or.inl hb
  | nil =>
    simp only [hfree] at h
    obtain ⟨-, rfl⟩ := Prod.mk.inj h
    exact freeIn_setClass hc rfl fun b hb => by rw [hfree] at hb; cases hb

/-- `rs_palloc` takes at most the chunk that it returns from the free lists. -/
theorem rsPalloc_freeIn {t : Option ℕ} {size : ℕ} (h : rsPalloc libc p size id = some (t, q)) :
    p.FreeIn q fun j a => j = id ∧ t = some a := by
  rcases rsPalloc_cases h with rfl | ⟨c, hc, ⟨code, hnew⟩ | ⟨p', d, hp', hd, htake⟩⟩
  · exact RsPool.FreeIn.refl q
  · exact (rsPallocNew_freeIn hc hnew).trans (RsPool.FreeIn.refl q)
  · have hfirst : p.FreeIn p' fun _ _ => False := by
      rcases hp' with rfl | ⟨code, hnew⟩
      · exact RsPool.FreeIn.refl p'
      · exact rsPallocNew_freeIn hc hnew
    exact hfirst.trans (takeChunk_freeIn hd htake)

theorem pushFree_keeps {a : ℕ} (h : pushFree c a = some d) :
    d.size = c.size ∧ d.freeChunk = a :: c.freeChunk := by
  rw [pushFree] at h
  split_ifs at h
  obtain rfl := Option.some.inj h
  exact ⟨rfl, rfl⟩

/-- `rs_pfree` records the chunk in its class when `realloc` does not fail. -/
theorem rsPfree_freeIn {a : ℕ} (hr : libc.realloc = true) (h : rsPfree libc p a id = some q) :
    (p.FreeIn q fun _ _ => False) ∧ ∀ c, p.classAt id = some c →
      ∃ d, q.classAt id = some d ∧ d.size = c.size ∧ a ∈ d.freeChunk := by
  by_cases ho : id = RsCode.slabOverflow.toInt
  · rw [rsPfree, if_pos ho] at h
    obtain rfl := Option.some.inj h
    refine ⟨RsPool.FreeIn.refl p, fun c hc => ?_⟩
    exact absurd ho (not_overflow_of_nonneg (classAt_eq_some.mp hc).1)
  · cases hc : p.classAt id with
    | none =>
      rw [rsPfree, if_neg ho, hc] at h
      cases h
    | some c =>
      have hpush (c' : RsPoolClass) {d : RsPoolClass} (hsize' : c'.size = c.size)
          (hfree' : c'.freeChunk = c.freeChunk)
          (hp : pushFree c' a = some d) : (p.FreeIn (p.setClass id d) fun _ _ => False) ∧
            ∀ e, some c = some e → ∃ f, (p.setClass id d).classAt id = some f ∧ f.size = e.size ∧
              a ∈ f.freeChunk := by
        obtain ⟨hsize, hfree⟩ := pushFree_keeps hp
        refine ⟨freeIn_setClass hc (hsize.trans hsize') fun b hb => Or.inl ?_, fun e he => ?_⟩
        · rw [hfree, hfree']
          exact List.mem_cons_of_mem a hb
        · obtain rfl := Option.some.inj he
          refine ⟨d, by rw [classAt_setClass hc, if_pos rfl], hsize.trans hsize', ?_⟩
          rw [hfree]
          exact List.mem_cons_self
      rw [rsPfree_class ho hc] at h
      split_ifs at h
      · obtain ⟨d, hd, rfl⟩ := Option.map_eq_some_iff.mp h
        exact hpush { c with totalFree := growCapacity c.totalFree } rfl rfl hd
      · obtain ⟨d, hd, rfl⟩ := Option.map_eq_some_iff.mp h
        exact hpush c rfl rfl hd

variable {s t : PoolUse} {x y : Chunk}

theorem PoolUse.Keeps.palloc {size answer : ℕ} (h : s.Keeps x)
    (hcall : poolCall s (.palloc size id answer) = some t) : t.Keeps x := by
  obtain ⟨⟨r, p⟩, hrun, rfl⟩ := Option.map_eq_some_iff.mp hcall
  rcases h with hlive | ⟨c, hc, hsize, hfree⟩
  · exact Or.inl (List.mem_append_right _ hlive)
  · obtain ⟨d, hd, hdsize, hkept⟩ := rsPalloc_freeIn hrun x.id c hc
    rcases hkept _ hfree with hin | ⟨hid, hr⟩
    · exact Or.inr ⟨d, hd, hdsize.trans hsize, hin⟩
    · -- the chunk itself is handed out again
      left
      have ho : id ≠ RsCode.slabOverflow.toInt := hid ▸ not_overflow_of_nonneg (classAt_eq_some.mp hc).1
      have hlen : chunkLen s.pool size id = x.extent.len := by
        rw [chunkLen, if_neg ho, ← hid, hc]
        exact hsize
      obtain ⟨xid, xaddr, xlen⟩ := x
      subst hid
      simp only at hr
      simp only [hr, hlen, Option.map_some, Option.toList_some]
      exact List.mem_cons_self

theorem PoolUse.Keeps.pfree (hinv : s.Inv) (h : s.Keeps x) (hx : ¬ x.IsOverflow)
    (hcall : poolCall s (.pfree y) = some t) : t.Keeps x := by
  obtain ⟨p, hrun, rfl⟩ := Option.map_eq_some_iff.mp hcall
  obtain ⟨hin, hnew⟩ := rsPfree_freeIn rfl hrun
  rcases h with hlive | ⟨c, hc, hsize, hfree⟩
  · by_cases hxy : x = y
    · subst hxy
      obtain ⟨c, hc, hlen, -⟩ := hinv.owned x hlive hx
      obtain ⟨d, hd, hdsize, hmem⟩ := hnew c hc
      exact Or.inr ⟨d, hd, hdsize.trans hlen.symm, hmem⟩
    · exact Or.inl ((List.mem_erase_of_ne hxy).mpr hlive)
  · obtain ⟨d, hd, hdsize, hkept⟩ := hin x.id c hc
    exact Or.inr ⟨d, hd, hdsize.trans hsize, (hkept _ hfree).resolve_right not_false⟩

theorem PoolUse.Inv.freeCount_live (h : s.Inv) (hx : x ∈ s.live) : s.pool.freeCount x = 0 := by
  rw [RsPool.freeCount]
  cases hc : s.pool.classAt x.id with
  | none => rfl
  | some c =>
    exact List.count_eq_zero_of_not_mem
      (h.safe.notFree x hx c (List.mem_of_getElem? (classAt_eq_some.mp hc).2))

theorem PoolUse.Inv.freeChunk_nodup (h : s.Inv) (hc : s.pool.classAt id = some c) :
    c.freeChunk.Nodup := by
  obtain ⟨-, hc⟩ := classAt_eq_some.mp hc
  have hpos := (h.cls _ c hc).size_pos
  have hcls : s.pool.slabClass.flatMap RsPoolClass.extents |>.Pairwise Extent.Apart :=
    (List.pairwise_append.mp h.apart).1
  have hext : c.extents.Pairwise Extent.Apart :=
    (List.pairwise_flatMap.mp hcls).1 c (List.mem_of_getElem? hc)
  have hfree := (List.pairwise_append.mp hext).1
  exact (List.pairwise_map.mp hfree).imp fun hab => hab.ne hpos hpos

/-- A chunk that is kept is in use, or once in its free list. -/
theorem PoolUse.Inv.freeCount_keeps (h : s.Inv) (hx : s.Keeps x) (hlive : x ∉ s.live) :
    s.pool.freeCount x = 1 := by
  obtain ⟨c, hc, -, hfree⟩ := hx.resolve_left hlive
  rw [RsPool.freeCount, hc]
  exact List.count_eq_one_of_mem (h.freeChunk_nodup hc) hfree

theorem PoolUse.Inv.live_nodup (h : s.Inv) : s.live.Nodup := by
  have hl := (List.pairwise_append.mp (List.pairwise_append.mp h.apart).2.1).2.1
  refine (List.pairwise_map.mp hl).imp_of_mem fun {a b} ha hb hab he => ?_
  subst he
  exact hab.ne (h.len_pos ha) (h.len_pos ha) rfl

/-- The loop of `rs_palloc_id` ends with the overflow id or that of a class. -/
theorem pallocIdLoop_spec (size : ℕ) {low high : ℤ} (hlow : 0 ≤ low) (hhigh : high ≤ p.curIdx) :
    ∃ id, pallocIdLoop p size low high = some id ∧
      (id = RsCode.slabOverflow.toInt ∨ (p.classAt id).isSome) := by
  have hclass {i : ℤ} (h0 : 0 ≤ i) (hi : i ≤ p.curIdx) : ∃ c, p.classAt i = some c := by
    rw [RsPool.curIdx] at hi
    exact ⟨_, classAt_eq_some.mpr ⟨h0, List.getElem?_eq_getElem (by omega)⟩⟩
  induction hn : (high + 1 - low).toNat using Nat.strong_induction_on generalizing low high with
  | _ n ih =>
    rw [pallocIdLoop]
    by_cases hle : low ≤ high
    · rw [if_pos hle]
      obtain ⟨c, hc⟩ := hclass (i := low + (high - low) / 2) (by omega) (by omega)
      simp only [hc, Option.bind_some]
      split_ifs
      · exact ih _ (by omega) hlow (by omega) rfl
      · exact ih _ (by omega) (by omega) hhigh rfl
      · obtain ⟨d, hd⟩ := hclass hlow (by omega)
        exact ⟨low, rfl, Or.inr (by rw [hd]; rfl)⟩
    · rw [if_neg hle]
      split_ifs with h
      · obtain ⟨d, hd⟩ := hclass hlow h.2
        exact ⟨low, rfl, Or.inr (by rw [hd]; rfl)⟩
      · exact ⟨_, rfl, Or.inl rfl⟩

theorem rsPallocId_spec (p : RsPool) {size : ℕ} (hsize : size ≠ 0) :
    ∃ id, rsPallocId p size = some id ∧
      (id = RsCode.slabOverflow.toInt ∨ (p.classAt id).isSome) := by
  rw [rsPallocId, if_neg hsize]
  split_ifs
  · exact ⟨_, rfl, Or.inl rfl⟩
  · exact pallocIdLoop_spec size le_rfl le_rfl

end MySQLSyncer.Core
