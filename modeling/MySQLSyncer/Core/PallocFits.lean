import MySQLSyncer.Core.Recycle

/-! # The sizes of the classes

No call changes the sizes of the classes, so `rs_palloc_id` answers alike over the whole life of
a pool.
-/
namespace MySQLSyncer.Core
open Lib

/-- The chunk that a caller gets for a size is at least as long. -/
def RsPool.Fits (p : RsPool) (size : ℕ) : Prop :=
  ∀ id, rsPallocId p size = some id → size ≤ chunkLen p size id

def RsPool.room (p : RsPool) (size : ℕ) : ℕ := ((rsPallocId p size).map (chunkLen p size)).getD 0

structure RsPool.SameTable (p q : RsPool) : Prop where
  sizes : q.slabClass.map RsPoolClass.size = p.slabClass.map RsPoolClass.size
  chunkSize : q.chunkSize = p.chunkSize

variable {p q r : RsPool} {libc : Libc} {size : ℕ} {id : ℤ} {c d : RsPoolClass}

theorem RsPool.fits_iff_le_room : p.Fits size ↔ size ≤ p.room size := by
  by_cases hsize : size = 0
  · subst hsize
    exact iff_of_true (fun _ _ => Nat.zero_le _) (Nat.zero_le _)
  · obtain ⟨id, hid, -⟩ := rsPallocId_spec p hsize
    rw [RsPool.room, hid]
    refine ⟨fun h => h id hid, fun h id' hid' => ?_⟩
    obtain rfl := Option.some.inj (hid.symm.trans hid')
    exact h

theorem RsPool.SameTable.refl (p : RsPool) : p.SameTable p := ⟨rfl, rfl⟩

theorem RsPool.SameTable.trans (h : p.SameTable q) (h' : q.SameTable r) : p.SameTable r :=
  ⟨h'.sizes.trans h.sizes, h'.chunkSize.trans h.chunkSize⟩

theorem sameTable_setClass (hc : p.classAt id = some c) (hsize : d.size = c.size) :
    p.SameTable (p.setClass id d) := by
  obtain ⟨-, hc⟩ := classAt_eq_some.mp hc
  obtain ⟨hi, rfl⟩ := List.getElem?_eq_some_iff.mp hc
  refine ⟨?_, rfl⟩
  have hlt : id.toNat < (p.slabClass.map RsPoolClass.size).length := by simpa using hi
  have hmap : (p.slabClass.map RsPoolClass.size)[id.toNat] = d.size := by rw [List.getElem_map, hsize]
  rw [RsPool.setClass, List.map_set, ← hmap, List.set_getElem_self]

theorem rsPallocNew_sameTable {code : RsCode} (hc : p.classAt id = some c)
    (h : rsPallocNew libc p id c = some (code, q)) : p.SameTable q := by
  obtain ⟨d, hq, hd⟩ := rsPallocNew_cases h
  have hgrow := (rsPallocGrow_keeps libc c).1
  have hsize : d.size = c.size := by
    rcases hd with rfl | ⟨t, hadd⟩
    · exact hgrow
    · exact (addSlab_keeps hadd).1.trans hgrow
  have htable := (sameTable_setClass hc hsize).sizes
  refine ⟨by rw [hq]; exact htable, ?_⟩
  rw [rsPallocNew] at h
  rcases hg : rsPallocGrow libc c with ⟨g, c'⟩
  have hmem := (rsPmemalloc_keeps libc (p.setClass id c') (slabLen c')).2
  cases g with
  | ok =>
    rw [hg] at h
    dsimp only at h
    rcases hm : rsPmemalloc libc (p.setClass id c') (slabLen c') with ⟨t, p'⟩
    rw [hm] at h hmem
    cases t with
    | none =>
      obtain ⟨-, rfl⟩ := Prod.mk.inj (Option.some.inj h)
      exact hmem
    | some t =>
      obtain ⟨e, -, he⟩ := Option.map_eq_some_iff.mp h
      obtain ⟨-, rfl⟩ := Prod.mk.inj he
      exact hmem
  | _ =>
    rw [hg] at h
    obtain ⟨-, rfl⟩ := Prod.mk.inj (Option.some.inj h)
    rfl

theorem takeChunk_sameTable {t : Option ℕ} (hc : p.classAt id = some c) (h : takeChunk p id c = (t, q)) :
    p.SameTable q := by
  rw [takeChunk] at h
  cases hfree : c.freeChunk with
  | cons a rest =>
    rw [hfree] at h
    obtain ⟨-, rfl⟩ := Prod.mk.inj h
    exact sameTable_setClass hc rfl
  | nil =>
    rw [hfree] at h
    obtain ⟨-, rfl⟩ := Prod.mk.inj h
    exact sameTable_setClass hc rfl

theorem rsPalloc_sameTable {t : Option ℕ} (h : rsPalloc libc p size id = some (t, q)) :
    p.SameTable q := by
  rcases rsPalloc_cases h with rfl | ⟨c, hc, ⟨code, hnew⟩ | ⟨p', d, hp', hd, htake⟩⟩
  · exact RsPool.SameTable.refl q
  · exact rsPallocNew_sameTable hc hnew
  · refine RsPool.SameTable.trans ?_ (takeChunk_sameTable hd htake)
    rcases hp' with rfl | ⟨code, hnew⟩
    · exact RsPool.SameTable.refl p'
    · exact rsPallocNew_sameTable hc hnew

theorem rsPfree_sameTable {data : ℕ} (h : rsPfree libc p data id = some q) : p.SameTable q := by
  by_cases ho : id = RsCode.slabOverflow.toInt
  · rw [rsPfree, if_pos ho] at h
    obtain rfl := Option.some.inj h
    exact RsPool.SameTable.refl p
  · obtain ⟨c, hc, -⟩ := Option.bind_eq_some_iff.mp ((if_neg ho).symm.trans h)
    rw [rsPfree_class ho hc] at h
    have hpush {e : RsPoolClass} (hsize : e.size = c.size) (hq : (pushFree e data).map (p.setClass id) = some q) :
        p.SameTable q := by
      obtain ⟨f, hf, rfl⟩ := Option.map_eq_some_iff.mp hq
      exact sameTable_setClass hc ((pushFree_keeps hf).1.trans hsize)
    split_ifs at h
    · exact hpush (e := { c with totalFree := growCapacity c.totalFree }) rfl h
    · obtain rfl := Option.some.inj h
      exact RsPool.SameTable.refl p
    · exact hpush rfl h

theorem poolCall_sameTable {s t : PoolUse} {a : PoolCall} (h : poolCall s a = some t) :
    s.pool.SameTable t.pool := by
  cases a with
  | palloc size id answer =>
    obtain ⟨⟨r, p⟩, hrun, rfl⟩ := Option.map_eq_some_iff.mp h
    exact rsPalloc_sameTable hrun
  | pfree x =>
    obtain ⟨p, hrun, rfl⟩ := Option.map_eq_some_iff.mp h
    exact rsPfree_sameTable hrun

namespace RsPool.SameTable

theorem classAt_size (h : p.SameTable q) (id : ℤ) :
    (q.classAt id).map RsPoolClass.size = (p.classAt id).map RsPoolClass.size := by
  rw [RsPool.classAt, RsPool.classAt]
  split_ifs
  · rw [← List.getElem?_map, ← List.getElem?_map, h.sizes]
  · rfl

theorem curIdx (h : p.SameTable q) : q.curIdx = p.curIdx := by
  have hlen := congrArg List.length h.sizes
  rw [List.length_map, List.length_map] at hlen
  rw [RsPool.curIdx, RsPool.curIdx, hlen]

theorem chunkLen (h : p.SameTable q) (size : ℕ) (id : ℤ) :
    Core.chunkLen q size id = Core.chunkLen p size id := by
  rw [Core.chunkLen, Core.chunkLen, h.classAt_size]

theorem pallocIdLoop (h : p.SameTable q) (size : ℕ) (low high : ℤ) :
    Core.pallocIdLoop q size low high = Core.pallocIdLoop p size low high := by
  induction low, high using pallocIdLoop.induct p with
  | case1 low high hle mid ihlow ihhigh =>
    rw [Core.pallocIdLoop, Core.pallocIdLoop.eq_1 p, if_pos hle, if_pos hle]
    have hmid := h.classAt_size mid
    change (q.classAt mid).bind _ = (p.classAt mid).bind _
    cases hp : p.classAt mid with
    | none =>
      rw [hp] at hmid
      rw [Option.map_eq_none_iff.mp hmid]
      rfl
    | some c =>
      rw [hp] at hmid
      obtain ⟨d, hd, hsize⟩ := Option.map_eq_some_iff.mp hmid
      rw [hd, Option.bind_some, Option.bind_some, hsize]
      split_ifs
      · exact ihlow
      · exact ihhigh
      · rfl
  | case2 low high hgt hin =>
    rw [Core.pallocIdLoop, Core.pallocIdLoop.eq_1 p, if_neg hgt, if_neg hgt, h.curIdx]
  | case3 low high hgt hout =>
    rw [Core.pallocIdLoop, Core.pallocIdLoop.eq_1 p, if_neg hgt, if_neg hgt, h.curIdx]

theorem rsPallocId (h : p.SameTable q) (size : ℕ) : Core.rsPallocId q size = Core.rsPallocId p size := by
  rw [Core.rsPallocId, Core.rsPallocId, h.chunkSize, h.curIdx, h.pallocIdLoop]

theorem fits (h : p.SameTable q) (hfits : p.Fits size) : q.Fits size := by
  intro id hid
  rw [h.chunkLen]
  exact hfits id ((h.rsPallocId size).symm.trans hid)

end RsPool.SameTable

end MySQLSyncer.Core
