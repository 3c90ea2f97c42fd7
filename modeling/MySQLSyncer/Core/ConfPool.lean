import MySQLSyncer.Core.ConfTeardown
import MySQLSyncer.Core.Recycle

/-! # A configuration on the pool of its owner

The chunks that a configuration and the other users record are live chunks of the pool. Then all of
them are different, the variables of the owner lie elsewhere, and an exact teardown leaves the pool
what was live besides.
-/
namespace MySQLSyncer.Core
open Lib

def Chunk.handle (x : Chunk) : Handle := (x.id, x.extent.addr)

structure ConfUse.OnPool (s : ConfUse) (u : PoolUse) : Prop where
  pool : u.pool = s.pool
  live : (s.own ++ s.others).Subperm (u.live.map Chunk.handle)
  inv : u.Inv

/-- An address in a chunk of another user, or outside the blocks of the pool. -/
def ConfUse.Foreign (s : ConfUse) (u : PoolUse) (v : ℕ) : Prop :=
  (∃ y ∈ u.live, y.handle ∈ s.others ∧ v ∈ y.extent.cells) ∨ ∀ b ∈ u.blocks, v ∉ b.cells

variable {s : ConfUse} {u : PoolUse} {x : Chunk}

theorem PoolUse.Inv.addr_mem (h : u.Inv) (hx : x ∈ u.live) : x.extent.addr ∈ x.extent.cells := by
  have hpos := h.len_pos hx
  exact ⟨le_rfl, by omega⟩

theorem PoolUse.Inv.eq_of_mem_cells (h : u.Inv) {y : Chunk} (hx : x ∈ u.live) (hy : y ∈ u.live) {v : ℕ}
    (hvx : v ∈ x.extent.cells) (hvy : v ∈ y.extent.cells) : x = y := by
  by_contra hne
  have hsymm : Std.Symm fun x y : Chunk => Disjoint x.extent.cells y.extent.cells := ⟨fun _ _ hxy => hxy.symm⟩
  exact Set.disjoint_left.mp (h.safe.disjoint.forall hx hy hne) hvx hvy

theorem PoolUse.Inv.handles_nodup (h : u.Inv) : (u.live.map Chunk.handle).Nodup := by
  refine h.live_nodup.map_on fun x hx y hy hxy => ?_
  have haddr : x.extent.addr = y.extent.addr := congrArg Prod.snd hxy
  exact h.eq_of_mem_cells hx hy (h.addr_mem hx) (haddr ▸ h.addr_mem hy)

namespace ConfUse.OnPool

theorem nodup (h : s.OnPool u) : (s.own ++ s.others).Nodup := by
  obtain ⟨l, hperm, hsub⟩ := h.live
  exact hperm.nodup_iff.mp (h.inv.handles_nodup.sublist hsub)

theorem exists_chunk (h : s.OnPool u) {w : Handle} (hw : w ∈ s.own) : ∃ x ∈ u.live, x.handle = w :=
  List.mem_map.mp (h.live.subset (List.mem_append_left _ hw))

/-- Variables that are in the memory of somebody else are not where the configuration's chunks are. -/
theorem separate (h : s.OnPool u) (hvars : ∀ n ∈ s.nodes, s.Foreign u n.val.data) : s.Separate := by
  intro n hn w hw heq
  obtain ⟨x, hx, rfl⟩ := h.exists_chunk hw
  have haddr : n.val.data ∈ x.extent.cells := heq ▸ h.inv.addr_mem hx
  rcases hvars n hn with ⟨y, hy, hother, hmem⟩ | hout
  · obtain rfl := h.inv.eq_of_mem_cells hx hy haddr hmem
    exact (List.nodup_append.mp h.nodup).2.2 _ hw _ hother rfl
  · obtain ⟨b, hb, hwithin⟩ := h.inv.in_block (List.mem_append_right _
      (List.mem_append_right _ (List.mem_map_of_mem hx)))
    exact hout b hb ⟨hwithin.1.trans haddr.1, haddr.2.trans_le hwithin.2⟩

end ConfUse.OnPool

/-- Chunks that are given back in turn, each of them live, and what is live behind that. -/
theorem PoolUse.Inv.pfrees (h : u.Inv) {frees : List Handle} (hlive : FreesLive (u.live.map Chunk.handle) frees) :
    ∃ (xs : List Chunk) (v : PoolUse), xs.map Chunk.handle = frees ∧
        exec poolStep u (xs.map PoolCall.pfree) = some v ∧ v.Inv ∧
      (v.live.map Chunk.handle ++ frees).Perm (u.live.map Chunk.handle) := by
  induction frees generalizing u with
  | nil => exact ⟨[], u, rfl, rfl, h, by rw [List.append_nil]⟩
  | cons w frees ih =>
    obtain ⟨hw, hlater⟩ := hlive
    obtain ⟨x, hx, rfl⟩ := List.mem_map.mp hw
    obtain ⟨v, hv, hinv⟩ := h.call (a := .pfree x) hx
    have hvlive : v.live = u.live.erase x := by
      have hen : u.Enabled (.pfree x) := hx
      rw [poolStep, if_pos hen] at hv
      obtain ⟨p, -, rfl⟩ := Option.map_eq_some_iff.mp hv
      rfl
    have hperm : (u.live.map Chunk.handle).Perm (x.handle :: v.live.map Chunk.handle) := by
      rw [hvlive]
      exact (List.perm_cons_erase hx).map Chunk.handle
    have hrest : ((u.live.map Chunk.handle).erase x.handle).Perm (v.live.map Chunk.handle) := by
      have herase := hperm.erase x.handle
      rwa [List.erase_cons_head] at herase
    obtain ⟨xs, t, hxs, hrun, ht, hleft⟩ := ih hinv
      (freesLive_iff.mpr ((freesLive_iff.mp hlater).trans hrest.subperm))
    refine ⟨x :: xs, t, by rw [List.map_cons, hxs], ?_, ht, ?_⟩
    · rw [List.map_cons, exec_cons, hv]
      exact hrun
    · exact List.perm_middle.trans ((hleft.cons x.handle).trans hperm.symm)

/-- With nothing lost the calls of the teardown are steps of the pool, and behind them is live what
was live besides the chunks of the configuration. -/
theorem ConfUse.OnPool.teardown (h : s.OnPool u) (hs : s.Accounts) (hlost : s.lost = 0) :
    ∃ (xs : List Chunk) (v : PoolUse), rsDestroyConf s = some (xs.map Chunk.handle) ∧
      exec poolStep u (xs.map PoolCall.pfree) = some v ∧ v.Inv ∧
      (s.own ++ v.live.map Chunk.handle).Perm (u.live.map Chunk.handle) := by
  obtain ⟨calls, hcalls, hperm⟩ := hs.destroy_perm hlost
  have hown : s.own.Subperm (u.live.map Chunk.handle) :=
    (List.sublist_append_left s.own s.others).subperm.trans h.live
  obtain ⟨xs, v, rfl, hrun, hinv, hleft⟩ := h.inv.pfrees (freesLive_iff.mpr (hperm.subperm.trans hown))
  refine ⟨xs, v, hcalls, hrun, hinv, ?_⟩
  exact (hperm.symm.append_right _).trans (List.perm_append_comm.trans hleft)

/-- The keys that the parser finds, and whether it gets memory for a string. -/
def ConfUse.confTable (s : ConfUse) (libc : Libc) : ConfTable where
  get w := if h : 0 ∉ w then (rsShashGet s.table ⟨w, h⟩).2.map fun n => n.val.type else none
  palloc len := decide (HasRoom libc s.pool (len % 2 ^ 32))

/-- `rs_conf_apply` returns to the parser what it does with the table. -/
theorem rsConfApplyIn_code {libc : Libc} {key : ShashKey} {val : List UInt8} {code : RsCode} {t : ConfUse}
    (h : rsConfApplyIn libc s key val = some (code, t)) :
    rsConfApply (s.confTable libc) key.bytes val = code := by
  have hget : (s.confTable libc).get key.bytes = (rsShashGet s.table key).2.map fun n => n.val.type :=
    dif_pos key.noNul
  have hroom : (s.confTable libc).palloc (val.length + 1) = decide (HasRoom libc s.pool (strSize val)) := rfl
  rw [rsConfApply, hget]
  cases rsConfApplyIn_spec h with
  | refused hnone =>
    cases hnode : (rsShashGet s.table key).2 with
    | none => rfl
    | some n => simp [hnone n hnode]
  | @number n hn hstr hnull =>
    rw [hn, Option.map_some]
    cases htype : n.val.type with
    | str => exact absurd htype hstr
    | null => exact absurd htype hnull
    | int32 | uint32 | double => rfl
  | noString hn hstr hpalloc => simp [hn, hstr, hroom, hasRoom_iff hpalloc]
  | stored hn hstr hpalloc => simp [hn, hstr, hroom, hasRoom_iff hpalloc]

end MySQLSyncer.Core
