import MySQLSyncer.Core.Conf
import MySQLSyncer.Core.Hash
import MySQLSyncer.Core.PallocId
import MySQLSyncer.Lib.Ledger

/-! # The memory of a configuration

`rs_conf_register`, `rs_conf_apply` and `rs_destroy_conf` on the pool that the configuration shares
with other users. A chunk is its id and its address. The pool leaves the bytes of a chunk that is
given back as they are, so the loops of `rs_destroy_shash` still find the next node.
-/
namespace MySQLSyncer.Core
open Lib

abbrev Handle := ℤ × ℕ

/-- `rs_conf_data_t` in its chunk. `rs_conf_register` leaves `data_id` as it is. -/
structure ConfData where
  chunk : Handle
  data : ℕ
  dataId : Option ℤ
  type : ConfType
  found : Bool
  deriving DecidableEq

/-- `rs_shash_node_t` in its chunk; the key is with it in its chain. -/
structure ConfNode where
  chunk : Handle
  val : ConfData
  deriving DecidableEq

/-- A configuration in use. `vars` has the pointers that were stored in the variables of the owner;
`own` and `others` record the chunks that the configuration and the other users of the pool got. -/
structure ConfUse where
  pool : RsPool
  chunk : Handle
  table : RsShash ConfNode
  vars : ℕ → Option ℕ
  own : List Handle
  others : List Handle

/-- `sizeof(rs_conf_data_t)` -/
def confDataSize : ℕ := 32

/-- The length of a string with its terminator, as an `uint32_t` -/
def strSize (val : List UInt8) : ℕ := (val.length + 1) % 2 ^ 32

/-- `rs_create_conf`; without a table there is no configuration. -/
def rsCreateConf (libc : Libc) (p : RsPool) (num : UInt32) (others : List Handle) : Option ConfUse :=
  if num = 0 then none
  else do
    let (id, t, p) ← pallocSize libc p (shashSize num)
    t.map fun h => { pool := p, chunk := (id, h), table := emptyShash num, vars := fun _ => none
                     own := [(id, h)], others := others }

def rsShashAddIn (libc : Libc) (s : ConfUse) (key : ShashKey) (val : ConfData) : Option (RsCode × ConfUse) :=
  if s.table.hasKey key then some (.exists, s)
  else do
    let (id, t, p) ← pallocSize libc s.pool shashNodeSize
    match t with
    | none => some (.err, { s with pool := p })
    | some n => some (.ok, { s with pool := p, own := (id, n) :: s.own
                                    table := (rsShashAdd s.table key ⟨(id, n), val⟩ true).2 })

def rsConfRegister (entry node : Libc) (s : ConfUse) (key : ShashKey) (data : ℕ) (type : ConfType) :
    Option (RsCode × ConfUse) := do
  let (id, t, p) ← pallocSize entry s.pool confDataSize
  match t with
  | none => some (.err, { s with pool := p })
  | some d =>
    let s := { s with pool := p, own := (id, d) :: s.own }
    let (code, s) ← rsShashAddIn node s key ⟨(id, d), data, none, type, false⟩
    some (if code = .ok then .ok else .err, s)

def RsShash.setChain {β : Type*} (h : RsShash β) (i : ℕ) (chain : List (ShashKey × β)) : RsShash β :=
  { h with ht := Function.update h.ht i chain }

/-- A change of the value that `rs_shash_get` finds. -/
def RsShash.change {β : Type*} (h : RsShash β) (key : ShashKey) (f : β → β) : RsShash β :=
  let i := shashIndex h.num key
  h.setChain i (modifyFirst (fun n => strncmpEq n.1.bytes key.bytes key.bytes.length)
    (fun n => (n.1, f n.2)) (h.ht i))

def ConfUse.changeEntry (s : ConfUse) (key : ShashKey) (f : ConfData → ConfData) : RsShash ConfNode :=
  s.table.change key fun n => { n with val := f n.val }

def rsConfApplyIn (libc : Libc) (s : ConfUse) (key : ShashKey) (val : List UInt8) : Option (RsCode × ConfUse) :=
  match (rsShashGet s.table key).2 with
  | none => some (.err, s)
  | some n => match n.val.type with
    | .int32 | .uint32 | .double =>
      some (.ok, { s with table := s.changeEntry key fun d => { d with found := true } })
    | .str => do
      let (id, t, p) ← pallocSize libc s.pool (strSize val)
      match t with
      | none => some (.err, { s with pool := p, table := s.changeEntry key fun d => { d with dataId := some id } })
      | some t => some (.ok, { s with
          pool := p
          own := (id, t) :: s.own
          table := s.changeEntry key fun d => { d with dataId := some id, found := true }
          vars := Function.update s.vars n.val.data (some t) })
    | .null => some (.err, s)

def RsShash.values {β : Type*} (h : RsShash β) : List β :=
  (List.range h.num.toNat).flatMap fun i => (h.ht i).map Prod.snd

def ConfUse.nodes (s : ConfUse) : List ConfNode := s.table.values

/-- The calls of `rs_pfree` for one entry. A `data_id` that was never written cannot be read. -/
def ConfData.pfrees (d : ConfData) : Option (List Handle) :=
  if d.type = .str ∧ d.found then d.dataId.map fun id => [(id, d.data), d.chunk] else some [d.chunk]

/-- The calls of `rs_pfree` in `rs_destroy_shash`. -/
def rsDestroyShash (s : ConfUse) : List Handle := s.nodes.map ConfNode.chunk ++ [s.chunk]

/-- The calls of `rs_pfree` in `rs_destroy_conf`. -/
def rsDestroyConf (s : ConfUse) : Option (List Handle) :=
  (s.nodes.mapM fun (n : ConfNode) => n.val.pfrees).map fun calls => calls.flatten ++ rsDestroyShash s

inductive ConfOp where
  | register (key : ShashKey) (data : ℕ) (type : ConfType) (entry node : Libc)
  | apply (key : ShashKey) (val : List UInt8) (libc : Libc)
  | palloc (size : ℕ) (id : ℤ) (libc : Libc)
  | pfree (x : Handle) (libc : Libc)

/-- The other users give back only what they got. -/
def confStep (s : ConfUse) : ConfOp → Option ConfUse
  | .register key data type entry node => (rsConfRegister entry node s key data type).map Prod.snd
  | .apply key val libc => (rsConfApplyIn libc s key val).map Prod.snd
  | .palloc size id libc => (rsPalloc libc s.pool size id).map fun (t, p) =>
      { s with pool := p, others := (t.map fun t => (id, t)).toList ++ s.others }
  | .pfree x libc =>
    if x ∈ s.others then (rsPfree libc s.pool x.2 x.1).map fun p =>
      { s with pool := p, others := s.others.erase x }
    else none

/-- Every chunk that the teardown gives back is one that was got under its id and is still in use,
and those of the configuration are given back once each. -/
def ConfUse.FreesOwn (s : ConfUse) : Prop :=
  ∃ calls, rsDestroyConf s = some calls ∧ FreesExactly (s.own ++ s.others) s.own calls

/-- The variables of the owner are not where the chunks of the configuration are. -/
def ConfUse.Separate (s : ConfUse) : Prop := ∀ n ∈ s.nodes, ∀ x ∈ s.own, x.2 ≠ n.val.data

def HasRoom (libc : Libc) (p : RsPool) (size : ℕ) : Prop := ∃ r ∈ pallocSize libc p size, r.2.1.isSome

instance (libc : Libc) (p : RsPool) (size : ℕ) : Decidable (HasRoom libc p size) :=
  inferInstanceAs (Decidable (∃ r ∈ _, _))

/-- A call of `rs_conf_register` that gets its entry adds it to the table, and no string is set. -/
def ConfUse.Keeps (s : ConfUse) : ConfOp → Prop
  | .register key _ _ entry node => ∀ r ∈ pallocSize entry s.pool confDataSize, r.2.1.isSome →
      s.table.hasKey key = false ∧ HasRoom node r.2.2 shashNodeSize
  | .apply key val libc => ∀ n ∈ (rsShashGet s.table key).2, n.val.type = .str →
      ¬ HasRoom libc s.pool (strSize val)
  | .palloc .. | .pfree .. => True

instance (s : ConfUse) : DecidablePred s.Keeps
  | .register .. => inferInstanceAs (Decidable (∀ r ∈ _, _ → _))
  | .apply .. => inferInstanceAs (Decidable (∀ n ∈ _, _ → _))
  | .palloc .. | .pfree .. => inferInstanceAs (Decidable True)

instance (s : ConfUse) : Decidable s.Separate := inferInstanceAs (Decidable (∀ n ∈ _, ∀ x ∈ _, _ ≠ _))

section table
variable {β : Type*} {h : RsShash β} {key : ShashKey} {v : β}

theorem shashIndex_lt {num : UInt32} (hnum : 0 < num.toNat) (key : ShashKey) : shashIndex num key < num.toNat := by
  rw [shashIndex, UInt32.toNat_mod]
  exact Nat.mod_lt _ hnum

theorem rsShashAdd_num (h : RsShash β) (key : ShashKey) (v : β) (alloc : Bool) :
    (rsShashAdd h key v alloc).2.num = h.num := by
  unfold rsShashAdd
  dsimp only
  split_ifs <;> rfl

theorem values_perm (h : RsShash β) {i : ℕ} (hi : i < h.num.toNat) : h.values.Perm ((h.ht i).map Prod.snd ++
    ((List.range h.num.toNat).erase i).flatMap fun j => (h.ht j).map Prod.snd) :=
  flatMap_perm_erase (List.mem_range.mpr hi) _

theorem values_setChain (h : RsShash β) {i : ℕ} (hi : i < h.num.toNat) (chain : List (ShashKey × β)) :
    (h.setChain i chain).values.Perm (chain.map Prod.snd ++
      ((List.range h.num.toNat).erase i).flatMap fun j => (h.ht j).map Prod.snd) := by
  have hmap : (fun j => ((h.setChain i chain).ht j).map Prod.snd) =
      Function.update (fun j => (h.ht j).map Prod.snd) i (chain.map Prod.snd) := by
    funext j
    by_cases hj : j = i
    · subst hj
      simp [RsShash.setChain]
    · simp [RsShash.setChain, Function.update_of_ne hj]
  have hperm := flatMap_perm_erase (List.mem_range.mpr hi)
    (Function.update (fun j => (h.ht j).map Prod.snd) i (chain.map Prod.snd))
  rw [Function.update_self, flatMap_update_erase List.nodup_range] at hperm
  rw [RsShash.values, hmap]
  exact hperm

theorem rsShashAdd_new (hkey : h.hasKey key = false) (v : β) : (rsShashAdd h key v true).2 =
    h.setChain (shashIndex h.num key) (h.ht (shashIndex h.num key) ++ [(key, v)]) := by
  have hnot : ¬ h.hasKey key = true := Bool.eq_false_iff.mp hkey
  simp only [rsShashAdd, if_neg hnot, if_true, RsShash.setChain]

/-- A node that is added is the only one that is new. -/
theorem values_add (hnum : 0 < h.num.toNat) (hkey : h.hasKey key = false) (v : β) :
    (rsShashAdd h key v true).2.values.Perm (v :: h.values) := by
  have hi := shashIndex_lt hnum key
  rw [rsShashAdd_new hkey]
  refine (values_setChain h hi _).trans ?_
  rw [List.map_append, List.append_assoc]
  exact List.perm_middle.trans ((values_perm h hi).symm.cons v)

theorem values_change_map {γ : Type*} (key : ShashKey) (f : β → β) (g : β → γ) (hnum : 0 < h.num.toNat)
    (hg : ∀ v, g (f v) = g v) : ((h.change key f).values.map g).Perm (h.values.map g) := by
  have hi := shashIndex_lt hnum key
  refine ((values_setChain h hi _).map g).trans (List.Perm.trans ?_ ((values_perm h hi).map g).symm)
  rw [List.map_append, List.map_append, List.map_map, List.map_map, map_modifyFirst fun n => hg n.2]

theorem mem_values_of_get (hnum : 0 < h.num.toNat) (hget : (rsShashGet h key).2 = some v) : v ∈ h.values := by
  rw [rsShashGet] at hget
  cases hfind : (h.ht (shashIndex h.num key)).find? fun p => strncmpEq p.1.bytes key.bytes key.bytes.length with
  | none =>
    rw [hfind] at hget
    cases hget
  | some n =>
    rw [hfind] at hget
    cases hget
    exact List.mem_flatMap.mpr ⟨_, List.mem_range.mpr (shashIndex_lt hnum key),
      List.mem_map_of_mem (List.mem_of_find?_eq_some hfind)⟩

theorem mem_values_change (hnum : 0 < h.num.toNat) {f : β → β} (hv : v ∈ (h.change key f).values) :
    v ∈ h.values ∨ ∃ w, (rsShashGet h key).2 = some w ∧ v = f w := by
  have hi := shashIndex_lt hnum key
  rcases List.mem_append.mp ((values_setChain h hi _).mem_iff.mp hv) with hv | hv
  · obtain ⟨n, hn, rfl⟩ := List.mem_map.mp hv
    rcases mem_modifyFirst hn with hn | ⟨m, hm, rfl⟩
    · exact Or.inl ((values_perm h hi).mem_iff.mpr (List.mem_append_left _ (List.mem_map_of_mem hn)))
    · refine Or.inr ⟨m.2, ?_, rfl⟩
      rw [rsShashGet, hm]
  · exact Or.inl ((values_perm h hi).mem_iff.mpr (List.mem_append_right _ hv))

end table

section step
variable {entry node libc : Libc} {s t : ConfUse} {key : ShashKey} {data : ℕ} {type : ConfType} {val : List UInt8}
  {code : RsCode}

/-- The ways through `rs_conf_register`: no chunk for the entry, a key that is there, no chunk for the
node, or a new node. -/
inductive ConfRegistered (entry node : Libc) (s : ConfUse) (key : ShashKey) (data : ℕ) (type : ConfType) :
    RsCode → ConfUse → Prop
  | noEntry {id p} (hentry : pallocSize entry s.pool confDataSize = some (id, none, p)) :
    ConfRegistered entry node s key data type .err { s with pool := p }
  | keyFound {id d p} (hentry : pallocSize entry s.pool confDataSize = some (id, some d, p))
      (hkey : s.table.hasKey key = true) :
    ConfRegistered entry node s key data type .err { s with pool := p, own := (id, d) :: s.own }
  | noNode {id d p i q} (hentry : pallocSize entry s.pool confDataSize = some (id, some d, p))
      (hkey : s.table.hasKey key = false) (hnode : pallocSize node p shashNodeSize = some (i, none, q)) :
    ConfRegistered entry node s key data type .err { s with pool := q, own := (id, d) :: s.own }
  | added {id d p i n q} (hentry : pallocSize entry s.pool confDataSize = some (id, some d, p))
      (hkey : s.table.hasKey key = false) (hnode : pallocSize node p shashNodeSize = some (i, some n, q)) :
    ConfRegistered entry node s key data type .ok { s with
      pool := q
      own := (i, n) :: (id, d) :: s.own
      table := (rsShashAdd s.table key ⟨(i, n), ⟨(id, d), data, none, type, false⟩⟩ true).2 }

theorem rsConfRegister_spec (h : rsConfRegister entry node s key data type = some (code, t)) :
    ConfRegistered entry node s key data type code t := by
  obtain ⟨⟨id, r, p⟩, hentry, h⟩ := Option.bind_eq_some_iff.mp h
  cases r with
  | none =>
    cases h
    exact .noEntry hentry
  | some d =>
    obtain ⟨⟨c, u⟩, hadd, h⟩ := Option.bind_eq_some_iff.mp h
    cases h
    rw [rsShashAddIn] at hadd
    split_ifs at hadd with hkey
    · cases hadd
      exact .keyFound hentry hkey
    · obtain ⟨⟨i, r, q⟩, hnode, hadd⟩ := Option.bind_eq_some_iff.mp hadd
      cases r with
      | none =>
        cases hadd
        exact .noNode hentry (Bool.eq_false_iff.mpr hkey) hnode
      | some n =>
        cases hadd
        exact .added hentry (Bool.eq_false_iff.mpr hkey) hnode

/-- The ways through `rs_conf_apply`: no entry that it knows, a number, no chunk for the string, or the
string in a new chunk. -/
inductive ConfApplied (libc : Libc) (s : ConfUse) (key : ShashKey) (val : List UInt8) : RsCode → ConfUse → Prop
  | refused (hget : ∀ n ∈ (rsShashGet s.table key).2, n.val.type = .null) : ConfApplied libc s key val .err s
  | number {n} (hget : (rsShashGet s.table key).2 = some n) (hstr : n.val.type ≠ .str) (hnull : n.val.type ≠ .null) :
    ConfApplied libc s key val .ok { s with table := s.changeEntry key fun d => { d with found := true } }
  | noString {n id p} (hget : (rsShashGet s.table key).2 = some n) (hstr : n.val.type = .str)
      (hpalloc : pallocSize libc s.pool (strSize val) = some (id, none, p)) :
    ConfApplied libc s key val .err { s with
      pool := p
      table := s.changeEntry key fun d => { d with dataId := some id } }
  | stored {n id w p} (hget : (rsShashGet s.table key).2 = some n) (hstr : n.val.type = .str)
      (hpalloc : pallocSize libc s.pool (strSize val) = some (id, some w, p)) :
    ConfApplied libc s key val .ok { s with
      pool := p
      own := (id, w) :: s.own
      table := s.changeEntry key fun d => { d with dataId := some id, found := true }
      vars := Function.update s.vars n.val.data (some w) }

theorem rsConfApplyIn_spec (h : rsConfApplyIn libc s key val = some (code, t)) :
    ConfApplied libc s key val code t := by
  rw [rsConfApplyIn] at h
  cases hget : (rsShashGet s.table key).2 with
  | none =>
    rw [hget] at h
    cases h
    exact .refused (by simp [hget])
  | some n =>
    simp only [hget] at h
    cases htype : n.val.type with
    | null =>
      simp only [htype] at h
      cases h
      exact .refused (by simp [hget, htype])
    | int32 | uint32 | double =>
      simp only [htype] at h
      cases h
      exact .number hget (by simp [htype]) (by simp [htype])
    | str =>
      simp only [htype] at h
      obtain ⟨⟨id, r, p⟩, hpalloc, h⟩ := Option.bind_eq_some_iff.mp h
      cases r with
      | none =>
        cases h
        exact .noString hget htype hpalloc
      | some w =>
        cases h
        exact .stored hget htype hpalloc

end step

end MySQLSyncer.Core
