import MySQLSyncer.Core.PallocFits
import MySQLSyncer.Core.PallocSizes
import MySQLSyncer.Lib.CString

/-! # The string hash

A chain is the list of its nodes from `first` on; a new node goes behind the last one. No key is
a null pointer, since `rs_shash_add` has read it. The table and its nodes lie in chunks of a pool,
and a store behind the end of a chunk makes the call undefined.
-/
namespace MySQLSyncer.Core
open Lib
universe u

structure ShashKey where
  bytes : List UInt8
  noNul : 0 ∉ bytes
  deriving DecidableEq

/-- `hash * seed + (*str++)`, where `*str` is a signed character. -/
def bkdStep (hash : UInt32) (c : UInt8) : UInt32 :=
  hash * 131 + (if c < 128 then c.toUInt32 else c.toUInt32 + 0xFFFFFF00)

def rsBkdHash (str : ShashKey) : UInt32 := str.bytes.foldl bkdStep 0 &&& 0x7FFFFFFF

/-- `rs_strncmp(s, t, n) == 0` -/
def strncmpEq (s t : List UInt8) (n : ℕ) : Bool := (s ++ [0]).take n == (t ++ [0]).take n

structure RsShash (β : Type u) where
  num : UInt32
  ht : ℕ → List (ShashKey × β)

variable {β : Type u}

/-- `sizeof(rs_shash_node_t)` -/
def shashNodeSize : ℕ := 40

def shashLen (num : UInt32) : ℕ := 24 + 8 * num.toNat

/-- `sizeof(rs_shash_t) + sizeof(rs_shash_head_t) * num`, as an `uint32_t` -/
def shashSize (num : UInt32) : ℕ := shashLen num % 2 ^ 32

def emptyShash (num : UInt32) : RsShash β := ⟨num, fun _ => []⟩

/-- `rs_palloc_id`, and `rs_palloc` with what it answers. -/
def pallocSize (libc : Libc) (p : RsPool) (size : ℕ) : Option (ℤ × Option ℕ × RsPool) := do
  let id ← rsPallocId p size
  let (t, p) ← rsPalloc libc p size id
  some (id, t, p)

/-- A chunk for `size` bytes whose first `len` bytes are then stored to. The `Bool` says whether
the pool had one. -/
def pallocStore (libc : Libc) (p : RsPool) (size len : ℕ) : Option (RsPool × Bool) := do
  let (id, t, q) ← pallocSize libc p size
  if t.isSome → len ≤ chunkLen p size id then some (q, t.isSome) else none

/-- The loop stores to all heads. -/
def rsCreateShash (libc : Libc) (p : RsPool) (num : UInt32) : Option (RsPool × Option (RsShash β)) :=
  if num = 0 then some (p, none)
  else (pallocStore libc p (shashSize num) (shashLen num)).map fun (q, room) =>
    (q, if room then some (emptyShash num) else none)

def shashIndex (num : UInt32) (key : ShashKey) : ℕ := (rsBkdHash key % num).toNat

/-- The comparison in the loop of `rs_shash_add`. -/
def RsShash.hasKey (h : RsShash β) (key : ShashKey) : Bool :=
  (h.ht (shashIndex h.num key)).any fun n => strncmpEq key.bytes n.1.bytes key.bytes.length

def rsShashAdd (h : RsShash β) (key : ShashKey) (val : β) (alloc : Bool) : RsCode × RsShash β :=
  let i := shashIndex h.num key
  if h.hasKey key then (.exists, h)
  else if alloc then (.ok, { h with ht := Function.update h.ht i (h.ht i ++ [(key, val)]) })
  else (.err, h)

def rsShashGet (h : RsShash β) (key : ShashKey) : RsCode × Option β :=
  match (h.ht (shashIndex h.num key)).find? fun p => strncmpEq p.1.bytes key.bytes key.bytes.length with
  | some p => (.ok, some p.2)
  | none => (.notExists, none)

structure ShashRun (β : Type u) where
  pool : RsPool
  table : RsShash β
  added : List (ShashKey × β)

def ShashRun.keys (s : ShashRun β) : List ShashKey := s.added.map Prod.fst

/-- A call of `rs_shash_add`, with what the C library answers to the pool. -/
structure ShashAdd (β : Type u) where
  libc : Libc
  key : ShashKey
  val : β

/-- `rs_shash_add` on the pool of the table, which it asks for a node when no key matches. -/
def ShashRun.add (s : ShashRun β) (a : ShashAdd β) : Option (RsCode × ShashRun β) :=
  let record (p : RsPool) (r : RsCode × RsShash β) := (r.1, ⟨p, r.2, s.added ++ [(a.key, a.val)]⟩)
  if s.table.hasKey a.key then some (record s.pool (rsShashAdd s.table a.key a.val false))
  else (pallocStore a.libc s.pool shashNodeSize shashNodeSize).map fun (q, room) =>
    record q (rsShashAdd s.table a.key a.val room)

def addStep (s : ShashRun β) (a : ShashAdd β) : Option (ShashRun β) := (s.add a).map Prod.snd

/-- The empty table that `rs_create_shash` returns. -/
def shashStart (β : Type u) (libc : Libc) (p : RsPool) (num : UInt32) : Option (ShashRun β) :=
  (rsCreateShash libc p num).bind fun (q, h) => h.map fun h => ⟨q, h, []⟩

def AddRight (s : ShashRun β) (a : ShashAdd β) : Prop :=
  ∃ r ∈ s.add a, r.1 = if a.key ∈ s.keys then .exists else .ok

def GetRight (s : ShashRun β) (k : ShashKey) : Prop :=
  rsShashGet s.table k = match s.added.find? fun a => a.1 = k with
    | some a => (.ok, some a.2)
    | none => (.notExists, none)

/-- `rs_palloc` answers an id that `rs_palloc_id` has for the size with a chunk. -/
def RsPool.Supplies (libc : Libc) (p : RsPool) (size : ℕ) : Prop :=
  ∀ id ∈ rsPallocId p size, p.ValidId id → ((rsPalloc libc p size id).bind Prod.fst).isSome

/-- The chunk for this size has room for `len` bytes. -/
def RsPool.Holds (p : RsPool) (size len : ℕ) : Prop := ∀ id ∈ rsPallocId p size, len ≤ chunkLen p size id

/-- The key is not there, but its chain has a longer one that begins with it. -/
def Shadowed (num : UInt32) (keys : List ShashKey) (k : ShashKey) : Prop :=
  k ∉ keys ∧ ∃ l ∈ keys, shashIndex num l = shashIndex num k ∧ k.bytes <+: l.bytes

instance (num : UInt32) (keys : List ShashKey) (k : ShashKey) : Decidable (Shadowed num keys k) :=
  inferInstanceAs (Decidable (_ ∧ _))

/-- A chain has the first call of each of its keys, and no key behind a longer one. -/
structure ShashRun.Chains (num : UInt32) (s : ShashRun β) : Prop where
  num_eq : s.table.num = num
  index : ∀ i, ∀ a ∈ s.table.ht i, shashIndex num a.1 = i
  lookup : ∀ q, (s.table.ht (shashIndex num q)).find? (fun a => a.1 = q) =
    s.added.find? fun a => a.1 = q
  order : ∀ i, (s.table.ht i).Pairwise fun x y => ¬ y.1.bytes <+: x.1.bytes

instance (p : RsPool) (id : ℤ) : Decidable (p.ValidId id) := inferInstanceAs (Decidable (_ ∨ _))

instance (libc : Libc) (p : RsPool) (size : ℕ) : Decidable (p.Supplies libc size) :=
  inferInstanceAs (Decidable (∀ id ∈ _, _ → _))

instance (p : RsPool) (size len : ℕ) : Decidable (p.Holds size len) :=
  inferInstanceAs (Decidable (∀ id ∈ _, _ ≤ _))

instance (p : RsPool) (size : ℕ) : Decidable (p.Fits size) := inferInstanceAs (Decidable (p.Holds size size))

instance (s : ShashRun β) (k : ShashKey) [DecidableEq β] : Decidable (GetRight s k) :=
  inferInstanceAs (Decidable (_ = _))

instance (s : ShashRun β) (a : ShashAdd β) : Decidable (AddRight s a) :=
  inferInstanceAs (Decidable (∃ r ∈ _, _ = _))

variable {num : UInt32} {s t : ShashRun β} {a : ShashAdd β} {k : ShashKey} {p q : RsPool} {libc : Libc}
  {size len : ℕ}

theorem RsPool.Holds.exists_id (h : p.Holds size len) (hlen : 0 < len) :
    ∃ id, rsPallocId p size = some id ∧ p.ValidId id ∧ len ≤ chunkLen p size id := by
  rcases Nat.eq_zero_or_pos size with rfl | hpos
  · have hzero : len ≤ 0 := h RsCode.err.toInt rfl
    omega
  · obtain ⟨id, hid, hvalid⟩ := rsPallocId_valid (p := p) hpos.ne'
    exact ⟨id, hid, hvalid, h id hid⟩

theorem pallocStore_of_holds (hsup : p.Supplies libc size) (hlen : 0 < len) (h : p.Holds size len) :
    ∃ q, pallocStore libc p size len = some (q, true) ∧ p.SameTable q := by
  obtain ⟨id, hid, hvalid, hle⟩ := h.exists_id hlen
  obtain ⟨t, ht⟩ := Option.isSome_iff_exists.mp (hsup id hid hvalid)
  obtain ⟨⟨r, q⟩, hpalloc, rfl⟩ := Option.bind_eq_some_iff.mp ht
  refine ⟨q, ?_, rsPalloc_sameTable hpalloc⟩
  simp [pallocStore, pallocSize, hid, hpalloc, hle]

theorem pallocStore_of_not_holds (hsup : p.Supplies libc size) (h : ¬ p.Holds size len) :
    pallocStore libc p size len = none := by
  rw [RsPool.Holds] at h
  push Not at h
  obtain ⟨id, hid, hlt⟩ := h
  have hid : rsPallocId p size = some id := hid
  cases hpalloc : rsPalloc libc p size id with
  | none => simp [pallocStore, pallocSize, hid, hpalloc]
  | some r =>
    have hvalid : p.ValidId id := by
      rcases Nat.eq_zero_or_pos size with rfl | hpos
      · obtain rfl : RsCode.err.toInt = id := Option.some.inj hid
        cases hpalloc
      · obtain ⟨id', hid', hvalid⟩ := rsPallocId_valid (p := p) hpos.ne'
        obtain rfl := Option.some.inj (hid'.symm.trans hid)
        exact hvalid
    have hsome := hsup id hid hvalid
    rw [hpalloc] at hsome
    simp only [Option.bind_some] at hsome
    simp [pallocStore, pallocSize, hid, hpalloc, hsome, hlt]

theorem RsPool.SameTable.holds (h : p.SameTable q) : q.Holds size len ↔ p.Holds size len := by
  simp only [RsPool.Holds, h.rsPallocId, h.chunkLen]

/-- Where the sizes of the classes have 32 bits, a table whose size wraps has no room in its chunk. -/
theorem holds_shash_iff (hsize : ∀ c ∈ p.slabClass, c.size < 2 ^ 32) :
    p.Holds (shashSize num) (shashLen num) ↔ shashLen num < 2 ^ 32 ∧ p.Fits (shashLen num) := by
  have hwrap : shashSize num < 2 ^ 32 := Nat.mod_lt _ (by norm_num)
  constructor
  · intro h
    have hlt : shashLen num < 2 ^ 32 := by
      obtain ⟨id, -, -, hle⟩ := h.exists_id (by rw [shashLen]; omega)
      refine hle.trans_lt ?_
      rw [chunkLen]
      split_ifs
      · omega
      · cases hc : p.classAt id with
        | none => norm_num
        | some c =>
          obtain ⟨-, hc⟩ := classAt_eq_some.mp hc
          exact hsize c (List.mem_of_getElem? hc)
    refine ⟨hlt, ?_⟩
    rw [shashSize, Nat.mod_eq_of_lt hlt] at h
    exact h
  · rintro ⟨hlt, h⟩
    rw [shashSize, Nat.mod_eq_of_lt hlt]
    exact h

theorem strncmpEq_iff (k : ShashKey) (w : List UInt8) :
    strncmpEq k.bytes w k.bytes.length = true ↔ k.bytes <+: w := by
  have hleft : (k.bytes ++ [0]).take k.bytes.length = k.bytes := List.take_left
  rw [strncmpEq, beq_iff_eq, hleft, eq_comm, take_terminated k.noNul, List.prefix_iff_eq_take, eq_comm]

theorem strncmpEq_comm (v w : List UInt8) (n : ℕ) : strncmpEq v w n = strncmpEq w v n := by
  rw [strncmpEq, strncmpEq, Bool.beq_comm]

/-- The first node whose key begins with a key of the chain has that key. -/
theorem find?_begins {chain : List (ShashKey × β)}
    (horder : chain.Pairwise fun x y => ¬ y.1.bytes <+: x.1.bytes) (hk : k ∈ chain.map Prod.fst) :
    chain.find? (fun p => strncmpEq p.1.bytes k.bytes k.bytes.length) = chain.find? fun a => a.1 = k := by
  induction chain with
  | nil => cases hk
  | cons x chain ih =>
    obtain ⟨hfirst, hrest⟩ := List.pairwise_cons.mp horder
    have hpre := strncmpEq_iff k x.1.bytes
    rw [List.find?_cons, List.find?_cons, strncmpEq_comm]
    by_cases hx : x.1 = k
    · subst hx
      have hself := hpre.mpr List.prefix_rfl
      simp only [hself, decide_true]
    · have hmem : k ∈ chain.map Prod.fst :=
        (List.mem_cons.mp hk).resolve_left (Ne.symm hx)
      obtain ⟨y, hy, rfl⟩ := List.mem_map.mp hmem
      have hnot : strncmpEq y.1.bytes x.1.bytes y.1.bytes.length = false :=
        Bool.eq_false_iff.mpr (mt hpre.mp (hfirst y hy))
      simp only [hx, hnot, decide_false]
      exact ih hrest hmem

namespace ShashRun.Chains

theorem mem_keys (h : s.Chains num) (q : ShashKey) :
    q ∈ s.keys ↔ q ∈ (s.table.ht (shashIndex num q)).map Prod.fst := by
  have hiff (l : List (ShashKey × β)) : q ∈ l.map Prod.fst ↔ (l.find? fun a => a.1 = q).isSome := by
    simp [List.find?_isSome]
  rw [ShashRun.keys, hiff, hiff, h.lookup]

theorem exists_longer (h : s.Chains num) (k : ShashKey) :
    (∃ x ∈ s.table.ht (shashIndex num k), k.bytes <+: x.1.bytes) ↔
      ∃ l ∈ s.keys, shashIndex num l = shashIndex num k ∧ k.bytes <+: l.bytes := by
  constructor
  · rintro ⟨x, hx, hpre⟩
    have hindex := h.index _ x hx
    refine ⟨x.1, (h.mem_keys x.1).mpr ?_, hindex, hpre⟩
    rw [hindex]
    exact List.mem_map_of_mem hx
  · rintro ⟨l, hl, hindex, hpre⟩
    obtain ⟨x, hx, rfl⟩ := List.mem_map.mp ((h.mem_keys l).mp hl)
    exact ⟨x, hindex ▸ hx, hpre⟩

theorem hasKey_iff (h : s.Chains num) (k : ShashKey) :
    s.table.hasKey k = true ↔ k ∈ s.keys ∨ Shadowed num s.keys k := by
  rw [RsShash.hasKey, h.num_eq, List.any_eq_true]
  simp only [strncmpEq_iff]
  rw [h.exists_longer, Shadowed]
  constructor
  · intro hex
    exact (em (k ∈ s.keys)).imp_right fun hk => ⟨hk, hex⟩
  · rintro (hk | ⟨-, hex⟩)
    · exact ⟨k, hk, rfl, List.prefix_rfl⟩
    · exact hex

theorem addRight_iff (h : s.Chains num) (hsup : s.pool.Supplies a.libc shashNodeSize)
    (hfits : s.keys ≠ [] → s.pool.Fits shashNodeSize) :
    AddRight s a ↔ s.pool.Fits shashNodeSize ∧ ¬ Shadowed num s.keys a.key := by
  have hany := h.hasKey_iff a.key
  rw [AddRight, ShashRun.add]
  by_cases hkey : s.table.hasKey a.key = true
  · simp only [if_pos hkey, rsShashAdd, Option.mem_some_iff, exists_eq_left']
    by_cases hk : a.key ∈ s.keys
    · rw [if_pos hk]
      exact iff_of_true rfl ⟨hfits (List.ne_nil_of_mem hk), fun hs => hs.1 hk⟩
    · rw [if_neg hk]
      exact iff_of_false nofun fun hs => hs.2 ((hany.mp hkey).resolve_left hk)
  · obtain ⟨hk, hs⟩ := not_or.mp (mt hany.mpr hkey)
    rw [if_neg hkey, if_neg hk]
    by_cases hroom : s.pool.Fits shashNodeSize
    · obtain ⟨q, hq, -⟩ := pallocStore_of_holds hsup (by decide) hroom
      rw [hq]
      simp [rsShashAdd, hkey, hroom, hs]
    · rw [pallocStore_of_not_holds hsup hroom]
      simp [hroom]

theorem getRight_iff (h : s.Chains num) (k : ShashKey) : GetRight s k ↔ ¬ Shadowed num s.keys k := by
  rw [GetRight, rsShashGet, h.num_eq]
  by_cases hk : k ∈ s.keys
  · rw [find?_begins (h.order _) ((h.mem_keys k).mp hk), h.lookup]
    exact iff_of_true rfl fun hs => hs.1 hk
  · have hnone : s.added.find? (fun a => a.1 = k) = none := by
      rw [List.find?_eq_none]
      intro a ha heq
      exact hk (List.mem_map.mpr ⟨a, ha, of_decide_eq_true heq⟩)
    have hsome := h.exists_longer k
    rw [hnone]
    cases hfind : (s.table.ht (shashIndex num k)).find?
        fun p => strncmpEq p.1.bytes k.bytes k.bytes.length with
    | none =>
      refine iff_of_true rfl fun hs => ?_
      obtain ⟨x, hx, hpre⟩ := hsome.mpr hs.2
      refine List.find?_eq_none.mp hfind x hx ?_
      rw [strncmpEq_comm]
      exact (strncmpEq_iff k _).mpr hpre
    | some x =>
      refine iff_of_false nofun (not_not_intro ⟨hk, hsome.mp ⟨x, List.mem_of_find?_eq_some hfind, ?_⟩⟩)
      have hx := List.find?_some hfind
      rw [strncmpEq_comm] at hx
      exact (strncmpEq_iff k _).mp hx

theorem step (h : s.Chains num) (hs : ¬ Shadowed num s.keys a.key) (v : RsPool) :
    ShashRun.Chains num ⟨v, (rsShashAdd s.table a.key a.val true).2, s.added ++ [(a.key, a.val)]⟩ := by
  have hany := h.hasKey_iff a.key
  have hlater (q : ShashKey) : (s.added ++ [(a.key, a.val)]).find? (fun b => b.1 = q) =
      (s.added.find? fun b => b.1 = q).or (if a.key = q then some (a.key, a.val) else none) := by
    rw [List.find?_append, List.find?_singleton]
    simp
  rw [rsShashAdd]
  by_cases hk : a.key ∈ s.keys
  · rw [if_pos (hany.mpr (Or.inl hk))]
    refine ⟨h.num_eq, h.index, fun q => ?_, h.order⟩
    rw [hlater]
    change List.find? _ (s.table.ht _) = _
    rw [h.lookup]
    by_cases hq : a.key = q
    · obtain ⟨b, hb, heq⟩ := List.mem_map.mp hk
      have hsome : (s.added.find? fun b => b.1 = q).isSome := by
        rw [List.find?_isSome]
        exact ⟨b, hb, decide_eq_true (heq.trans hq)⟩
      rw [Option.or_of_isSome hsome]
    · rw [if_neg hq, Option.or_none]
  · rw [if_neg (mt hany.mp (not_or.mpr ⟨hk, hs⟩)), if_pos rfl]
    have hfree : ∀ x ∈ s.table.ht (shashIndex num a.key), ¬ a.key.bytes <+: x.1.bytes := by
      intro x hx hpre
      exact hs ⟨hk, (h.exists_longer a.key).mp ⟨x, hx, hpre⟩⟩
    have hnum := h.num_eq
    refine ⟨hnum, fun i b hb => ?_, fun q => ?_, fun i => ?_⟩
    · change b ∈ Function.update s.table.ht _ _ i at hb
      rw [hnum] at hb
      by_cases hi : i = shashIndex num a.key
      · subst hi
        rw [Function.update_self] at hb
        rcases List.mem_append.mp hb with hb | hb
        · exact h.index _ b hb
        · rw [List.mem_singleton.mp hb]
      · rw [Function.update_of_ne hi] at hb
        exact h.index i b hb
    · change List.find? _ (Function.update s.table.ht _ _ _) = _
      rw [hlater, ← h.lookup, hnum]
      by_cases hi : shashIndex num q = shashIndex num a.key
      · rw [hi, Function.update_self, List.find?_append, List.find?_singleton]
        simp
      · have hq : a.key ≠ q := fun heq => hi (by rw [heq])
        rw [Function.update_of_ne hi, if_neg hq, Option.or_none]
    · change (Function.update s.table.ht _ _ i).Pairwise _
      rw [hnum]
      by_cases hi : i = shashIndex num a.key
      · subst hi
        rw [Function.update_self, List.pairwise_append]
        refine ⟨h.order _, List.pairwise_singleton _ _, fun x hx y hy => ?_⟩
        rw [List.mem_singleton.mp hy]
        exact hfree x hx
      · rw [Function.update_of_ne hi]
        exact h.order i

end ShashRun.Chains

structure ShashRun.Good (p : RsPool) (num : UInt32) (s : ShashRun β) : Prop where
  chains : s.Chains num
  table : p.SameTable s.pool
  fits : s.keys ≠ [] → s.pool.Fits shashNodeSize

theorem addStep_eq (hsup : s.pool.Supplies a.libc shashNodeSize) (hfits : s.pool.Fits shashNodeSize) :
    ∃ q, s.pool.SameTable q ∧
      addStep s a = some ⟨q, (rsShashAdd s.table a.key a.val true).2, s.added ++ [(a.key, a.val)]⟩ := by
  rw [addStep, ShashRun.add]
  by_cases hkey : s.table.hasKey a.key = true
  · exact ⟨s.pool, RsPool.SameTable.refl _, by simp [hkey, rsShashAdd]⟩
  · obtain ⟨q, hq, hsame⟩ := pallocStore_of_holds hsup (by decide) hfits
    exact ⟨q, hsame, by simp [hkey, hq]⟩

theorem ShashRun.Good.step (h : s.Good p num) (hsup : s.pool.Supplies a.libc shashNodeSize)
    (hok : s.pool.Fits shashNodeSize ∧ ¬ Shadowed num s.keys a.key) (ht : addStep s a = some t) : t.Good p num := by
  obtain ⟨q, hsame, hq⟩ := addStep_eq hsup hok.1
  obtain rfl := Option.some.inj (hq.symm.trans ht)
  exact ⟨h.chains.step hok.2 q, h.table.trans hsame, fun _ => hsame.fits hok.1⟩

theorem addStep_keys (ht : addStep s a = some t) : t.keys = s.keys ++ [a.key] := by
  obtain ⟨r, hr, rfl⟩ := Option.map_eq_some_iff.mp ht
  rw [ShashRun.add] at hr
  split_ifs at hr
  · obtain rfl := Option.some.inj hr
    simp [ShashRun.keys]
  · obtain ⟨x, -, rfl⟩ := Option.map_eq_some_iff.mp hr
    simp [ShashRun.keys]

theorem exec_keys {adds : List (ShashAdd β)} (hrun : exec addStep s adds = some t) :
    t.keys = s.keys ++ adds.map ShashAdd.key := by
  induction adds generalizing s with
  | nil =>
    obtain rfl : s = t := Option.some.inj hrun
    rw [List.map_nil, List.append_nil]
  | cons a adds ih =>
    obtain ⟨m, hm, hrest⟩ := Option.bind_eq_some_iff.mp hrun
    rw [ih hrest, addStep_keys hm, List.map_cons, List.append_assoc, List.singleton_append]

/-- The table is created exactly if the chunk that the pool has for its 32-bit size holds it. -/
theorem shashStart_of_holds (hnum : num ≠ 0) (hsup : p.Supplies libc (shashSize num))
    (h : p.Holds (shashSize num) (shashLen num)) : ∃ s, shashStart β libc p num = some s ∧
        s.Good p num ∧ s.added = [] := by
  obtain ⟨q, hq, hsame⟩ := pallocStore_of_holds hsup (by rw [shashLen]; omega) h
  refine ⟨⟨q, emptyShash num, []⟩, by simp [shashStart, rsCreateShash, hnum, hq], ?_, rfl⟩
  exact ⟨⟨rfl, fun _ => nofun, fun _ => rfl, fun _ => List.Pairwise.nil⟩, hsame, fun hne => absurd rfl hne⟩

theorem shashStart_of_not_holds (hnum : num ≠ 0) (hsup : p.Supplies libc (shashSize num))
    (h : ¬ p.Holds (shashSize num) (shashLen num)) : shashStart β libc p num = none := by
  simp [shashStart, rsCreateShash, hnum, pallocStore_of_not_holds hsup h]

/-- The table is created, and every call and the look-up are right, exactly if the chunks of the
pool hold the table and the nodes and no key is added or looked up behind a longer one of its chain. -/
theorem shash_isMap_iff (hnum : num ≠ 0) (hcreate : p.Supplies libc (shashSize num)) {adds : List (ShashAdd β)}
    (hadds : ∀ s ∈ shashStart β libc p num,
      Along addStep (fun s a => s.pool.Supplies a.libc shashNodeSize) s adds) (k : ShashKey) :
    (∃ s t, shashStart β libc p num = some s ∧ Along addStep AddRight s adds ∧ exec addStep s adds = some t ∧
      GetRight t k) ↔
    p.Holds (shashSize num) (shashLen num) ∧
      (∀ s ∈ shashStart β libc p num,
        Along addStep (fun s a => s.pool.Fits shashNodeSize ∧ ¬ Shadowed num s.keys a.key) s adds) ∧
      ¬ Shadowed num (adds.map ShashAdd.key) k := by
  by_cases hholds : p.Holds (shashSize num) (shashLen num)
  swap
  · rw [shashStart_of_not_holds hnum hcreate hholds]
    simp [hholds]
  obtain ⟨s, hs, hgood, hadded⟩ := shashStart_of_holds (β := β) hnum hcreate hholds
  have hsup := hadds s hs
  have hkeep (s : ShashRun β) (a : ShashAdd β) (t : ShashRun β) (hI : s.Good p num)
      (hok : s.pool.Supplies a.libc shashNodeSize ∧ s.pool.Fits shashNodeSize ∧ ¬ Shadowed num s.keys a.key)
      (ht : addStep s a = some t) : t.Good p num := hI.step hok.1 hok.2 ht
  have halong : Along addStep AddRight s adds ↔
      Along addStep (fun s a => s.pool.Fits shashNodeSize ∧ ¬ Shadowed num s.keys a.key) s adds := by
    have hiff : Along addStep (fun s a => s.pool.Supplies a.libc shashNodeSize ∧ AddRight s a) s adds ↔ _ :=
      along_iff_of_inv_along hkeep
        (fun s a hI => and_congr_right fun hsup => hI.chains.addRight_iff hsup hI.fits) hgood
    rw [along_and, along_and] at hiff
    simpa [hsup] using hiff
  -- the look-up in the table that the calls leave
  have hget {t : ShashRun β} (hrun : exec addStep s adds = some t) (hok : Along addStep AddRight s adds) :
      GetRight t k ↔ ¬ Shadowed num (adds.map ShashAdd.key) k := by
    have ht : t.Good p num := exec_invariant_along _ hkeep hgood (along_and.mpr ⟨hsup, halong.mp hok⟩) hrun
    have hkeys := exec_keys hrun
    rw [ShashRun.keys, ShashRun.keys, hadded, List.map_nil, List.nil_append] at hkeys
    rw [ht.chains.getRight_iff, ← hkeys]
    rfl
  rw [hs]
  constructor
  · rintro ⟨s', t, hs', hok, hrun, hright⟩
    obtain rfl := Option.some.inj hs'
    refine ⟨hholds, fun s' hs' => ?_, (hget hrun hok).mp hright⟩
    obtain rfl := Option.some.inj hs'
    exact halong.mp hok
  · rintro ⟨-, hcond, hk⟩
    have hok := halong.mpr (hcond s rfl)
    have hdefined (s : ShashRun β) (a : ShashAdd β) (h : AddRight s a) : ∃ t, addStep s a = some t := by
      obtain ⟨r, hr, -⟩ := h
      exact ⟨r.2, Option.map_eq_some_iff.mpr ⟨r, hr, rfl⟩⟩
    obtain ⟨t, hrun⟩ := exec_of_along hdefined hok
    exact ⟨s, t, rfl, hok, hrun, (hget hrun hok).mpr hk⟩

def regionPool : RsPool := newPool .prealloc 8192 4096 256 [(256, 16)]

def regionLibc : Libc := ⟨fun _ => none, true⟩

def sampleAdd (key : ShashKey) (val : ℕ) : ShashAdd ℕ := ⟨regionLibc, key, val⟩

def testKeys : List (ShashAdd ℕ) :=
  [sampleAdd ⟨[116, 101, 115, 116, 49], by decide⟩ 10, sampleAdd ⟨[116, 101, 115, 116, 50], by decide⟩ 11,
    sampleAdd ⟨[116, 101, 115, 116, 50], by decide⟩ 11, sampleAdd ⟨[116, 101, 115, 116, 51], by decide⟩ 12]

theorem shash_isMap_testKeys : ∃ s t, shashStart ℕ regionLibc regionPool 3 = some s ∧
    Along addStep AddRight s testKeys ∧ exec addStep s testKeys = some t ∧
    GetRight t ⟨[116, 101, 115, 116, 50], by decide⟩ :=
  (shash_isMap_iff (by decide) (by decide +kernel) (by decide +kernel) _).mpr (by decide +kernel)

/-- The keys `ab` and `a` share a chain of three. -/
theorem shash_shadowed : ¬ ∀ (libc : Libc) (p : RsPool) (num : UInt32) (adds : List (ShashAdd ℕ)) (k : ShashKey),
    num ≠ 0 → p.Supplies libc (shashSize num) →
    (∀ s ∈ shashStart ℕ libc p num,
      Along addStep (fun s a => s.pool.Supplies a.libc shashNodeSize) s adds) →
    ∃ s t, shashStart ℕ libc p num = some s ∧ Along addStep AddRight s adds ∧ exec addStep s adds = some t ∧
      GetRight t k := by
  intro hall
  obtain ⟨s, t, hs, -, hrun, hget⟩ := hall regionLibc regionPool 3
    [sampleAdd ⟨[97, 98], by decide⟩ 10] ⟨[97], by decide⟩ (by decide) (by decide +kernel) (by decide +kernel)
  have hwrong : ((shashStart ℕ regionLibc regionPool 3).bind fun s =>
      (exec addStep s [sampleAdd ⟨[97, 98], by decide⟩ 10]).map fun t => decide (GetRight t ⟨[97], by decide⟩)) =
      some false := by decide +kernel
  rw [hs, Option.bind_some, hrun, Option.map_some] at hwrong
  exact of_decide_eq_false (Option.some.inj hwrong) hget

end MySQLSyncer.Core
