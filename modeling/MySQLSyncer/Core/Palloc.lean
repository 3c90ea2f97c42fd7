import MySQLSyncer.Core.Code
import MySQLSyncer.Lib.Extent
import MySQLSyncer.Lib.Transition

/-! # The pool allocator

Pointers are addresses and a null pointer is `none`. The answers of `malloc` and
`realloc` are arguments. A store past the end of an array, or through a null array,
makes the call undefined.
-/
namespace MySQLSyncer.Core
open Lib

inductive RsPoolFlag where
  | pagealloc
  | prealloc
  deriving DecidableEq, Repr

/-- `rs_pool_class_t`. The list `freeChunk` holds the used part of the C array, the last
recorded chunk first; `slab` holds the whole array, with `none` in the cells never written. -/
structure RsPoolClass where
  size : ℕ
  num : ℕ
  freeChunk : List ℕ
  chunk : Option ℕ
  free : ℕ
  usedSlab : ℕ
  totalSlab : ℕ
  totalFree : ℕ
  slab : Option (List (Option ℕ))
  deriving DecidableEq, Repr

structure RsPool where
  slabClass : List RsPoolClass
  start : ℕ
  cur : ℕ
  maxSize : ℕ
  usedSize : ℕ
  freeSize : ℕ
  chunkSize : ℕ
  flag : RsPoolFlag
  deriving DecidableEq, Repr

structure Libc where
  malloc : ℕ → Option ℕ
  realloc : Bool

/-- `rs_pool_class_t_init`, then the two fields that `rs_create_pool` sets. -/
def rsPoolClassTInit (size num : UInt32) : RsPoolClass :=
  { size := size.toNat, num := num.toNat, freeChunk := [], chunk := none, free := 0,
    usedSlab := 0, totalSlab := 0, totalFree := 0, slab := none }

/-- The pool that `rs_create_pool` returns for a class table of sizes and numbers. -/
def newPool (flag : RsPoolFlag) (start : ℕ) (maxSize chunkSize : UInt32)
    (table : List (UInt32 × UInt32)) : RsPool :=
  { slabClass := table.map fun x => rsPoolClassTInit x.1 x.2, start := start, cur := start,
    maxSize := maxSize.toNat, usedSize := 0, freeSize := maxSize.toNat,
    chunkSize := chunkSize.toNat, flag := flag }

/-- The class that an `int` id selects; outside the table the access is undefined. -/
def RsPool.classAt (p : RsPool) (id : ℤ) : Option RsPoolClass :=
  if 0 ≤ id then p.slabClass[id.toNat]? else none

def RsPool.setClass (p : RsPool) (id : ℤ) (c : RsPoolClass) : RsPool :=
  { p with slabClass := p.slabClass.set id.toNat c }

/-- The doubling of `total_slab` and `total_free`, in 32 bits. -/
def growCapacity (n : ℕ) : ℕ := if n = 0 then 16 else n * 2 % 2 ^ 32

def resizeSlab (slab : Option (List (Option ℕ))) (n : ℕ) : List (Option ℕ) :=
  (slab.getD []).take n ++ List.replicate (n - (slab.getD []).length) none

/-- When `realloc` fails the old array is lost. -/
def rsPallocGrow (libc : Libc) (c : RsPoolClass) : RsCode × RsPoolClass :=
  if c.usedSlab = c.totalSlab then
    if libc.realloc then
      (.ok, { c with slab := some (resizeSlab c.slab (growCapacity c.totalSlab)),
                     totalSlab := growCapacity c.totalSlab })
    else (.err, { c with slab := none })
  else (.ok, c)

/-- The accounting at the end of `rs_pmemalloc`. -/
def RsPool.take (p : RsPool) (size : ℕ) : RsPool :=
  { p with freeSize := p.freeSize - size, usedSize := (p.usedSize + size) % 2 ^ 32 }

def rsPmemalloc (libc : Libc) (p : RsPool) (size : ℕ) : Option ℕ × RsPool :=
  if p.freeSize < size then (none, p)
  else match p.flag with
    | .pagealloc => match libc.malloc size with
      | none => (none, p)
      | some t => (some t, p.take size)
    | .prealloc => (some p.cur, { p.take size with cur := p.cur + size })

/-- The three stores for a new slab at the end of `rs_palloc_new`. -/
def addSlab (c : RsPoolClass) (t : ℕ) : Option RsPoolClass :=
  match c.slab with
  | none => none
  | some cells =>
    if c.usedSlab < cells.length then
      some { c with chunk := some t, free := c.num, usedSlab := (c.usedSlab + 1) % 2 ^ 32,
                    slab := some (cells.set c.usedSlab (some t)) }
    else none

def slabLen (c : RsPoolClass) : ℕ := c.size * c.num % 2 ^ 32

def rsPallocNew (libc : Libc) (p : RsPool) (id : ℤ) (c : RsPoolClass) : Option (RsCode × RsPool) :=
  match rsPallocGrow libc c with
  | (.ok, c) => match rsPmemalloc libc (p.setClass id c) (slabLen c) with
    | (none, p) => some (.err, p)
    | (some t, p) => (addSlab c t).map fun c => (.ok, p.setClass id c)
  | (_, c) => some (.err, p.setClass id c)

/-- The last two branches of `rs_palloc`: the free list first, then the current slab. -/
def takeChunk (p : RsPool) (id : ℤ) (c : RsPoolClass) : Option ℕ × RsPool :=
  match c.freeChunk with
  | t :: rest => (some t, p.setClass id { c with freeChunk := rest })
  | [] =>
    let free := (c.free + (2 ^ 32 - 1)) % 2 ^ 32
    (c.chunk, p.setClass id
      { c with free := free, chunk := if 0 < free then c.chunk.map (· + c.size) else none })

def rsPalloc (libc : Libc) (p : RsPool) (size : ℕ) (id : ℤ) : Option (Option ℕ × RsPool) :=
  if id = RsCode.slabOverflow.toInt then some (libc.malloc size, p)
  else (p.classAt id).bind fun c =>
    if c.chunk = none ∧ c.freeChunk = [] then
      (rsPallocNew libc p id c).bind fun
        | (.ok, p) => (p.classAt id).map fun c => takeChunk p id c
        | (_, p) => some (none, p)
    else some (takeChunk p id c)

/-- The store `free_chunk[used_free++] = data`. -/
def pushFree (c : RsPoolClass) (data : ℕ) : Option RsPoolClass :=
  if c.freeChunk.length < c.totalFree then some { c with freeChunk := data :: c.freeChunk }
  else none

def rsPfree (libc : Libc) (p : RsPool) (data : ℕ) (id : ℤ) : Option RsPool :=
  if id = RsCode.slabOverflow.toInt then some p
  else (p.classAt id).bind fun c =>
    if c.freeChunk.length = c.totalFree then
      if libc.realloc then
        (pushFree { c with totalFree := growCapacity c.totalFree } data).map (p.setClass id)
      else some p
    else (pushFree c data).map (p.setClass id)

structure Chunk where
  id : ℤ
  extent : Extent
  deriving DecidableEq, Repr

structure PoolUse where
  pool : RsPool
  live : List Chunk
  deriving DecidableEq, Repr

def PoolUse.init (flag : RsPoolFlag) (start : ℕ) (maxSize chunkSize : UInt32)
    (table : List (UInt32 × UInt32)) : PoolUse :=
  ⟨newPool flag start maxSize chunkSize table, []⟩

def RsPoolClass.slabs (c : RsPoolClass) : List Extent :=
  ((c.slab.getD []).take c.usedSlab).reduceOption.map fun t => ⟨t, c.size * c.num⟩

def Chunk.IsOverflow (x : Chunk) : Prop := x.id = RsCode.slabOverflow.toInt

instance : DecidablePred Chunk.IsOverflow := fun x => inferInstanceAs (Decidable (x.id = _))

/-- Everything that was obtained from `malloc` and not given back. -/
def PoolUse.blocks (s : PoolUse) : List Extent :=
  (s.live.filter (·.IsOverflow)).map Chunk.extent ++
    match s.pool.flag with
    | .pagealloc => s.pool.slabClass.flatMap RsPoolClass.slabs
    | .prealloc => [⟨s.pool.start, s.pool.maxSize⟩]

/-- `malloc(0)` returns a pointer of its own, as if one byte had been asked for. -/
def mallocLen (p : RsPool) (size : ℕ) (id : ℤ) : ℕ :=
  max 1 (if id = RsCode.slabOverflow.toInt then size else ((p.classAt id).map slabLen).getD 0)

/-- The range a caller may use: `size` bytes of `malloc`, or one chunk of the class. -/
def chunkLen (p : RsPool) (size : ℕ) (id : ℤ) : ℕ :=
  if id = RsCode.slabOverflow.toInt then max 1 size else ((p.classAt id).map (·.size)).getD 0

inductive PoolCall where
  | palloc (size : ℕ) (id : ℤ) (answer : ℕ)
  | pfree (x : Chunk)

/-- Allocate under the overflow id or that of a class; free a live chunk under its own id. -/
def PoolUse.Enabled (s : PoolUse) : PoolCall → Prop
  | .palloc size id answer =>
    (id = RsCode.slabOverflow.toInt ∨ (s.pool.classAt id).isSome) ∧
      ∀ b ∈ s.blocks, (Extent.mk answer (mallocLen s.pool size id)).Apart b
  | .pfree x => x ∈ s.live

instance (s : PoolUse) : DecidablePred s.Enabled
  | .palloc _ _ _ => inferInstanceAs (Decidable (_ ∧ _))
  | .pfree _ => inferInstanceAs (Decidable (_ ∈ _))

def poolCall (s : PoolUse) : PoolCall → Option PoolUse
  | .palloc size id answer =>
    (rsPalloc ⟨fun _ => some answer, true⟩ s.pool size id).map fun (t, p) =>
      ⟨p, (t.map fun t => ⟨id, t, chunkLen s.pool size id⟩).toList ++ s.live⟩
  | .pfree x => (rsPfree ⟨fun _ => none, true⟩ s.pool x.extent.addr x.id).map fun p =>
      ⟨p, s.live.erase x⟩

def poolStep (s : PoolUse) (a : PoolCall) : Option PoolUse :=
  if s.Enabled a then poolCall s a else none

structure PoolUse.Safe (s : PoolUse) : Prop where
  disjoint : s.live.Pairwise fun x y => Disjoint x.extent.cells y.extent.cells
  owned : ∀ x ∈ s.live, ¬ x.IsOverflow → ∃ c, s.pool.classAt x.id = some c ∧
    x.extent.len = c.size ∧ ∃ b ∈ c.slabs, x.extent.Within b
  notFree : ∀ x ∈ s.live, ∀ c ∈ s.pool.slabClass, x.extent.addr ∉ c.freeChunk
  balance : s.pool.usedSize + s.pool.freeSize = s.pool.maxSize
  bounded : s.pool.flag = .prealloc → s.pool.cur ≤ s.pool.start + s.pool.maxSize

end MySQLSyncer.Core
