import MySQLSyncer.Core.Code
import MySQLSyncer.Lib.Bytes

/-! # The temporary buffer of a connection

The bytes between `pos` and `last` are a list, and `pos` is an offset from `start`.
The receiving function is cut at its reads, which may return any part of the stream.
-/
namespace MySQLSyncer.Core

structure RsBuf where
  size : ℕ
  pos : ℕ
  bytes : List UInt8
  deriving DecidableEq, Repr

def rsCreateTmpbuf (size : UInt32) : RsBuf := ⟨size.toNat, 0, []⟩

/-- How far a call of `rs_recv_tmpbuf` got: it returned, or it is in its loop with the bytes
already copied to the caller and the number `s` of bytes still owed. -/
inductive Recv where
  | ret (code : RsCode) (data : List UInt8) (b : RsBuf)
  | loop (copied : List UInt8) (s : ℕ) (b : RsBuf)
  deriving DecidableEq, Repr

def rsRecvTmpbuf (b : RsBuf) (size : ℕ) : Recv :=
  if b.size < size then .ret .err [] b
  else if size ≤ b.bytes.length then
    .ret .ok (b.bytes.take size) { b with pos := b.pos + size, bytes := b.bytes.drop size }
  else .loop b.bytes (size - b.bytes.length) { b with pos := 0, bytes := [] }

/-- One turn of the loop. An empty chunk is an end of stream or an error. A chunk that runs
past `end` is written outside the buffer, which is undefined. -/
def rsRecvTmpbufRead (copied : List UInt8) (s : ℕ) (b : RsBuf) (chunk : List UInt8) :
    Option Recv :=
  if chunk = [] then some (.ret .err copied b)
  else if b.size < b.pos + b.bytes.length + chunk.length then none
  else if (b.bytes ++ chunk).length < s then
    some (.loop copied s { b with bytes := b.bytes ++ chunk })
  else some (.ret .ok (copied ++ (b.bytes ++ chunk).take s)
    { b with pos := b.pos + s, bytes := (b.bytes ++ chunk).drop s })

variable {b : RsBuf} {size s : ℕ} {copied chunk : List UInt8} {r : Recv}

theorem rsRecvTmpbuf_cases (b : RsBuf) (size : ℕ) :
    (b.size < size ∧ rsRecvTmpbuf b size = .ret .err [] b) ∨
    (∃ data c, b.bytes = data ++ c.bytes ∧ data.length = size ∧ c.size = b.size ∧
      rsRecvTmpbuf b size = .ret .ok data c) ∨
    (∃ c, c.bytes = [] ∧ c.size = b.size ∧ b.bytes.length < size ∧
      rsRecvTmpbuf b size = .loop b.bytes (size - b.bytes.length) c) := by
  unfold rsRecvTmpbuf
  split_ifs with hsize hlen
  · exact Or.inl ⟨hsize, rfl⟩
  · exact Or.inr (Or.inl ⟨b.bytes.take size,
      { b with pos := b.pos + size, bytes := b.bytes.drop size },
      (List.take_append_drop size b.bytes).symm, List.length_take_of_le hlen, rfl, rfl⟩)
  · exact Or.inr (Or.inr ⟨{ b with pos := 0, bytes := [] }, rfl, rfl, Nat.lt_of_not_le hlen, rfl⟩)

theorem rsRecvTmpbufRead_cases (h : rsRecvTmpbufRead copied s b chunk = some r) :
    (chunk = [] ∧ r = .ret .err copied b) ∨
    (∃ c, c.bytes = b.bytes ++ chunk ∧ c.size = b.size ∧ c.bytes.length < s ∧
      r = .loop copied s c) ∨
    (∃ data c, b.bytes ++ chunk = data ++ c.bytes ∧ data.length = s ∧ c.size = b.size ∧
      r = .ret .ok (copied ++ data) c) := by
  unfold rsRecvTmpbufRead at h
  split_ifs at h with hchunk hover hlen
  · exact Or.inl ⟨hchunk, (Option.some.inj h).symm⟩
  · exact Or.inr (Or.inl ⟨{ b with bytes := b.bytes ++ chunk }, rfl, rfl, hlen,
      (Option.some.inj h).symm⟩)
  · exact Or.inr (Or.inr ⟨(b.bytes ++ chunk).take s,
      { b with pos := b.pos + s, bytes := (b.bytes ++ chunk).drop s },
      (List.take_append_drop s _).symm, List.length_take_of_le (Nat.le_of_not_lt hlen), rfl,
      (Option.some.inj h).symm⟩)

end MySQLSyncer.Core
