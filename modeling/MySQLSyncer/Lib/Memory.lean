import MySQLSyncer.Lib.Extent

/-! # Memory

A memory is a function of the address. A range is read as the list of its cells, and stores
go to one cell or to consecutive ones.
-/
namespace MySQLSyncer.Lib

abbrev Memory (α : Type*) := ℕ → α

namespace Memory
variable {α : Type*} {m m' : Memory α} {a b n k : ℕ} {x : α} {xs : List α} {e : Extent}

def read (m : Memory α) (a n : ℕ) : List α := (List.range n).map fun i => m (a + i)

def store (m : Memory α) (a : ℕ) (x : α) : Memory α := Function.update m a x

def write (m : Memory α) : ℕ → List α → Memory α
  | _, [] => m
  | a, x :: xs => write (m.store a x) (a + 1) xs

theorem read_succ (m : Memory α) (a n : ℕ) : m.read a (n + 1) = m.read a n ++ [m (a + n)] := by
  rw [read, List.range_succ, List.map_append]
  rfl

theorem read_cons (m : Memory α) (a n : ℕ) : m.read a (n + 1) = m a :: m.read (a + 1) n := by
  rw [read, List.range_succ_eq_map, List.map_cons, List.map_map, read]
  congr 1
  refine List.map_congr_left fun i _ => ?_
  change m (a + (i + 1)) = m (a + 1 + i)
  rw [Nat.add_assoc, Nat.add_comm 1]

theorem getElem?_read (h : k < n) : (m.read a n)[k]? = some (m (a + k)) := by
  rw [read, List.getElem?_map, List.getElem?_range h]
  rfl

theorem read_append (m : Memory α) (a n k : ℕ) : m.read a (n + k) = m.read a n ++ m.read (a + n) k := by
  induction k with
  | zero => exact (List.append_nil _).symm
  | succ k ih => rw [← Nat.add_assoc, read_succ, ih, read_succ, List.append_assoc, Nat.add_assoc]

theorem read_congr (h : ∀ i < n, m (a + i) = m' (a + i)) : m.read a n = m'.read a n :=
  List.map_congr_left fun i hi => h i (List.mem_range.mp hi)

@[simp] theorem store_same (m : Memory α) (a : ℕ) (x : α) : m.store a x a = x :=
  Function.update_self ..

theorem store_of_ne (h : b ≠ a) : m.store a x b = m b := Function.update_of_ne h ..

theorem read_store_apart {f : Extent} (h : e.Apart f) (ha : f.addr ≤ a ∧ a < f.addr + f.len)
    (hn : n ≤ e.len) : (m.store a x).read e.addr n = m.read e.addr n := by
  refine read_congr fun i hi => store_of_ne ?_
  rcases h with h | h <;> omega

theorem read_store_next (m : Memory α) (a k : ℕ) (x : α) :
    (m.store (a + k) x).read a (k + 1) = m.read a k ++ [x] := by
  rw [read_succ, store_same, read_congr fun i hi => store_of_ne (m := m) (x := x) (a := a + k) ?_]
  omega

theorem write_of_lt (h : b < a) : m.write a xs b = m b := by
  induction xs generalizing m a with
  | nil => rfl
  | cons x xs ih => rw [write, ih (by omega), store_of_ne (by omega)]

theorem write_of_ge (h : a + xs.length ≤ b) : m.write a xs b = m b := by
  induction xs generalizing m a with
  | nil => rfl
  | cons x xs ih =>
    rw [List.length_cons] at h
    rw [write, ih (by omega), store_of_ne (by omega)]

theorem read_write (m : Memory α) (a : ℕ) (xs : List α) : (m.write a xs).read a xs.length = xs := by
  induction xs generalizing m a with
  | nil => rfl
  | cons x xs ih =>
    rw [List.length_cons, read_cons, write, ih, write_of_lt (by omega), store_same]

theorem read_write_next (m : Memory α) (a k : ℕ) (xs : List α) :
    (m.write (a + k) xs).read a (k + xs.length) = m.read a k ++ xs := by
  have hold : (m.write (a + k) xs).read a k = m.read a k := read_congr fun i hi => write_of_lt (by omega)
  rw [read_append, hold, read_write]

/-- A write within a range is not seen in one apart from it. -/
theorem read_write_apart {f : Extent} (h : e.Apart f) (ha : f.addr ≤ a) (hxs : a + xs.length ≤ f.addr + f.len)
    (hn : n ≤ e.len) : (m.write a xs).read e.addr n = m.read e.addr n := by
  refine read_congr fun i hi => ?_
  rcases h with h | h
  · exact write_of_lt (by omega)
  · exact write_of_ge (by omega)

end Memory
end MySQLSyncer.Lib
