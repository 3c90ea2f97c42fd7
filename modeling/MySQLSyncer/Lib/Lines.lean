import Mathlib.Data.List.TakeWhile
import Mathlib.Tactic

/-! # Reading a text line by line

A call of `fgets` gets the bytes up to the first newline, the newline included, but one less than
the array holds. At a read error it gives nothing, and what it has read by then is lost.
-/
namespace MySQLSyncer.Lib

def newline : UInt8 := 10

def lineLength (w : List UInt8) : ℕ := (w.takeWhile (· ≠ newline)).length + 1

/-- `fgets` with an array of `size` bytes; `broken` says whether an error comes behind the bytes
that are left, or the end of the file. -/
def fgets (size : ℕ) (broken : Bool) (w : List UInt8) : Option (List UInt8 × List UInt8) :=
  let n := min (size - 1) (lineLength w)
  if w = [] ∨ (broken = true ∧ w.length < n) then none else some (w.take n, w.drop n)

theorem lineLength_append {line : List UInt8} (hline : newline ∉ line) (rest : List UInt8) :
    lineLength (line ++ newline :: rest) = line.length + 1 := by
  have hall : ∀ b ∈ line, decide (b ≠ newline) = true := by
    intro b hb
    simpa using fun h : b = newline => hline (h ▸ hb)
  rw [lineLength, List.takeWhile_append_of_pos hall, List.takeWhile_cons_of_neg (by simp), List.append_nil]

theorem fgets_short {line : List UInt8} {size : ℕ} (hline : newline ∉ line) (hshort : line.length + 1 < size)
    (broken : Bool) (rest : List UInt8) :
    fgets size broken (line ++ newline :: rest) = some (line ++ [newline], rest) := by
  have hn : min (size - 1) (line.length + 1) = (line ++ [newline]).length := by
    rw [List.length_append, List.length_singleton]
    omega
  have hsplit : line ++ newline :: rest = (line ++ [newline]) ++ rest := by simp
  simp only [fgets, lineLength_append hline, hn]
  rw [if_neg (by simp), hsplit, List.take_left, List.drop_left]

theorem fgets_long {line : List UInt8} {size : ℕ} (hline : newline ∉ line) (hlong : size ≤ line.length + 1)
    (broken : Bool) (rest : List UInt8) : fgets size broken (line ++ newline :: rest) =
      some (line.take (size - 1), line.drop (size - 1) ++ newline :: rest) := by
  have hn : min (size - 1) (line.length + 1) = size - 1 := by omega
  simp only [fgets, lineLength_append hline, hn]
  rw [if_neg, List.take_append_of_le_length (by omega), List.drop_append_of_le_length (by omega)]
  simp only [List.append_eq_nil_iff, reduceCtorEq, and_false, false_or, not_and, List.length_append, List.length_cons]
  omega

end MySQLSyncer.Lib
