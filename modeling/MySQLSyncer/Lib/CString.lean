import Mathlib.Data.Nat.Digits.Defs
import Mathlib.Data.Nat.Digits.Lemmas
import Mathlib.Tactic

/-! # Zero-terminated strings and raw memory

A search that runs off the end of its memory is undefined. The cells of a fresh block are
`none` until they are written.
-/
namespace MySQLSyncer.Lib

def strlen : List UInt8 → Option ℕ
  | [] => none
  | b :: w => if b = 0 then some 0 else (strlen w).map (· + 1)

def strchr (c : UInt8) : List UInt8 → Option (Option ℕ)
  | [] => none
  | b :: w => if b = c then some (some 0) else if b = 0 then some none
    else (strchr c w).map fun r => r.map (· + 1)

def cstr (w : List UInt8) : Option (List UInt8) := (strlen w).map w.take

def strrchr (c : UInt8) (w : List UInt8) : Option (Option ℕ) :=
  (cstr w).map fun s => if c ∈ s then some (s.length - 1 - s.reverse.idxOf c) else none

theorem strlen_append {s : List UInt8} (hs : 0 ∉ s) (w : List UInt8) :
    strlen (s ++ 0 :: w) = some s.length := by
  induction s with
  | nil => rfl
  | cons b s ih =>
    obtain ⟨hb, hs⟩ := not_or.mp (mt List.mem_cons.mpr hs)
    rw [List.cons_append, strlen, if_neg (Ne.symm hb), ih hs]
    rfl

theorem cstr_append {s : List UInt8} (hs : 0 ∉ s) (w : List UInt8) :
    cstr (s ++ 0 :: w) = some s := by
  rw [cstr, strlen_append hs, Option.map_some, List.take_left]

theorem strlen_append_of_mem {s : List UInt8} (hs : 0 ∈ s) (w : List UInt8) :
    strlen (s ++ w) = strlen s ∧ ∃ n, strlen s = some n ∧ n ≤ s.length := by
  induction s with
  | nil => exact absurd hs List.not_mem_nil
  | cons b s ih =>
    by_cases hb : b = 0
    · exact ⟨by rw [List.cons_append, strlen, if_pos hb, strlen, if_pos hb], 0,
        by rw [strlen, if_pos hb], Nat.zero_le _⟩
    · obtain ⟨heq, n, hn, hle⟩ := ih ((List.mem_cons.mp hs).resolve_left (Ne.symm hb))
      refine ⟨by rw [List.cons_append, strlen, if_neg hb, heq, strlen, if_neg hb], n + 1, ?_,
        Nat.succ_le_succ hle⟩
      rw [strlen, if_neg hb, hn]
      rfl

theorem cstr_append_of_mem {s : List UInt8} (hs : 0 ∈ s) (w : List UInt8) : cstr (s ++ w) = cstr s := by
  obtain ⟨heq, n, hn, hle⟩ := strlen_append_of_mem hs w
  rw [cstr, heq, cstr, hn, Option.map_some, Option.map_some, List.take_append_of_le_length hle]

theorem strchr_append {c : UInt8} {s : List UInt8} (hs : 0 ∉ s) (hc : c ∉ s) (w : List UInt8) :
    strchr c (s ++ c :: w) = some (some s.length) := by
  induction s with
  | nil => exact if_pos rfl
  | cons b s ih =>
    obtain ⟨hb, hs⟩ := not_or.mp (mt List.mem_cons.mpr hs)
    obtain ⟨hbc, hc⟩ := not_or.mp (mt List.mem_cons.mpr hc)
    rw [List.cons_append, strchr, if_neg (Ne.symm hbc), if_neg (Ne.symm hb), ih hs hc]
    rfl

theorem strrchr_append {c : UInt8} {s : List UInt8} (hs : 0 ∉ s) (hc : c ≠ 0) (w : List UInt8) :
    strrchr c (s ++ c :: 0 :: w) = some (some s.length) := by
  have hnul : 0 ∉ s ++ [c] := by simp [hs, hc.symm]
  have hcstr : cstr (s ++ c :: 0 :: w) = some (s ++ [c]) := by
    rw [show s ++ c :: 0 :: w = (s ++ [c]) ++ 0 :: w by simp]
    exact cstr_append hnul w
  rw [strrchr, hcstr]
  simp

theorem cstr_eq_some {w s : List UInt8} : cstr w = some s ↔ 0 ∉ s ∧ ∃ u, w = s ++ 0 :: u := by
  constructor
  · intro h
    by_cases hw : 0 ∈ w
    · obtain ⟨a, u, rfl, ha⟩ := List.eq_append_cons_of_mem hw
      rw [cstr_append ha, Option.some.injEq] at h
      exact h ▸ ⟨ha, u, rfl⟩
    · have hnone (w : List UInt8) (hw : 0 ∉ w) : strlen w = none := by
        induction w with
        | nil => rfl
        | cons b w ih =>
          obtain ⟨hb, hw⟩ := not_or.mp (mt List.mem_cons.mpr hw)
          rw [strlen, if_neg (Ne.symm hb), ih hw]
          rfl
      rw [cstr, hnone w hw] at h
      cases h
  · rintro ⟨hs, u, rfl⟩
    exact cstr_append hs u

theorem strchr_terminated {c : UInt8} {s : List UInt8} (hs : 0 ∉ s) (hc : c ∉ s) (hne : c ≠ 0) (w : List UInt8) :
    strchr c (s ++ 0 :: w) = some none := by
  induction s with
  | nil => rw [List.nil_append, strchr, if_neg hne.symm, if_pos rfl]
  | cons b s ih =>
    obtain ⟨hb, hs⟩ := not_or.mp (mt List.mem_cons.mpr hs)
    obtain ⟨hbc, hc⟩ := not_or.mp (mt List.mem_cons.mpr hc)
    rw [List.cons_append, strchr, if_neg (Ne.symm hbc), if_neg (Ne.symm hb), ih hs hc]
    rfl

/-- A search that is defined has found the byte or the terminator, behind bytes that are neither. -/
theorem strchr_inv {c : UInt8} {w : List UInt8} {r : Option ℕ} (h : strchr c w = some r) :
    ∃ s u, 0 ∉ s ∧ c ∉ s ∧ (w = s ++ c :: u ∧ r = some s.length ∨ w = s ++ 0 :: u ∧ r = none) := by
  induction w generalizing r with
  | nil => cases h
  | cons b w ih =>
    rw [strchr] at h
    split_ifs at h with hbc hb
    · cases h
      exact ⟨[], w, by simp, by simp, Or.inl ⟨by rw [hbc]; rfl, rfl⟩⟩
    · cases h
      exact ⟨[], w, by simp, by simp, Or.inr ⟨by rw [hb]; rfl, rfl⟩⟩
    · obtain ⟨r', hr', rfl⟩ := Option.map_eq_some_iff.mp h
      obtain ⟨s, u, hs, hc, hw⟩ := ih hr'
      refine ⟨b :: s, u, by simp [hs, Ne.symm hb], by simp [hc, Ne.symm hbc], ?_⟩
      rcases hw with ⟨rfl, rfl⟩ | ⟨rfl, rfl⟩
      · exact Or.inl ⟨rfl, rfl⟩
      · exact Or.inr ⟨rfl, rfl⟩

theorem strrchr_last {c : UInt8} {a b : List UInt8} (ha : 0 ∉ a) (hb : 0 ∉ b) (hcb : c ∉ b)
    (hc : c ≠ 0) (w : List UInt8) :
    strrchr c (a ++ c :: (b ++ 0 :: w)) = some (some a.length) := by
  have hcstr : cstr (a ++ c :: (b ++ 0 :: w)) = some (a ++ c :: b) := by
    rw [← List.cons_append, ← List.append_assoc]
    exact cstr_append (by simp [ha, hb, hc.symm]) w
  have hidx : (b.reverse ++ c :: a.reverse).idxOf c = b.length := by
    rw [List.idxOf_append_of_notMem (by simpa using hcb), List.idxOf_cons_self, List.length_reverse, Nat.add_zero]
  rw [strrchr, hcstr, Option.map_some, if_pos (by simp), List.reverse_append, List.reverse_cons, List.append_assoc,
    List.singleton_append, hidx]
  simp

/-- A comparison of the first bytes with a keyword, as `strncmp` makes it, stops at the
terminator. -/
theorem take_terminated {k : List UInt8} (hk : 0 ∉ k) (s w : List UInt8) :
    (s ++ 0 :: w).take k.length = k ↔ s.take k.length = k := by
  induction k generalizing s with
  | nil => simp
  | cons b k ih =>
    obtain ⟨hb, hk⟩ := not_or.mp (mt List.mem_cons.mpr hk)
    cases s with
    | nil => simp [hb]
    | cons c s => simpa using fun _ => ih hk s

def decimal (n : ℕ) : List UInt8 :=
  if n = 0 then [48] else (Nat.digits 10 n).reverse.map fun d => UInt8.ofNat (48 + d)

theorem decimal_digit {n : ℕ} {b : UInt8} (h : b ∈ decimal n) : 48 ≤ b.toNat ∧ b.toNat ≤ 57 := by
  unfold decimal at h
  split_ifs at h
  · obtain rfl := List.mem_singleton.mp h
    decide
  · obtain ⟨d, hd, rfl⟩ := List.mem_map.mp h
    have hlt := Nat.digits_lt_base (by decide) (List.mem_reverse.mp hd)
    rw [UInt8.toNat_ofNat']
    omega

theorem not_mem_decimal {c : UInt8} (n : ℕ) (hc : c.toNat < 48) : c ∉ decimal n := by
  intro h
  have := (decimal_digit h).1
  omega

theorem length_decimal_of_lt {n k : ℕ} (hk : 0 < k) (h : n < 10 ^ k) : (decimal n).length ≤ k := by
  unfold decimal
  split_ifs
  · exact hk
  · rw [List.length_map, List.length_reverse]
    exact (Nat.digits_length_le_iff (by decide) n).mpr h

theorem length_decimal_pos (n : ℕ) : 0 < (decimal n).length := by
  unfold decimal
  split_ifs with h
  · exact Nat.one_pos
  · rw [List.length_map, List.length_reverse]
    exact List.length_pos_of_ne_nil (Nat.digits_ne_nil_iff_ne_zero.mpr h)

def decimalValue (w : List UInt8) : ℕ := w.foldl (fun n b => n * 10 + (b.toNat - 48)) 0

theorem decimalValue_append (w : List UInt8) (b : UInt8) :
    decimalValue (w ++ [b]) = decimalValue w * 10 + (b.toNat - 48) := by
  rw [decimalValue, List.foldl_append]
  rfl

theorem ofDigits_reverse (w : List UInt8) :
    Nat.ofDigits 10 (w.reverse.map fun b => b.toNat - 48) = decimalValue w := by
  induction w using List.reverseRecOn with
  | nil => rfl
  | append_singleton w b ih =>
    rw [List.reverse_append, List.reverse_singleton, List.singleton_append, List.map_cons,
      Nat.ofDigits_cons, ih, decimalValue_append]
    omega

theorem decimalValue_decimal (n : ℕ) : decimalValue (decimal n) = n := by
  by_cases hn : n = 0
  · subst hn
    rfl
  · have hmap : (Nat.digits 10 n).map ((fun b : UInt8 => b.toNat - 48) ∘ fun d => UInt8.ofNat (48 + d)) =
        Nat.digits 10 n := by
      conv_rhs => rw [← List.map_id (Nat.digits 10 n)]
      refine List.map_congr_left fun d hd => ?_
      have hlt := Nat.digits_lt_base (by decide) hd
      rw [Function.comp_apply, UInt8.toNat_ofNat']
      change (48 + d) % 256 - 48 = d
      omega
    rw [← ofDigits_reverse, decimal, if_neg hn, ← List.map_reverse, List.reverse_reverse,
      List.map_map, hmap, Nat.ofDigits_digits]

theorem decimalValue_lt (w : List UInt8) (hw : ∀ b ∈ w, 48 ≤ b ∧ b ≤ 57) :
    decimalValue w < 10 ^ w.length := by
  rw [← ofDigits_reverse]
  have hlt := Nat.ofDigits_lt_base_pow_length (b := 10) (l := w.reverse.map fun b => b.toNat - 48)
    (by decide) fun x hx => by
      obtain ⟨b, hb, rfl⟩ := List.mem_map.mp hx
      have hle := UInt8.le_iff_toNat_le.mp (hw b (List.mem_reverse.mp hb)).2
      change b.toNat ≤ 57 at hle
      omega
  rwa [List.length_map, List.length_reverse] at hlt

def freshBlock (n : ℕ) : List (Option UInt8) := List.replicate n none

/-- Copy bytes into a block; a copy past its end is undefined. -/
def store (mem : List (Option UInt8)) (off : ℕ) (bytes : List UInt8) : Option (List (Option UInt8)) :=
  if off + bytes.length ≤ mem.length then
    some (mem.take off ++ bytes.map some ++ mem.drop (off + bytes.length))
  else none

/-- `snprintf` into a block of which `size` bytes may be used: the text is cut to leave room
for the terminator. -/
def snprintf (mem : List (Option UInt8)) (size : ℕ) (text : List UInt8) :
    Option (List (Option UInt8)) :=
  if size = 0 then some mem else store mem 0 (text.take (size - 1) ++ [0])

theorem store_append {done bytes : List UInt8} {rest : List (Option UInt8)}
    (h : bytes.length ≤ rest.length) : store (done.map some ++ rest) done.length bytes =
      some ((done ++ bytes).map some ++ rest.drop bytes.length) := by
  have hdone : (done.map some : List (Option UInt8)).length = done.length := List.length_map _
  rw [store, if_pos (by rw [List.length_append, hdone]; omega), List.take_left' hdone,
    ← List.drop_drop, List.drop_left' hdone, List.map_append]

theorem mapM_written (w : List UInt8) : (w.map some).mapM id = some w := by
  induction w with
  | nil => rfl
  | cons b w ih =>
    rw [List.map_cons, List.mapM_cons, ih]
    rfl

end MySQLSyncer.Lib
