import Mathlib.Data.List.Infix
import Mathlib.Data.List.Basic

/-! # The entries between separators

A search for `c`, a text and `c` again finds the entries that are closed by a separator; a search
without the closing one finds the beginnings of all of them.
-/
namespace MySQLSyncer.Lib
universe u

variable {α : Type u} {c : α} {a e w : List α}

theorem infix_skip (ha : c ∉ a) (w : List α) : c :: e <:+: a ++ w ↔ c :: e <:+: w := by
  induction a with
  | nil => rfl
  | cons b a ih =>
    obtain ⟨hb, ha⟩ := not_or.mp (mt List.mem_cons.mpr ha)
    rw [List.cons_append, List.infix_cons_iff, ih ha, List.cons_prefix_cons]
    simp [hb]

theorem prefix_of_entry (he : c ∉ e) : e <+: a ++ c :: w ↔ e <+: a := by
  constructor
  · intro h
    rcases List.prefix_or_prefix_of_prefix h (List.prefix_append a (c :: w)) with h' | ⟨v, rfl⟩
    · exact h'
    · cases v with
      | nil => simp
      | cons b v =>
        rw [List.prefix_append_right_inj, List.cons_prefix_cons] at h
        exact absurd (by simp [h.1]) he
  · intro h
    exact h.trans (List.prefix_append a _)

theorem append_sep_inj {u v : List α} (ha : c ∉ a) (he : c ∉ e) (h : a ++ c :: u = e ++ c :: v) : a = e ∧ u = v := by
  have hae : a <+: e := (prefix_of_entry (c := c) ha).mp (h ▸ List.prefix_append a _)
  have hea : e <+: a := (prefix_of_entry (c := c) he).mp (h ▸ List.prefix_append e _)
  obtain rfl := hae.eq_of_length_le hea.length_le
  exact ⟨rfl, (List.cons.inj (List.append_cancel_left h)).2⟩

variable [DecidableEq α]

/-- A list without the separator, or one in front of a separator and a list. -/
theorem splitOn_induction {motive : List α → Prop} (c : α) (last : ∀ w, c ∉ w → motive w)
    (more : ∀ a w, c ∉ a → motive w → motive (a ++ c :: w)) (w : List α) : motive w := by
  induction hn : w.length using Nat.strong_induction_on generalizing w with
  | _ n ih =>
    by_cases hc : c ∈ w
    · obtain ⟨a, v, rfl, ha⟩ := List.eq_append_cons_of_mem hc
      exact more a v ha (ih v.length (by simp [← hn]; omega) v rfl)
    · exact last w hc

theorem splitOn_more (ha : c ∉ a) (w : List α) : (a ++ c :: w).splitOn c = a :: w.splitOn c := by
  rw [List.splitOn_append_cons_of_beq a w (beq_self_eq_true c), List.splitOn_eq_singleton ha, List.singleton_append]

/-- Without a closing separator, the search finds every entry that begins with the text. -/
theorem infix_open_iff (he : c ∉ e) (w : List α) : c :: e <:+: c :: w ↔ ∃ x ∈ w.splitOn c, e <+: x := by
  induction w using splitOn_induction c with
  | last w hw =>
    have hno : ¬ c :: e <:+: w := fun h => hw (h.mem List.mem_cons_self)
    simp [List.splitOn_eq_singleton hw, List.infix_cons_iff, hno]
  | more a w ha ih =>
    rw [List.infix_cons_iff, List.cons_prefix_cons, infix_skip ha, ih, splitOn_more ha]
    simp [prefix_of_entry he]

/-- With both separators, it finds the entries themselves, but not the last one. -/
theorem infix_closed_iff (he : c ∉ e) (w : List α) :
    c :: (e ++ [c]) <:+: c :: w ↔ e ∈ (w.splitOn c).dropLast := by
  induction w using splitOn_induction c with
  | last w hw =>
    have hno (v : List α) : ¬ v ++ [c] <+: w := fun h => hw (h.mem (by simp))
    have hno' : ¬ c :: (e ++ [c]) <:+: w := fun h => hw (h.mem List.mem_cons_self)
    simp [List.splitOn_eq_singleton hw, List.infix_cons_iff, hno, hno']
  | more a w ha ih =>
    have hfirst : e ++ [c] <+: a ++ c :: w ↔ e = a := by
      constructor
      · rintro ⟨v, h⟩
        rw [List.append_assoc, List.singleton_append] at h
        exact (append_sep_inj he ha h).1
      · rintro rfl
        exact ⟨w, by simp⟩
    rw [List.infix_cons_iff, List.cons_prefix_cons, infix_skip ha, ih, splitOn_more ha,
      List.dropLast_cons_of_ne_nil (List.splitOn_ne_nil c w), List.mem_cons]
    simp [hfirst]

end MySQLSyncer.Lib
