import MySQLSyncer.Lib.Bytes

/-! # Length-prefixed messages on a byte stream -/
namespace MySQLSyncer.Lib

def frame (m : List UInt8) : List UInt8 := leBytes 4 m.length ++ m

def announced (w : List UInt8) : ℕ := leNat (w.take 4)

def messagesAux : ℕ → List UInt8 → List (List UInt8)
  | 0, _ => []
  | n + 1, w =>
    if w.length < 4 ∨ (w.drop 4).length < announced w then []
    else (w.drop 4).take (announced w) :: messagesAux n ((w.drop 4).drop (announced w))

def messages (w : List UInt8) : List (List UInt8) := messagesAux w.length w

theorem messagesAux_eq {n k : ℕ} {w : List UInt8} (hn : w.length ≤ n) (hk : w.length ≤ k) :
    messagesAux n w = messagesAux k w := by
  induction n generalizing k w with
  | zero =>
    obtain rfl := List.length_eq_zero_iff.mp (Nat.le_zero.mp hn)
    cases k <;> rfl
  | succ n ih =>
    cases k with
    | zero =>
      obtain rfl := List.length_eq_zero_iff.mp (Nat.le_zero.mp hk)
      rfl
    | succ k =>
      simp only [messagesAux]
      split_ifs with h
      · rfl
      · rw [not_or, Nat.not_lt] at h
        have hlen : ((w.drop 4).drop (announced w)).length ≤ w.length - 4 := by
          rw [List.length_drop, List.length_drop]
          omega
        rw [ih (k := k) (by omega) (by omega)]

def Incomplete (w : List UInt8) : Prop := w.length < 4 ∨ (w.drop 4).length < announced w

theorem messages_incomplete {w : List UInt8} (h : Incomplete w) : messages w = [] := by
  unfold messages
  cases hw : w.length with
  | zero => rfl
  | succ n => exact if_pos h

theorem announced_append {l w : List UInt8} (hl : l.length = 4) : announced (l ++ w) = leNat l := by
  rw [announced, List.take_left' hl]

theorem messages_append {l m w : List UInt8} (hl : l.length = 4) (hm : m.length = leNat l) :
    messages (l ++ (m ++ w)) = m :: messages w := by
  have hlen : (l ++ (m ++ w)).length = (m ++ w).length + 3 + 1 := by
    rw [List.length_append, hl]
    omega
  rw [messages, hlen, messagesAux, announced_append hl, List.drop_left' hl, if_neg,
    List.take_left' hm, List.drop_left' hm]
  · exact congrArg _ (messagesAux_eq (by simp; omega) le_rfl)
  · simp only [List.length_append, hl]
    omega

theorem messages_frame {m w : List UInt8} (hm : m.length < 2 ^ 32) :
    messages (frame m ++ w) = m :: messages w := by
  rw [frame, List.append_assoc]
  exact messages_append (length_leBytes 4 _)
    (by rw [leNat_leBytes, Nat.mod_eq_of_lt (by omega)])

theorem messages_frames {ms : List (List UInt8)} {w : List UInt8}
    (h : ∀ m ∈ ms, m.length < 2 ^ 32) :
    messages (ms.flatMap frame ++ w) = ms ++ messages w := by
  induction ms with
  | nil => rfl
  | cons m ms ih =>
    rw [List.flatMap_cons, List.append_assoc, messages_frame (h m List.mem_cons_self),
      ih fun x hx => h x (List.mem_cons_of_mem _ hx), List.cons_append]

theorem frame_of_leNat {l m : List UInt8} (hl : l.length = 4) (hm : m.length = leNat l) :
    frame m = l ++ m := by
  rw [frame, hm, ← hl, leBytes_leNat]

/-- What follows some of the messages on a stream is the frames of the others. -/
theorem frames_cut {ms ns : List (List UInt8)} {w : List UInt8} (hms : ∀ m ∈ ms, m.length < 2 ^ 32)
    (hns : ∀ m ∈ ns, m.length < 2 ^ 32) (h : ms.flatMap frame ++ w = ns.flatMap frame) :
    ∃ rest, ns = ms ++ rest ∧ w = rest.flatMap frame := by
  have hmessages : ms ++ messages w = ns := by
    have hall := messages_frames (w := []) hns
    rw [List.append_nil, ← h, messages_frames hms] at hall
    rw [hall]
    exact List.append_nil ns
  refine ⟨messages w, hmessages.symm, ?_⟩
  rw [← hmessages, List.flatMap_append] at h
  exact List.append_cancel_left h

/-- A stream of frames announces the length of its first message. -/
theorem announced_frames {ms : List (List UInt8)} {w x : List UInt8} (hms : ∀ m ∈ ms, m.length < 2 ^ 32)
    (h : w ++ x = ms.flatMap frame) (hw : 4 ≤ w.length) : ∃ m ∈ ms, announced w = m.length := by
  cases ms with
  | nil =>
    have hlen := congrArg List.length h
    rw [List.length_append, List.flatMap_nil, List.length_nil] at hlen
    omega
  | cons m ms =>
    refine ⟨m, List.mem_cons_self, ?_⟩
    have hx : (w ++ x).take 4 = w.take 4 := List.take_append_of_le_length hw
    have htake : w.take 4 = leBytes 4 m.length := by
      rw [← hx, h, List.flatMap_cons, frame, List.append_assoc]
      exact List.take_left' (length_leBytes 4 _)
    rw [announced, htake, leNat_leBytes]
    exact Nat.mod_eq_of_lt (hms m List.mem_cons_self)

end MySQLSyncer.Lib
