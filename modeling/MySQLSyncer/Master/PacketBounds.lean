import MySQLSyncer.Master.ParseDumpcmd

/-! # The dump command of any client

`rs_parse_dumpcmd` looks for its separators with the string functions of the C library in a packet
that need not contain a zero byte. What a packet must contain besides, for every search and every
number to end inside it, is said of its bytes here.
-/
namespace MySQLSyncer.Master
open Lib MySQLSyncer.Core

/-- The call returns a code, all its reads are in the packet, and the name has room in `dump_file`
with a zero behind it. -/
structure DumpcmdSafe (cbuf : List UInt8) : Prop where
  returns : ∃ code cmd, parseDumpcmd cbuf = some (code, cmd) ∧ (code = .ok ∨ code = .err)
  dumpFile : ∀ n, strchr 44 cbuf = some (some n) → n + 1 ≤ pathMax + 1

structure FileName (name : List UInt8) : Prop where
  noNul : 0 ∉ name
  noComma : 44 ∉ name
  number : ∃ b ∈ name, ¬ IsDigit b
  short : name.length ≤ pathMax

/-- A packet in which every search and every number ends: it lacks the first comma, the newline or
the list in front of a zero byte, or has all three and, behind the last comma and one more byte, the
four bytes of the number. -/
inductive PacketFits : List UInt8 → Prop
  | noComma {s u : List UInt8} (hnul : 0 ∉ s) (hcomma : 44 ∉ s) : PacketFits (s ++ 0 :: u)
  | noLine {name pos u : List UInt8} (hname : FileName name) (hnul : 0 ∉ pos) (hline : 10 ∉ pos) :
      PacketFits (name ++ 44 :: (pos ++ 0 :: u))
  | noList {name pos u : List UInt8} {b : UInt8} (hname : FileName name) (hnul : 0 ∉ pos) (hline : 10 ∉ pos)
      (hb : b ≠ 44) : PacketFits (name ++ 44 :: (pos ++ 10 :: b :: u))
  | shortList {name pos a r u : List UInt8} (hname : FileName name) (hnul : 0 ∉ pos) (hline : 10 ∉ pos)
      (ha : a = [] ∨ a = [44]) (hr : 0 ∉ r) (hlast : 44 ∉ r) :
      PacketFits (name ++ 44 :: (pos ++ 10 :: (a ++ 44 :: (r ++ 0 :: u))))
  | list {name pos a r u : List UInt8} (hname : FileName name) (hnul : 0 ∉ pos) (hline : 10 ∉ pos) (ha : 0 ∉ a)
      (hne : a ≠ []) (hr : 0 ∉ r) (hlast : 44 ∉ r) (hnumber : 4 ≤ r.length + u.length) :
      PacketFits (name ++ 44 :: (pos ++ 10 :: 44 :: (a ++ 44 :: (r ++ 0 :: u))))

variable {cbuf name pos rest w a r u : List UInt8} {n : ℕ}

theorem rsStrToUint32_isSome (i : UInt32) (w : List UInt8) :
    (rsStrToUint32 i w).isSome ↔ ∃ b ∈ w, ¬ IsDigit b := by
  induction w generalizing i with
  | nil => simp [rsStrToUint32]
  | cons b w ih =>
    rw [rsStrToUint32]
    split_ifs with hb
    · simp [ih, hb]
    · simp [hb]

/-- What `rs_parse_dumpcmd` does behind the newline. -/
def parseList (name filterTables dumpFile : List UInt8) (dumpPos : UInt32) : Option (RsCode × Option Dumpcmd) := do
  if (← filterTables[0]?) ≠ 44 then some (.err, none)
  else
    match ← strrchr 44 filterTables with
    | none => some (.err, none)
    | some last =>
      if last < 2 then some (.err, none)
      else
        let rbEsusec ← slice filterTables (last + 2) 4
        let list ← cstr filterTables
        some (.ok, some
          { dumpFile := dumpFile
            dumpNum := rsEstrToUint32 name
            dumpPos := dumpPos
            filterTables := if list.take 2 = [44, 44] then none else some list
            rbEsusec := UInt32.ofNat (leNat rbEsusec) })

theorem parseDumpcmd_comma (hnul : 0 ∉ name) (hcomma : 44 ∉ name) (rest : List UInt8) :
    parseDumpcmd (name ++ 44 :: rest) = (copyInto (List.replicate (pathMax + 1) 0) name).bind fun dumpFile =>
      if ∀ b ∈ name, IsDigit b then none
      else (rsStrToUint32 0 rest).bind fun dumpPos => (strchr 10 rest).bind fun
        | none => some (.err, none)
        | some newline => parseList name (rest.drop (newline + 1)) dumpFile dumpPos := by
  have hfirst : strchr 44 (name ++ 44 :: rest) = some (some name.length) := strchr_append hnul hcomma rest
  have htake : (name ++ 44 :: rest).take name.length = name := List.take_left
  have hdrop : (name ++ 44 :: rest).drop name.length = 44 :: rest := List.drop_left
  have hskip : (name ++ 44 :: rest).drop (name.length + 1) = rest := by
    rw [← List.drop_drop, hdrop, List.drop_one, List.tail_cons]
  have hline : strchr 10 (44 :: rest) = (strchr 10 rest).map fun r => r.map (· + 1) := by
    rw [strchr, if_neg (by decide), if_neg (by decide)]
  have hlist (k : ℕ) : (name ++ 44 :: rest).drop (name.length + (k + 1) + 1) = rest.drop (k + 1) := by
    rw [Nat.add_assoc, ← List.drop_drop, hdrop, List.drop_succ_cons]
  rw [parseDumpcmd]
  simp only [hfirst, htake, hdrop, hskip, hline, Option.bind_eq_bind, Option.bind_some, Option.bind_map]
  congr 1
  funext dumpFile
  split_ifs
  · rfl
  · congr 1
    funext dumpPos
    congr 1
    funext r
    cases r with
    | none => rfl
    | some k =>
      simp only [Function.comp_apply, Option.map_some, hlist]
      rfl

inductive ListFits : List UInt8 → Prop
  | noList {b : UInt8} {u : List UInt8} (hb : b ≠ 44) : ListFits (b :: u)
  | short {a r u : List UInt8} (ha : a = [] ∨ a = [44]) (hr : 0 ∉ r) (hlast : 44 ∉ r) :
      ListFits (a ++ 44 :: (r ++ 0 :: u))
  | long {a r u : List UInt8} (ha : 0 ∉ a) (hne : a ≠ []) (hr : 0 ∉ r) (hlast : 44 ∉ r)
      (hnumber : 4 ≤ r.length + u.length) : ListFits (44 :: (a ++ 44 :: (r ++ 0 :: u)))

theorem ListFits.parse {t f : List UInt8} {p : UInt32} (h : ListFits t) :
    ∃ code cmd, parseList name t f p = some (code, cmd) ∧ (code = .ok ∨ code = .err) := by
  cases h with
  | noList hb => exact ⟨.err, none, by simp [parseList, hb], Or.inr rfl⟩
  | @short a r u ha hr hlast =>
    have hnul : 0 ∉ a := by rcases ha with rfl | rfl <;> simp
    have hfind := strrchr_last (c := 44) hnul hr hlast (by decide) u
    have hhead : (a ++ 44 :: (r ++ 0 :: u))[0]? = some 44 := by rcases ha with rfl | rfl <;> rfl
    have hlen : a.length < 2 := by rcases ha with rfl | rfl <;> decide
    refine ⟨.err, none, ?_, Or.inr rfl⟩
    rw [parseList]
    simp only [hhead, hfind, hlen, Option.bind_eq_bind, Option.bind_some, ne_eq, not_true_eq_false, if_false, if_true]
  | @long a r u ha hne hr hlast hnumber =>
    have hfind := strrchr_last (c := 44) (a := 44 :: a) (by simp [ha]) hr hlast (by decide) u
    have hlen : ¬ (44 :: a).length < 2 := by
      have hpos := List.length_pos_iff.mpr hne
      simp only [List.length_cons]
      omega
    have hstr : cstr (44 :: a ++ 44 :: (r ++ 0 :: u)) = some (44 :: a ++ 44 :: r) := by
      rw [show 44 :: a ++ 44 :: (r ++ 0 :: u) = (44 :: a ++ 44 :: r) ++ 0 :: u by simp]
      exact cstr_append (by simp [ha, hr]) u
    have hslice : ∃ v, slice (44 :: a ++ 44 :: (r ++ 0 :: u)) ((44 :: a).length + 2) 4 = some v := by
      refine ⟨_, if_pos ?_⟩
      simp only [List.length_append, List.length_cons]
      omega
    obtain ⟨v, hv⟩ := hslice
    rw [List.cons_append] at hfind hstr hv
    have hparse : ∃ cmd, parseList name (44 :: (a ++ 44 :: (r ++ 0 :: u))) f p = some (.ok, cmd) := by
      rw [parseList]
      simp only [List.getElem?_cons_zero, hfind, hlen, hstr, hv, Option.bind_eq_bind, Option.bind_some, ne_eq,
        not_true_eq_false, if_false]
      exact ⟨_, rfl⟩
    obtain ⟨cmd, hcmd⟩ := hparse
    exact ⟨.ok, cmd, hcmd, Or.inl rfl⟩

/-- The last comma of a string, with what is in front of it and behind it. -/
theorem split_last {s : List UInt8} (h : 44 ∈ s) : ∃ a r, s = a ++ 44 :: r ∧ 44 ∉ r := by
  obtain ⟨r, a, hs, hr⟩ := List.eq_append_cons_of_mem (List.mem_reverse.mpr h)
  refine ⟨a.reverse, r.reverse, ?_, by simpa using hr⟩
  rw [← List.reverse_reverse s, hs]
  simp

theorem listFits_of_parse {t f : List UInt8} {p : UInt32} {r : RsCode × Option Dumpcmd}
    (h : parseList name t f p = some r) : ListFits t := by
  obtain ⟨b, hb, h⟩ := Option.bind_eq_some_iff.mp h
  cases t with
  | nil => cases hb
  | cons b' t =>
    obtain rfl := Option.some.inj hb
    by_cases hcomma : b' = 44
    · subst hcomma
      simp only [ne_eq, not_true_eq_false, if_false] at h
      obtain ⟨found, hfound, h⟩ := Option.bind_eq_some_iff.mp h
      obtain ⟨s, hs, -⟩ := Option.map_eq_some_iff.mp hfound
      obtain ⟨hnul, u, ht⟩ := cstr_eq_some.mp hs
      have hmem : 44 ∈ s := by
        cases s with
        | nil =>
          rw [List.nil_append] at ht
          exact absurd (List.cons.inj ht).1 (by decide)
        | cons b s => simp [(List.cons.inj ht).1]
      obtain ⟨a, r, rfl, hr⟩ := split_last hmem
      have hnuls : 0 ∉ a ∧ 0 ∉ r := by simpa using hnul
      have hfind := strrchr_last hnuls.1 hnuls.2 hr (by decide) u
      rw [List.append_assoc, List.cons_append] at ht
      rw [ht, hfind] at hfound
      cases hfound
      rw [ht]
      cases a with
      | nil => exact .short (Or.inl rfl) hnuls.2 hr
      | cons b a =>
        obtain ⟨rfl, -⟩ := List.cons.inj ht
        by_cases hne : a = []
        · subst hne
          exact .short (Or.inr rfl) hnuls.2 hr
        · have hpos := List.length_pos_iff.mpr hne
          have hlen : ¬ (44 :: a).length < 2 := by
            simp only [List.length_cons]
            omega
          simp only [hlen, if_false] at h
          obtain ⟨v, hv, -⟩ := Option.bind_eq_some_iff.mp h
          have hend := (slice_eq_some.mp hv).1
          rw [ht] at hend
          simp only [List.length_append, List.length_cons] at hend
          exact .long (by simpa using hnuls.1) hne hnuls.2 hr (by omega)
    · exact .noList hcomma

theorem FileName.parse (hname : FileName name) (rest : List UInt8) :
    ∃ dumpFile, parseDumpcmd (name ++ 44 :: rest) = (rsStrToUint32 0 rest).bind fun dumpPos =>
      (strchr 10 rest).bind fun
        | none => some (.err, none)
        | some newline => parseList name (rest.drop (newline + 1)) dumpFile dumpPos := by
  obtain ⟨dumpFile, hcopy⟩ : ∃ dumpFile, copyInto (List.replicate (pathMax + 1) 0) name = some dumpFile := by
    refine ⟨_, if_pos ?_⟩
    have hshort := hname.short
    rw [List.length_replicate]
    omega
  have hdigits : ¬ ∀ b ∈ name, IsDigit b := by
    obtain ⟨b, hb, hnot⟩ := hname.number
    exact fun hall => hnot (hall b hb)
  refine ⟨dumpFile, ?_⟩
  rw [parseDumpcmd_comma hname.noNul hname.noComma, hcopy, Option.bind_some, if_neg hdigits]

theorem FileName.found (hname : FileName name) (rest : List UInt8) :
    ∀ n, strchr 44 (name ++ 44 :: rest) = some (some n) → n + 1 ≤ pathMax + 1 := by
  intro n hn
  rw [strchr_append hname.noNul hname.noComma] at hn
  cases hn
  exact Nat.succ_le_succ hname.short

theorem FileName.safe_line (hname : FileName name) (hnul : 0 ∉ pos)
    (hline : 10 ∉ pos) {t : List UInt8} (h : ListFits t) :
    DumpcmdSafe (name ++ 44 :: (pos ++ 10 :: t)) := by
  refine ⟨?_, hname.found _⟩
  obtain ⟨f, hparse⟩ := hname.parse (pos ++ 10 :: t)
  obtain ⟨p, hp⟩ := Option.isSome_iff_exists.mp
    ((rsStrToUint32_isSome 0 (pos ++ 10 :: t)).mpr ⟨10, by simp, by decide⟩)
  have hfind : strchr 10 (pos ++ 10 :: t) = some (some pos.length) := strchr_append hnul hline t
  have hdrop : (pos ++ 10 :: t).drop (pos.length + 1) = t := by
    rw [← List.drop_drop, List.drop_left, List.drop_one, List.tail_cons]
  rw [hp, hfind] at hparse
  simp only [Option.bind_some, hdrop] at hparse
  rw [hparse]
  exact h.parse

theorem PacketFits.safe (h : PacketFits cbuf) : DumpcmdSafe cbuf := by
  cases h with
  | noComma hnul hcomma =>
    have hfind := strchr_terminated hnul hcomma (by decide)
    constructor
    · exact ⟨.err, none, by rw [parseDumpcmd, hfind]; rfl, Or.inr rfl⟩
    · intro n hn
      rw [hfind] at hn
      cases hn
  | @noLine name pos u hname hnul hline =>
    refine ⟨?_, hname.found _⟩
    obtain ⟨f, hparse⟩ := hname.parse (pos ++ 0 :: u)
    obtain ⟨p, hp⟩ := Option.isSome_iff_exists.mp
      ((rsStrToUint32_isSome 0 (pos ++ 0 :: u)).mpr ⟨0, by simp, by decide⟩)
    rw [hp, strchr_terminated hnul hline (by decide)] at hparse
    exact ⟨.err, none, hparse, Or.inr rfl⟩
  | noList hname hnul hline hb => exact hname.safe_line hnul hline (.noList hb)
  | shortList hname hnul hline ha hr hlast => exact hname.safe_line hnul hline (.short ha hr hlast)
  | list hname hnul hline ha hne hr hlast hnumber => exact hname.safe_line hnul hline (.long ha hne hr hlast hnumber)

theorem DumpcmdSafe.fits (h : DumpcmdSafe cbuf) : PacketFits cbuf := by
  obtain ⟨code, cmd, hparse, -⟩ := h.returns
  obtain ⟨found, hfound⟩ : ∃ found, strchr 44 cbuf = some found := by
    obtain ⟨found, hfound, -⟩ := Option.bind_eq_some_iff.mp hparse
    exact ⟨found, hfound⟩
  obtain ⟨name, rest, hnul, hcomma, ⟨rfl, rfl⟩ | ⟨rfl, rfl⟩⟩ := strchr_inv hfound
  · rw [parseDumpcmd_comma hnul hcomma] at hparse
    obtain ⟨f, -, hparse⟩ := Option.bind_eq_some_iff.mp hparse
    by_cases hdigits : ∀ b ∈ name, IsDigit b
    · rw [if_pos hdigits] at hparse
      cases hparse
    rw [if_neg hdigits] at hparse
    push Not at hdigits
    have hname : FileName name := ⟨hnul, hcomma, hdigits, Nat.le_of_succ_le_succ (h.dumpFile _ hfound)⟩
    obtain ⟨p, -, hparse⟩ := Option.bind_eq_some_iff.mp hparse
    obtain ⟨k, hk, hparse⟩ := Option.bind_eq_some_iff.mp hparse
    obtain ⟨pos, t, hposNul, hposLine, ⟨rfl, rfl⟩ | ⟨rfl, rfl⟩⟩ := strchr_inv hk
    · have hdrop : (pos ++ 10 :: t).drop (pos.length + 1) = t := by
        rw [← List.drop_drop, List.drop_left, List.drop_one, List.tail_cons]
      simp only [hdrop] at hparse
      cases listFits_of_parse hparse with
      | noList hb => exact .noList hname hposNul hposLine hb
      | short ha hr hlast => exact .shortList hname hposNul hposLine ha hr hlast
      | long ha hne hr hlast hnumber => exact .list hname hposNul hposLine ha hne hr hlast hnumber
    · exact .noLine hname hposNul hposLine
  · exact .noComma hnul hcomma

/-- The parser is safe on a packet if and only if the packet is of this form. -/
theorem dumpcmdSafe_iff (cbuf : List UInt8) : DumpcmdSafe cbuf ↔ PacketFits cbuf :=
    ⟨DumpcmdSafe.fits, PacketFits.safe⟩

/-- The search for the comma runs off a packet of one letter. -/
theorem not_dumpcmdSafe : ¬ ∀ cbuf, DumpcmdSafe cbuf := by
  intro hall
  obtain ⟨code, cmd, hparse, -⟩ := (hall [97]).returns
  cases hparse

end MySQLSyncer.Master
