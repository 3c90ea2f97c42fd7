import MySQLSyncer.Core.Conf
import Mathlib.Data.List.TakeWhile

/-! # The lines of a configuration file

A file is a list of lines, of which only the last may lack its newline. Each line takes the
parser from the start of a line to the start of the next one.
-/
namespace MySQLSyncer.Core

/-- A line. The key of a setting is followed by a space and perhaps by further blanks. -/
inductive ConfLine where
  | blank (w : List UInt8)
  | comment (text : List UInt8)
  | heading (name : List UInt8)
  | setting (key gap val : List UInt8)
  deriving DecidableEq, Repr

def ConfLine.render : ConfLine → List UInt8
  | .blank w => w
  | .comment text => 35 :: text
  | .heading name => 91 :: (name ++ [93])
  | .setting key gap val => key ++ 32 :: (gap ++ val)

def Plain (w : List UInt8) : Prop := ∀ c ∈ w, c ≠ 0 ∧ c ≠ 10 ∧ c ≠ 35 ∧ c ≠ 91

def Blanks (w : List UInt8) : Prop := ∀ c ∈ w, c = 32 ∨ c = 9

def ConfLine.Ok : ConfLine → Prop
  | .blank w => Blanks w
  | .comment text => 10 ∉ text
  | .heading name => Plain name ∧ 93 ∉ name ∧ name.length ≤ rsMaxModuleLen
  | .setting key gap val => Plain key ∧ 32 ∉ key ∧ 9 ∉ key ∧ key ≠ [] ∧ key.length ≤ rsMaxKeyLen ∧
      Blanks gap ∧ Plain val ∧ (∃ c ∈ val.head?, c ≠ 32 ∧ c ≠ 9) ∧ val.length ≤ rsConfValueMaxLen

def confText (newline : Bool) : List ConfLine → List UInt8
  | [] => []
  | l :: ls => l.render ++ if ls.isEmpty && !newline then [] else 10 :: confText newline ls

/-- The settings of the sections that have the name, from line `n` on in section `cur`. -/
def settingsOf (name : List UInt8) : ℕ → Option (List UInt8) → List ConfLine → List ConfCall
  | _, _, [] => []
  | n, cur, .blank _ :: ls | n, cur, .comment _ :: ls => settingsOf name (n + 1) cur ls
  | n, _, .heading s :: ls => settingsOf name (n + 1) (some s) ls
  | n, cur, .setting key _ val :: ls =>
    (if cur = some name then [⟨n, key, val⟩] else []) ++ settingsOf name (n + 1) cur ls

/-- A setting in a section whose name begins with the one looked for: its line is complete, its
section has that name and the value fits behind the key; or it is cut off and would not count. -/
def SettingOk (name : List UInt8) (cur : Option (List UInt8)) (cut : Bool) (key val : List UInt8) : Prop :=
  ∀ s ∈ cur, name <+: s →
    if cut then s ≠ name ∧ key.length + val.length ≤ rsConfValueMaxLen + 1
    else s = name ∧ key.length + val.length ≤ rsConfValueMaxLen

def SettingsOk (name : List UInt8) (newline : Bool) : Option (List UInt8) → List ConfLine → Prop
  | _, [] => True
  | cur, .blank _ :: ls | cur, .comment _ :: ls => SettingsOk name newline cur ls
  | _, .heading s :: ls => SettingsOk name newline (some s) ls
  | cur, .setting key _ val :: ls =>
    SettingOk name cur (ls.isEmpty && !newline) key val ∧ SettingsOk name newline cur ls

/-- The parser takes the settings of the section for its own. -/
def Taken (name : List UInt8) (cur : Option (List UInt8)) : Bool := cur.any fun s => name.isPrefixOf s

variable {conf : ConfTable} {name key val gap w : List UInt8} {s t : ConfScan} {c : UInt8} {n : ℕ}
  {on newline : Bool} {calls : List ConfCall} {cur : Option (List UInt8)} {l : ConfLine}
  {ls : List ConfLine}

def scan (conf : ConfTable) (name : List UInt8) (s : ConfScan) (w : List UInt8) : ConfScan :=
  w.foldl (confChar conf name false) s

@[simp] theorem scan_nil (s : ConfScan) : scan conf name s [] = s := rfl

@[simp] theorem scan_cons (s : ConfScan) (c : UInt8) (w : List UInt8) :
    scan conf name s (c :: w) = scan conf name (confChar conf name false s c) w := rfl

@[simp] theorem scan_append (s : ConfScan) (u w : List UInt8) :
    scan conf name s (u ++ w) = scan conf name (scan conf name s u) w := by
  induction u generalizing s with
  | nil => rfl
  | cons c u ih => simp [ih]

theorem scan_fixed (h : ∀ c ∈ w, confChar conf name false s c = s) : scan conf name s w = s := by
  induction w with
  | nil => rfl
  | cons c w ih =>
    rw [scan_cons, h c List.mem_cons_self]
    exact ih fun d hd => h d (List.mem_cons_of_mem c hd)

/-- The splits of the reads do not matter. -/
theorem rsInitConf_eq_scan (conf : ConfTable) (name : List UInt8) (chunks : List (List UInt8)) :
    rsInitConf conf name chunks = scan conf name ConfScan.init chunks.flatten := by
  rw [rsInitConf, List.foldl_nil, scan, List.foldl_flatten]

theorem confChar_stopped (h : s.status ≠ .running) : confChar conf name false s c = s := by
  rw [confChar, if_pos h]

theorem scan_stopped (h : s.status ≠ .running) : scan conf name s w = s :=
  scan_fixed fun _ _ => confChar_stopped h

theorem confChar_comment (hrun : s.status = .running) (hs : s.comment = true) (hc : c ≠ 10) :
    confChar conf name false s c = s := by
  rw [confChar, if_neg (not_not.mpr hrun)]
  dsimp only
  rw [if_neg (by simp [hs]), if_neg (by simp [hc]), if_pos hs, if_neg hc]

/-- Outside comments, a byte that starts neither a comment nor a section name. -/
theorem confChar_plain (hrun : s.status = .running) (hs : s.comment = false) (h35 : c ≠ 35)
    (h91 : c ≠ 91) : confChar conf name false s c =
      { (if s.inModule then confModule name false s c else if s.key then confKey false s c
          else if s.value then confValue conf false s c else s) with
        line := if c = 10 then s.line + 1 else s.line } := by
  simp [confChar, hrun, hs, h35, h91]

def ConfScan.lineAfter (s : ConfScan) (c : UInt8) : ℕ := if c = 10 then s.line + 1 else s.line

theorem confChar_module (hrun : s.status = .running) (hs : s.comment = false) (hm : s.inModule = true)
    (h35 : c ≠ 35) (h91 : c ≠ 91) :
    confChar conf name false s c = { confModule name false s c with line := s.lineAfter c } := by
  rw [confChar_plain hrun hs h35 h91, if_pos hm]
  rfl

theorem confChar_key (hrun : s.status = .running) (hs : s.comment = false) (hm : s.inModule = false)
    (hk : s.key = true) (h35 : c ≠ 35) (h91 : c ≠ 91) :
    confChar conf name false s c = { confKey false s c with line := s.lineAfter c } := by
  rw [confChar_plain hrun hs h35 h91, if_neg (by simp [hm]), if_pos hk]
  rfl

theorem confChar_value (hrun : s.status = .running) (hs : s.comment = false) (hm : s.inModule = false)
    (hk : s.key = false) (hv : s.value = true) (h35 : c ≠ 35) (h91 : c ≠ 91) :
    confChar conf name false s c = { confValue conf false s c with line := s.lineAfter c } := by
  rw [confChar_plain hrun hs h35 h91, if_neg (by simp [hm]), if_neg (by simp [hk]), if_pos hv]
  rfl

theorem confChar_idle (hrun : s.status = .running) (hs : s.comment = false) (hm : s.inModule = false)
    (hk : s.key = false) (hv : s.value = false) (h35 : c ≠ 35) (h91 : c ≠ 91) :
    confChar conf name false s c = { s with line := s.lineAfter c } := by
  rw [confChar_plain hrun hs h35 h91, if_neg (by simp [hm]), if_neg (by simp [hk]), if_neg (by simp [hv])]
  rfl

theorem lineAfter_eq (s : ConfScan) (hc : c ≠ 10) : s.lineAfter c = s.line := if_neg hc

theorem confModule_calls (s : ConfScan) (c : UInt8) : (confModule name false s c).calls = s.calls := by
  rw [confModule]
  split_ifs <;> rfl

theorem confKey_calls (s : ConfScan) (c : UInt8) : (confKey false s c).calls = s.calls := by
  rw [confKey]
  split_ifs <;> rfl

theorem confValue_calls (s : ConfScan) (c : UInt8) : s.calls <+: (confValue conf false s c).calls := by
  simp only [confValue]
  split_ifs
  all_goals simp

theorem confChar_calls (conf : ConfTable) (name : List UInt8) (s : ConfScan) (c : UInt8) :
    s.calls <+: (confChar conf name false s c).calls := by
  rw [confChar]
  dsimp only
  split_ifs
  · exact List.prefix_refl _
  all_goals simp [confModule_calls, confKey_calls, confValue_calls]

theorem scan_calls (conf : ConfTable) (name : List UInt8) (s : ConfScan) (w : List UInt8) :
    s.calls <+: (scan conf name s w).calls := by
  induction w generalizing s with
  | nil => exact List.prefix_refl _
  | cons c w ih => exact (confChar_calls conf name s c).trans (ih _)

/-- The parser at the start of line `n`, in a section that it takes for its own if `on`. -/
structure ConfScan.AtLine (n : ℕ) (on : Bool) (made : List ConfCall) (s : ConfScan) : Prop where
  running : s.status = .running
  comment : s.comment = false
  inModule : s.inModule = false
  value : s.value = false
  key : s.key = on
  fresh : on = true → s.k = [] ∧ s.i = 0
  line : s.line = n
  calls : s.calls = made

structure ConfScan.Settled (conf : ConfTable) (name : List UInt8) (n : ℕ) (on : Bool)
    (made : List ConfCall) (s : ConfScan) : Prop where
  running : s.status = .running
  calls : s.calls = made
  next : (confChar conf name false s 10).AtLine (n + 1) on made

/-- Blanks in front of a key, and anything in a section that is not taken. -/
theorem ConfScan.AtLine.skip (h : s.AtLine n on calls) (h35 : c ≠ 35) (h91 : c ≠ 91)
    (hc : on = true → IsBlank c) : confChar conf name false s c = { s with line := s.lineAfter c } := by
  cases on with
  | false => exact confChar_idle h.running h.comment h.inModule h.key h.value h35 h91
  | true =>
    rw [confChar_key h.running h.comment h.inModule h.key h35 h91, confKey, if_pos ⟨(h.fresh rfl).1, hc rfl⟩]

theorem ConfScan.AtLine.skip_all (h : s.AtLine n on calls) (hw : ∀ c ∈ w, c ≠ 10 ∧ c ≠ 35 ∧ c ≠ 91)
    (hblank : on = true → ∀ c ∈ w, IsBlank c) : scan conf name s w = s := by
  refine scan_fixed fun c hc => ?_
  obtain ⟨h10, h35, h91⟩ := hw c hc
  rw [h.skip h35 h91 fun hon => hblank hon c hc, lineAfter_eq s h10]

theorem ConfScan.AtLine.settled (h : s.AtLine n on calls) : s.Settled conf name n on calls := by
  refine ⟨h.running, h.calls, ?_⟩
  rw [h.skip (by decide) (by decide) fun _ => Or.inl rfl]
  exact { h with line := congrArg (· + 1) h.line }

theorem ConfScan.AtLine.blank_line (h : s.AtLine n on calls) (hw : Blanks w) :
    (scan conf name s w).Settled conf name n on calls := by
  rw [h.skip_all]
  · exact h.settled
  · intro c hc
    rcases hw c hc with rfl | rfl <;> decide
  · exact fun _ c hc => Or.inr (hw c hc)

theorem ConfScan.AtLine.comment_line (h : s.AtLine n on calls) (htext : 10 ∉ w) :
    (scan conf name s (35 :: w)).Settled conf name n on calls := by
  have hstart : confChar conf name false s 35 = { s with comment := true } := by
    rw [confChar, if_neg (not_not.mpr h.running)]
    dsimp only
    rw [if_pos ⟨rfl, by simp [h.comment]⟩]
    rfl
  have hbody : scan conf name { s with comment := true } w = { s with comment := true } := by
    refine scan_fixed fun c hc => confChar_comment h.running rfl ?_
    rintro rfl
    exact htext hc
  have hnext : confChar conf name false { s with comment := true } 10 =
      { s with comment := false, line := s.line + 1 } := by
    rw [confChar, if_neg (not_not.mpr h.running)]
    rfl
  rw [scan_cons, hstart, hbody]
  refine ⟨h.running, h.calls, ?_⟩
  rw [hnext]
  exact { h with comment := rfl, line := congrArg (· + 1) h.line }

theorem scan_stores (f : List UInt8 → ConfScan)
    (h : ∀ u c, u ++ [c] <+: w → confChar conf name false (f u) c = f (u ++ [c])) :
    scan conf name (f []) w = f w := by
  induction w using List.reverseRecOn with
  | nil => rfl
  | append_singleton w c ih =>
    rw [scan_append, ih fun u d hu => h u d (hu.trans (List.prefix_append w [c])), scan_cons, scan_nil]
    exact h w c (List.prefix_refl _)

theorem Plain.of_prefix {u : List UInt8} (hw : Plain w) (hu : u ++ [c] <+: w) :
    (c ≠ 10 ∧ c ≠ 35 ∧ c ≠ 91) ∧ c ∈ w ∧ u.length < w.length := by
  have hc : c ∈ w := hu.subset (by simp)
  have hlen := hu.length_le
  rw [List.length_append, List.length_singleton] at hlen
  exact ⟨(hw c hc).2, hc, hlen⟩

theorem cText_of_plain (hw : Plain w) : cText w = w := by
  rw [cText, List.takeWhile_eq_self_iff]
  intro c hc
  simp [(hw c hc).1]

def ConfScan.inName (s : ConfScan) (u : List UInt8) : ConfScan :=
  { s with inModule := true, i := u.length, value := false, key := false, m := u }

def ConfScan.inKey (s : ConfScan) (u : List UInt8) : ConfScan := { s with k := u, i := u.length }

def ConfScan.inValue (s : ConfScan) (key u : List UInt8) : ConfScan :=
  { s with value := true, key := false, k := key, v := u, i := key.length + u.length }

theorem ConfScan.AtLine.scan_name (h : s.AtLine n on calls) {sec : List UInt8} (hsec : Plain sec)
    (hend : 93 ∉ sec) (hlen : sec.length ≤ rsMaxModuleLen) :
    scan conf name s (91 :: sec) = s.inName sec := by
  have hstart : confChar conf name false s 91 = s.inName [] := by
    rw [confChar, if_neg (not_not.mpr h.running)]
    dsimp only
    rw [if_neg (by simp), if_neg (by simp [h.comment]), if_neg (by simp [h.comment]), if_pos rfl]
    rfl
  rw [scan_cons, hstart]
  refine scan_stores s.inName fun u c hu => ?_
  obtain ⟨⟨h10, h35, h91⟩, hc, hlt⟩ := hsec.of_prefix hu
  rw [rsMaxModuleLen] at hlen
  rw [@confChar_module conf name (s.inName u) c h.running h.comment rfl h35 h91, lineAfter_eq _ h10,
    confModule, if_neg, if_neg, if_neg, if_pos]
  · simp [ConfScan.inName]
  · exact fun h => hend (h ▸ hc)
  · simp only [ConfScan.inName, rsMaxModuleLen]
    omega
  · simp [h10]
  · simp only [ConfScan.inName, rsConfModuleMaxLen]
    omega

theorem ConfScan.AtLine.heading_line (h : s.AtLine n on calls) {sec : List UInt8} (hsec : Plain sec)
    (hend : 93 ∉ sec) (hlen : sec.length ≤ rsMaxModuleLen) :
    (scan conf name s (91 :: (sec ++ [93]))).AtLine n (name.isPrefixOf sec) calls := by
  have hiff : (cText (s.inName sec).m).take name.length = name ↔ name.isPrefixOf sec = true := by
    rw [ConfScan.inName, cText_of_plain hsec, List.isPrefixOf_iff_prefix, List.prefix_iff_eq_take, eq_comm]
  rw [← List.cons_append, scan_append, h.scan_name hsec hend hlen, scan_cons, scan_nil,
    @confChar_module conf name (s.inName sec) 93 h.running h.comment rfl (by decide) (by decide), confModule,
    if_neg, if_neg (by decide), if_neg, if_neg (by decide)]
  · split_ifs with heq
    · exact
        { h with
          inModule := rfl
          value := rfl
          key := (hiff.mp heq).symm
          fresh := fun _ => ⟨rfl, rfl⟩ }
    · have hoff : name.isPrefixOf sec = false := Bool.eq_false_iff.mpr fun h => heq (hiff.mpr h)
      rw [hoff]
      exact
        { h with
          inModule := rfl
          value := rfl
          key := rfl
          fresh := nofun }
  · exact Nat.not_lt.mpr hlen
  · rw [rsMaxModuleLen] at hlen
    simp only [ConfScan.inName, rsConfModuleMaxLen]
    omega

theorem ConfScan.AtLine.scan_key (h : s.AtLine n true calls) (hkey : Plain key) (h32 : 32 ∉ key)
    (h9 : 9 ∉ key) (hne : key ≠ []) (hlen : key.length ≤ rsMaxKeyLen) :
    scan conf name s (key ++ [32]) = s.inValue key [] := by
  rw [rsMaxKeyLen] at hlen
  have hstart : s.inKey [] = s := by
    obtain ⟨hk, hi⟩ := h.fresh rfl
    change { s with k := [], i := 0 } = s
    rw [← hk, ← hi]
  have hstore : scan conf name (s.inKey []) key = s.inKey key := by
    refine scan_stores s.inKey fun u c hu => ?_
    obtain ⟨⟨h10, h35, h91⟩, hc, hlt⟩ := hkey.of_prefix hu
    have hc32 : c ≠ 32 := fun h => h32 (h ▸ hc)
    have hc9 : c ≠ 9 := fun h => h9 (h ▸ hc)
    rw [@confChar_key conf name (s.inKey u) c h.running h.comment h.inModule h.key h35 h91,
      lineAfter_eq _ h10, confKey, if_neg, if_neg, if_neg, if_neg, if_pos hc32]
    · simp [ConfScan.inKey]
    · simp only [ConfScan.inKey, rsMaxKeyLen]
      omega
    · simp [h10]
    · simp only [ConfScan.inKey, rsConfKeyMaxLen]
      omega
    · simp [IsBlank, h10, hc32, hc9]
  rw [scan_append, ← hstart, hstore, hstart, scan_cons, scan_nil,
    @confChar_key conf name (s.inKey key) 32 h.running h.comment h.inModule h.key (by decide) (by decide),
    lineAfter_eq _ (by decide), confKey, if_neg, if_neg, if_neg (by simp), if_neg, if_neg (by decide)]
  · simp [ConfScan.inKey, ConfScan.inValue]
  · simp only [ConfScan.inKey, rsMaxKeyLen]
    omega
  · simp only [ConfScan.inKey, rsConfKeyMaxLen]
    omega
  · exact fun h => hne h.1

theorem ConfScan.AtLine.scan_gap (h : s.AtLine n true calls) (hgap : Blanks gap) :
    scan conf name (s.inValue key []) gap = s.inValue key [] := by
  refine scan_fixed fun c hc => ?_
  have hblank := hgap c hc
  have h10 : c ≠ 10 ∧ c ≠ 35 ∧ c ≠ 91 := by rcases hblank with rfl | rfl <;> decide
  rw [@confChar_value conf name (s.inValue key []) c h.running h.comment h.inModule rfl rfl h10.2.1 h10.2.2,
    lineAfter_eq _ h10.1, confValue, if_pos ⟨rfl, Or.inr hblank⟩]

theorem ConfScan.AtLine.not_gap {u : List UInt8} (hfirst : u = [] → ¬ IsBlank c) :
    ¬ ((s.inValue key u).v = [] ∧ IsBlank c) := fun ⟨hu, hblank⟩ => hfirst hu hblank

/-- The counter of the key and the value has passed the limit. -/
theorem ConfScan.AtLine.value_long {u : List UInt8} (h : s.AtLine n true calls) (h35 : c ≠ 35)
    (h91 : c ≠ 91) (hfirst : u = [] → ¬ IsBlank c) (hlong : rsConfValueMaxLen < key.length + u.length) :
    confChar conf name false (s.inValue key u) c =
      { s.inValue key u with status := .failed, line := (s.inValue key u).lineAfter c } := by
  have hi : rsConfValueMaxLen < (s.inValue key u).i := hlong
  rw [@confChar_value conf name (s.inValue key u) c h.running h.comment h.inModule rfl rfl h35 h91,
    confValue, if_neg (not_gap hfirst), if_pos hi]

theorem ConfScan.AtLine.value_store {u : List UInt8} (h : s.AtLine n true calls) (h10 : c ≠ 10)
    (h35 : c ≠ 35) (h91 : c ≠ 91) (hfirst : u = [] → ¬ IsBlank c)
    (hfit : key.length + u.length ≤ rsConfValueMaxLen) :
    confChar conf name false (s.inValue key u) c = s.inValue key (u ++ [c]) := by
  have hi : ¬ rsConfValueMaxLen < (s.inValue key u).i := Nat.not_lt.mpr hfit
  have hv : ¬ rsMaxValueLen < (s.inValue key u).v.length := by
    rw [rsConfValueMaxLen] at hfit
    simp only [ConfScan.inValue, rsMaxValueLen]
    omega
  rw [@confChar_value conf name (s.inValue key u) c h.running h.comment h.inModule rfl rfl h35 h91,
    lineAfter_eq _ h10, confValue, if_neg (not_gap hfirst), if_neg hi, if_neg hv, if_pos ⟨h10, by simp⟩]
  simp [ConfScan.inValue, Nat.add_assoc]

theorem not_blank_of_head {u : List UInt8} (hval : Plain val) (hhead : ∃ c ∈ val.head?, c ≠ 32 ∧ c ≠ 9)
    (hu : u ++ [c] <+: val) : u = [] → ¬ IsBlank c := by
  rintro rfl
  obtain ⟨d, hd, h32, h9⟩ := hhead
  obtain ⟨rest, rfl⟩ := hu
  obtain rfl : c = d := Option.some.inj hd
  have h10 := (hval c (by simp)).2.1
  simp [IsBlank, h10, h32, h9]

theorem ConfScan.AtLine.scan_value (h : s.AtLine n true calls) (hval : Plain val)
    (hhead : ∃ c ∈ val.head?, c ≠ 32 ∧ c ≠ 9) (hfit : key.length + val.length ≤ rsConfValueMaxLen + 1) :
    scan conf name (s.inValue key []) val = s.inValue key val := by
  refine scan_stores (s.inValue key) fun u c hu => ?_
  obtain ⟨⟨h10, h35, h91⟩, -, hlt⟩ := hval.of_prefix hu
  exact h.value_store h10 h35 h91 (not_blank_of_head hval hhead hu) (by omega)

theorem ConfScan.AtLine.scan_too_long (h : s.AtLine n true calls) (hval : Plain val)
    (hhead : ∃ c ∈ val.head?, c ≠ 32 ∧ c ≠ 9) (hkey : key.length ≤ rsConfValueMaxLen)
    (hlong : rsConfValueMaxLen + 1 < key.length + val.length) :
    (scan conf name (s.inValue key []) val).status = .failed ∧
      (scan conf name (s.inValue key []) val).calls = calls := by
  obtain ⟨u, w, rfl, hu⟩ : ∃ u w, val = u ++ w ∧ u.length = rsConfValueMaxLen + 1 - key.length :=
    ⟨val.take _, val.drop _, (List.take_append_drop _ val).symm, List.length_take_of_le (by omega)⟩
  obtain ⟨b, u', rfl⟩ : ∃ b u', u = b :: u' := List.exists_cons_of_ne_nil fun hnil => by simp [hnil] at hu; omega
  -- the byte at which the parser gives up
  obtain ⟨c, w', rfl⟩ : ∃ c w', w = c :: w' := List.exists_cons_of_ne_nil fun hnil => by
    simp only [hnil, List.append_nil] at hlong
    omega
  have hc := hval c (by simp)
  have hstore : scan conf name (s.inValue key []) (b :: u') = s.inValue key (b :: u') :=
    h.scan_value (fun d hd => hval d (List.mem_append_left _ hd)) hhead (by omega)
  have hlimit : rsConfValueMaxLen < key.length + (b :: u').length := by omega
  have hfail : confChar conf name false (s.inValue key (b :: u')) c = _ :=
    h.value_long hc.2.2.1 hc.2.2.2 (fun h => absurd h (List.cons_ne_nil b u')) hlimit
  rw [scan_append, hstore, scan_cons, scan_stopped (by rw [hfail]; nofun), hfail]
  exact ⟨rfl, h.calls⟩

theorem ConfScan.AtLine.value_end (h : s.AtLine n true calls) (hkey : Plain key) (hval : Plain val)
    (hne : val ≠ []) (hfit : key.length + val.length ≤ rsConfValueMaxLen) :
    (confChar conf name false (s.inValue key val) 10).calls = calls ++ [⟨n, key, val⟩] ∧
      (rsConfApply conf key val = .ok →
        (confChar conf name false (s.inValue key val) 10).AtLine (n + 1) true (calls ++ [⟨n, key, val⟩])) := by
  have hi : ¬ rsConfValueMaxLen < (s.inValue key val).i := Nat.not_lt.mpr hfit
  have hv : ¬ rsMaxValueLen < (s.inValue key val).v.length := by
    rw [rsConfValueMaxLen] at hfit
    simp only [ConfScan.inValue, rsMaxValueLen]
    omega
  have hmade : s.calls ++ [⟨s.line, key, val⟩] = calls ++ [⟨n, key, val⟩] := by rw [h.calls, h.line]
  rw [@confChar_value conf name (s.inValue key val) 10 h.running h.comment h.inModule rfl rfl (by decide)
      (by decide), confValue, if_neg (not_gap fun h => absurd h hne), if_neg hi, if_neg hv, if_neg (by decide)]
  simp only [ConfScan.inValue, cText_of_plain hkey, cText_of_plain hval]
  split_ifs with happly
  · refine ⟨hmade, fun _ => ?_⟩
    exact
      { h with
        value := rfl
        key := rfl
        fresh := fun _ => ⟨rfl, rfl⟩
        line := congrArg (· + 1) h.line
        calls := hmade }
  · exact ⟨hmade, fun h => absurd h happly⟩

def ConfScan.Made (made : List ConfCall) (s : ConfScan) : Prop := s.status = .running ∧ s.calls = made

/-- What the parser does with a setting of a section that it takes for its own. -/
structure SettingRun (conf : ConfTable) (name key val : List UInt8) (n : ℕ) (calls : List ConfCall)
    (s : ConfScan) : Prop where
  kept : s.calls = calls
  cut : s.status = .running ↔ key.length + val.length ≤ rsConfValueMaxLen + 1
  long : rsConfValueMaxLen < key.length + val.length → (confChar conf name false s 10).status ≠ .running
  call : key.length + val.length ≤ rsConfValueMaxLen →
    (confChar conf name false s 10).calls = calls ++ [⟨n, key, val⟩]
  next : key.length + val.length ≤ rsConfValueMaxLen → rsConfApply conf key val = .ok →
    (confChar conf name false s 10).AtLine (n + 1) true (calls ++ [⟨n, key, val⟩])

theorem ConfScan.AtLine.setting_line (h : s.AtLine n true calls)
    (hok : (ConfLine.setting key gap val).Ok) :
    SettingRun conf name key val n calls (scan conf name s (ConfLine.setting key gap val).render) := by
  obtain ⟨hkey, h32, h9, hkne, hklen, hgap, hval, hhead, -⟩ := hok
  have hvne : val ≠ [] := by
    rintro rfl
    obtain ⟨c, hc, -⟩ := hhead
    cases hc
  have hscan : scan conf name s (ConfLine.setting key gap val).render =
      scan conf name (s.inValue key []) val := by
    rw [ConfLine.render, ← List.singleton_append, ← List.append_assoc, scan_append,
      h.scan_key hkey h32 h9 hkne hklen, scan_append, h.scan_gap hgap]
  rw [hscan]
  by_cases hfit : key.length + val.length ≤ rsConfValueMaxLen + 1
  · rw [h.scan_value hval hhead hfit]
    exact
      { kept := h.calls
        cut := ⟨fun _ => hfit, fun _ => h.running⟩
        long := fun hlong => by
          rw [h.value_long (by decide) (by decide) (fun h => absurd h hvne) hlong]
          nofun
        call := fun hshort => (h.value_end hkey hval hvne hshort).1
        next := fun hshort => (h.value_end hkey hval hvne hshort).2 }
  · have hklong : key.length ≤ rsConfValueMaxLen := hklen.trans (by decide)
    obtain ⟨hfail, hkept⟩ : (scan conf name (s.inValue key []) val).status = .failed ∧ _ :=
      h.scan_too_long hval hhead hklong (Nat.lt_of_not_le hfit)
    have hstop : (scan conf name (s.inValue key []) val).status ≠ .running := by rw [hfail]; nofun
    exact
      { kept := hkept
        cut := ⟨fun hrun => absurd hrun hstop, fun h => absurd h hfit⟩
        long := fun _ => by rwa [confChar_stopped hstop]
        call := fun hshort => absurd (hshort.trans (Nat.le_succ _)) hfit
        next := fun hshort => absurd (hshort.trans (Nat.le_succ _)) hfit }

theorem settingsOf_line {x : ConfCall} (hx : x ∈ settingsOf name n cur ls) : n ≤ x.line := by
  induction ls generalizing n cur with
  | nil => cases hx
  | cons l ls ih =>
    cases l with
    | setting key gap val =>
      rw [settingsOf] at hx
      rcases List.mem_append.mp hx with hx | hx
      · split_ifs at hx
        · rw [List.mem_singleton.mp hx]
        · cases hx
      · exact (Nat.le_succ n).trans (ih hx)
    | _ => exact (Nat.le_succ n).trans (ih hx)

theorem taken_iff {cur : Option (List UInt8)} : Taken name cur = true ↔ ∃ s ∈ cur, name <+: s := by
  cases cur <;> simp [Taken]

theorem scan_confText (newline : Bool) (s : ConfScan) (l : ConfLine) (ls : List ConfLine) :
    scan conf name s (confText newline (l :: ls)) =
      if ls.isEmpty && !newline then scan conf name s l.render
      else scan conf name (confChar conf name false (scan conf name s l.render) 10) (confText newline ls) := by
  rw [confText, scan_append]
  split_ifs <;> simp

/-- A line that makes no call leaves the rest to the lines behind it. -/
theorem ConfScan.Settled.goes_on (h : (scan conf name s l.render).Settled conf name n (Taken name cur) calls)
    (ih : ∀ t : ConfScan, t.AtLine (n + 1) (Taken name cur) calls →
      ((scan conf name t (confText newline ls)).Made (calls ++ settingsOf name (n + 1) cur ls) ↔
        SettingsOk name newline cur ls)) :
    (scan conf name s (confText newline (l :: ls))).Made (calls ++ settingsOf name (n + 1) cur ls) ↔
      SettingsOk name newline cur ls := by
  rw [scan_confText]
  split_ifs with hcut
  · obtain rfl : ls = [] := List.isEmpty_iff.mp (Bool.and_eq_true_iff.mp hcut).1
    simp [settingsOf, SettingsOk, ConfScan.Made, h.running, h.calls]
  · exact ih _ h.next

theorem ConfScan.AtLine.untaken_line (h : s.AtLine n false calls)
    (hok : (ConfLine.setting key gap val).Ok) :
    (scan conf name s (ConfLine.setting key gap val).render).Settled conf name n false calls := by
  obtain ⟨hkey, -, -, -, -, hgap, hval, -⟩ := hok
  rw [h.skip_all]
  · exact h.settled
  · intro c hc
    rw [ConfLine.render] at hc
    simp only [List.mem_append, List.mem_cons] at hc
    rcases hc with hc | rfl | hc | hc
    · exact (hkey c hc).2
    · decide
    · rcases hgap c hc with rfl | rfl <;> decide
    · exact (hval c hc).2
  · exact nofun

/-- A setting of a section that the parser takes for its own. -/
theorem SettingRun.goes_on {sec : List UInt8} (hpre : name <+: sec)
    (h : SettingRun conf name key val n calls (scan conf name s (ConfLine.setting key gap val).render))
    (hreg : sec = name → rsConfApply conf key val = .ok)
    (ih : ∀ t : ConfScan, t.AtLine (n + 1) true (calls ++ [⟨n, key, val⟩]) →
      ((scan conf name t (confText newline ls)).Made
        (calls ++ [⟨n, key, val⟩] ++ settingsOf name (n + 1) (some sec) ls) ↔
        SettingsOk name newline (some sec) ls)) :
    (scan conf name s (confText newline (.setting key gap val :: ls))).Made
        (calls ++ settingsOf name n (some sec) (.setting key gap val :: ls)) ↔
      SettingsOk name newline (some sec) (.setting key gap val :: ls) := by
  have hsetting (cut : Bool) : SettingOk name (some sec) cut key val ↔
      if cut then sec ≠ name ∧ key.length + val.length ≤ rsConfValueMaxLen + 1
      else sec = name ∧ key.length + val.length ≤ rsConfValueMaxLen := by
    simp [SettingOk, hpre]
  rw [scan_confText, SettingsOk, hsetting, settingsOf]
  by_cases hcut : (ls.isEmpty && !newline) = true
  · -- the last line is not applied
    obtain rfl : ls = [] := List.isEmpty_iff.mp (Bool.and_eq_true_iff.mp hcut).1
    rw [if_pos hcut, if_pos hcut, ← h.cut]
    by_cases hsec : sec = name
    · simp [settingsOf, ConfScan.Made, h.kept, hsec]
    · simp [settingsOf, SettingsOk, ConfScan.Made, h.kept, hsec]
  · rw [if_neg hcut, if_neg hcut]
    by_cases hshort : key.length + val.length ≤ rsConfValueMaxLen
    · by_cases hsec : sec = name
      · have hih := ih _ (h.next hshort (hreg hsec))
        rw [if_pos (congrArg some hsec), ← List.append_assoc, hih]
        simp [hsec, hshort]
      · -- the call for a section with a longer name
        rw [if_neg (by simpa using hsec), List.nil_append]
        refine ⟨fun hmade => ?_, fun hset => absurd hset.1.1 hsec⟩
        have hcalls := scan_calls conf name
          (confChar conf name false (scan conf name s (ConfLine.setting key gap val).render) 10)
          (confText newline ls)
        rw [hmade.2, h.call hshort, List.prefix_append_right_inj] at hcalls
        have hline := settingsOf_line (hcalls.subset (List.mem_singleton_self _))
        exact absurd hline (Nat.not_succ_le_self n)
    · refine ⟨fun hmade => ?_, fun hset => absurd hset.1.2 hshort⟩
      have hstop := h.long (Nat.lt_of_not_le hshort)
      rw [scan_stopped hstop] at hmade
      exact absurd hmade.1 hstop

/-- The parser makes the calls of the wanted settings exactly when it treats each as it should. -/
theorem scan_lines (hs : s.AtLine n (Taken name cur) calls) (hok : ∀ l ∈ ls, l.Ok)
    (hreg : ∀ x ∈ settingsOf name n cur ls, rsConfApply conf x.key x.val = .ok) :
    (scan conf name s (confText newline ls)).Made (calls ++ settingsOf name n cur ls) ↔
      SettingsOk name newline cur ls := by
  induction ls generalizing s n cur calls with
  | nil => simp [confText, settingsOf, SettingsOk, ConfScan.Made, hs.running, hs.calls]
  | cons l ls ih =>
    have hl := hok l List.mem_cons_self
    have hls : ∀ l ∈ ls, l.Ok := fun k hk => hok k (List.mem_cons_of_mem l hk)
    cases l with
    | blank w => exact (hs.blank_line hl).goes_on fun t ht => ih ht hls hreg
    | comment text => exact (hs.comment_line hl).goes_on fun t ht => ih ht hls hreg
    | heading sec =>
      obtain ⟨hplain, hend, hlen⟩ := hl
      have hline : (scan conf name s (ConfLine.heading sec).render).AtLine n (Taken name (some sec)) calls :=
        hs.heading_line hplain hend hlen
      exact hline.settled.goes_on fun t ht => ih ht hls hreg
    | setting key gap val =>
      cases htaken : Taken name cur with
      | false =>
        have hcur : cur ≠ some name := by
          rintro rfl
          rw [taken_iff.mpr ⟨name, rfl, List.prefix_refl name⟩] at htaken
          cases htaken
        have hset (cut : Bool) : SettingOk name cur cut key val := fun s hs hpre => by
          rw [taken_iff.mpr ⟨s, hs, hpre⟩] at htaken
          cases htaken
        rw [settingsOf, if_neg hcur, List.nil_append] at hreg ⊢
        rw [htaken] at hs
        have hline : (scan conf name s (ConfLine.setting key gap val).render).Settled conf name n false calls :=
          hs.untaken_line hl
        rw [← htaken] at hline
        rw [hline.goes_on fun t ht => ih ht hls hreg, SettingsOk]
        exact (and_iff_right (hset _)).symm
      | true =>
        obtain ⟨sec, rfl, hpre⟩ := taken_iff.mp htaken
        rw [htaken] at hs
        refine (hs.setting_line hl).goes_on hpre (fun hsec => ?_) fun t ht => ?_
        · exact hreg ⟨n, key, val⟩ (by simp [settingsOf, hsec])
        · exact ih (htaken.symm ▸ ht) hls fun x hx => hreg x (by rw [settingsOf]; exact List.mem_append_right _ hx)

/-- A registered key can be set when the pool has room. -/
theorem rsConfApply_registered {ty : ConfType} (hget : conf.get key = some ty) (hty : ty ≠ .null)
    (hpool : ∀ n, conf.palloc n = true) : rsConfApply conf key val = .ok := by
  rw [rsConfApply, hget]
  cases ty with
  | null => exact absurd rfl hty
  | str => exact if_pos (hpool _)
  | _ => rfl

theorem ConfScan.made_iff (s : ConfScan) (made : List ConfCall) :
    s.code = some .ok ∧ s.calls = made ↔ s.Made made := by
  cases h : s.status <;> simp [ConfScan.code, ConfScan.Made, h]

/-- The parser returns `RS_OK` and applies exactly the settings of the sections with the name, in
their order, if and only if each setting is one that it treats as it should. -/
theorem conf_applied_iff (conf : ConfTable) (name : List UInt8) {lines : List ConfLine}
    (hok : ∀ l ∈ lines, l.Ok) (hpool : ∀ n, conf.palloc n = true)
    (hreg : ∀ x ∈ settingsOf name 0 none lines, ∃ ty, conf.get x.key = some ty ∧ ty ≠ .null)
    (newline : Bool) (chunks : List (List UInt8)) (hchunks : chunks.flatten = confText newline lines) :
    ((rsInitConf conf name chunks).code = some .ok ∧
      (rsInitConf conf name chunks).calls = settingsOf name 0 none lines) ↔
      SettingsOk name newline none lines := by
  have hinit : ConfScan.init.AtLine 0 (Taken name none) [] := ⟨rfl, rfl, rfl, rfl, rfl, nofun, rfl, rfl⟩
  rw [ConfScan.made_iff, rsInitConf_eq_scan, hchunks]
  refine scan_lines hinit hok fun x hx => ?_
  obtain ⟨ty, hget, hty⟩ := hreg x hx
  exact rsConfApply_registered hget hty hpool

def stringConf : ConfTable := ⟨fun _ => some .str, fun _ => true⟩

/-- `[core]`, `# test`, `test 1`, a blank line, `[slave]`, `a b`, `[core]` and `test1`, `abc`. -/
def coreLines : List ConfLine :=
  [.heading [99, 111, 114, 101], .comment [32, 116, 101, 115, 116], .setting [116, 101, 115, 116] [] [49],
    .blank [32], .heading [115, 108, 97, 118, 101], .setting [97] [] [98], .heading [99, 111, 114, 101],
    .setting [116, 101, 115, 116, 49] [9] [97, 98, 99]]

theorem conf_applied_core : (∀ l ∈ coreLines, l.Ok) ∧
    SettingsOk [99, 111, 114, 101] true none coreLines ∧
    (rsInitConf stringConf [99, 111, 114, 101]
      [(confText true coreLines).take 19, (confText true coreLines).drop 19]).code = some .ok ∧
    (rsInitConf stringConf [99, 111, 114, 101]
      [(confText true coreLines).take 19, (confText true coreLines).drop 19]).calls =
        [⟨2, [116, 101, 115, 116], [49]⟩, ⟨7, [116, 101, 115, 116, 49], [97, 98, 99]⟩] := by
  have hok : ∀ l ∈ coreLines, l.Ok := by
    simp [coreLines, ConfLine.Ok, Plain, Blanks, rsMaxModuleLen, rsMaxKeyLen, rsConfValueMaxLen]
  have hset : SettingsOk [99, 111, 114, 101] true none coreLines := by
    simp [coreLines, SettingsOk, SettingOk, rsConfValueMaxLen]
  have hcalls := (conf_applied_iff stringConf [99, 111, 114, 101] hok (fun _ => rfl)
    (fun x hx => ⟨.str, rfl, nofun⟩) true [(confText true coreLines).take 19,
      (confText true coreLines).drop 19] (by simp)).mpr hset
  exact ⟨hok, hset, hcalls⟩

/-- The setting in the last line is not applied when the file does not end in a newline. -/
theorem conf_drops_last_line : ¬ ∀ (conf : ConfTable) (name : List UInt8) (lines : List ConfLine)
    (newline : Bool) (chunks : List (List UInt8)), (∀ l ∈ lines, l.Ok) → (∀ n, conf.palloc n = true) →
    (∀ x ∈ settingsOf name 0 none lines, ∃ ty, conf.get x.key = some ty ∧ ty ≠ .null) →
    chunks.flatten = confText newline lines →
    (rsInitConf conf name chunks).code = some .ok ∧
      (rsInitConf conf name chunks).calls = settingsOf name 0 none lines := by
  intro h
  have hok : ∀ l ∈ [ConfLine.heading [97], .setting [107] [] [118]], l.Ok := by
    simp [ConfLine.Ok, Plain, Blanks, rsMaxModuleLen, rsMaxKeyLen, rsConfValueMaxLen]
  have hcalls := (h stringConf [97] _ false [[91, 97, 93, 10, 107, 32, 118]] hok
    (fun _ => rfl) (fun x hx => ⟨.str, rfl, nofun⟩) rfl).2
  exact absurd hcalls (by decide)

end MySQLSyncer.Core
