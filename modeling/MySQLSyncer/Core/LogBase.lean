import MySQLSyncer.Lib.Cursor

/-! # A log line

`rs_log_base` fills its array through a pointer and hands it to `write`. A store outside the array
is undefined. The time, the thread and the formatted message are arguments.
-/
namespace MySQLSyncer.Core
open Lib

def rsMaxErrorStr : ℕ := 2048

/-- `sizeof("2012-12-12 12:12:12")`; the macro `TIME_LEN` takes one away, without brackets. -/
def timeSize : ℕ := 20

/-- `"[ERROR] "`, `"[INFO]  "` and `"[DEBUG] "` -/
def rsLogLevels : Fin 3 → List UInt8
  | 0 => [91, 69, 82, 82, 79, 82, 93, 32]
  | 1 => [91, 73, 78, 70, 79, 93, 32, 32]
  | 2 => [91, 68, 69, 66, 85, 71, 93, 32]

/-- `rs_log_levels[rs_min(level, RS_LOG_MAX)]` -/
def levelStr (level : UInt32) : List UInt8 := rsLogLevels ⟨min level.toNat 2, by omega⟩

/-- `"<thread : %lu> "` -/
def threadText (thread : UInt64) : List UInt8 :=
  [60, 116, 104, 114, 101, 97, 100, 32, 58, 32] ++ decimal thread.toNat ++ [62, 32]

def signedDecimal (n : Int32) : List UInt8 :=
  if n.toInt < 0 then 45 :: decimal n.toInt.natAbs else decimal n.toInt.natAbs

/-- `" ---- (%d: "` -/
def errText (err : Int32) : List UInt8 := [32, 45, 45, 45, 45, 32, 40] ++ signedDecimal err ++ [58, 32]

/-- `rs_sys_errlist` has `RS_SYS_NERR` messages; any other number is `"Unknown error"`. -/
def errMessage (sysErrlist : Fin 135 → List UInt8) (err : Int32) : List UInt8 :=
  if h : err.toUInt32.toNat < 135 then sysErrlist ⟨err.toUInt32.toNat, h⟩
  else [85, 110, 107, 110, 111, 119, 110, 32, 101, 114, 114, 111, 114]

def rsStrerror (sysErrlist : Fin 135 → List UInt8) (err : Int32) (c : Cursor) (size : ℕ) : Option Cursor :=
  let msg := errMessage sysErrlist err
  c.put (msg.take (min size msg.length))

/-- Near its end the line is cut, with three dots. -/
def logCut (c : Cursor) : Option Cursor :=
  if rsMaxErrorStr - 50 < c.pos then (c.back (rsMaxErrorStr - 50)).put [46, 46, 46] else some c

def logErr (sysErrlist : Fin 135 → List UInt8) (err : Int32) (c : Cursor) : Option Cursor :=
  if err = 0 then some c
  else do
    let c ← logCut c
    let c ← c.print (rsMaxErrorStr - c.pos) (errText err)
    let c ← rsStrerror sysErrlist err c (rsMaxErrorStr - c.pos)
    if c.pos < rsMaxErrorStr then c.put [41] else some c

def logEnd (c : Cursor) : Option Cursor :=
  (if rsMaxErrorStr - 1 < c.pos then c.back (rsMaxErrorStr - 1) else c).put [10]

def logHead (timestr : Vector UInt8 20) (thread : UInt64) (level : UInt32) : Option Cursor := do
  let c ← Cursor.put ⟨freshBlock rsMaxErrorStr, 0⟩ (timestr.toList.take (timeSize - 1))
  let c ← c.put [32]
  let c ← c.put (levelStr level)
  c.print (rsMaxErrorStr - c.pos) (threadText thread)

/-- The array and the length that are passed to `write`, if the level is logged. -/
def rsLogBase (rsLogLevel : UInt32) (sysErrlist : Fin 135 → List UInt8) (timestr : Vector UInt8 20)
    (thread : UInt64) (err : Int32) (level : UInt32) (msg : List UInt8) : Option (Option Cursor) :=
  if rsLogLevel < level then some none
  else do
    let c ← logHead timestr thread level
    let c ← c.print (rsMaxErrorStr - timeSize - 1 - (levelStr level).length) msg
    let c ← logErr sysErrlist err c
    (logEnd c).map some

def lineHead (timestr : Vector UInt8 20) (thread : UInt64) (level : UInt32) : List UInt8 :=
  timestr.toList.take (timeSize - 1) ++ [32] ++ levelStr level ++ threadText thread

def cutLine (line : List UInt8) : List UInt8 :=
  if rsMaxErrorStr - 50 < line.length then line.take (rsMaxErrorStr - 50) ++ [46, 46, 46] else line

def errLine (sysErrlist : Fin 135 → List UInt8) (err : Int32) (line : List UInt8) : List UInt8 :=
  if err = 0 then line
  else
    let line := cutLine line ++ errText err
    let line := line ++ (errMessage sysErrlist err).take (rsMaxErrorStr - line.length)
    if line.length < rsMaxErrorStr then line ++ [41] else line

def logLine (sysErrlist : Fin 135 → List UInt8) (timestr : Vector UInt8 20) (thread : UInt64) (err : Int32)
    (level : UInt32) (msg : List UInt8) : List UInt8 :=
  (errLine sysErrlist err (lineHead timestr thread level ++ msg)).take (rsMaxErrorStr - 1) ++ [10]

variable {sysErrlist : Fin 135 → List UInt8} {timestr : Vector UInt8 20} {thread : UInt64} {err : Int32}
  {rsLogLevel level : UInt32} {msg line : List UInt8} {c : Cursor}

@[simp] theorem length_levelStr (level : UInt32) : (levelStr level).length = 8 := by
  have hall : ∀ i : Fin 3, (rsLogLevels i).length = 8 := by decide
  exact hall _

theorem length_threadText (thread : UInt64) : (threadText thread).length = 12 + (decimal thread.toNat).length := by
  simp [threadText]
  omega

theorem length_lineHead (timestr : Vector UInt8 20) (thread : UInt64) (level : UInt32) :
    (lineHead timestr thread level).length = 40 + (decimal thread.toNat).length := by
  simp [lineHead, length_threadText, timeSize]
  omega

theorem length_decimal_thread (thread : UInt64) : (decimal thread.toNat).length ≤ 20 :=
  length_decimal_of_lt (by decide) (by have := thread.toNat_lt; omega)

theorem length_errText (err : Int32) : (errText err).length ≤ 20 := by
  have hlow := err.le_toInt
  have hhigh := err.toInt_lt
  have hdigits : (decimal err.toInt.natAbs).length ≤ 10 := length_decimal_of_lt (by decide) (by omega)
  have hsigned : (signedDecimal err).length ≤ 11 := by
    rw [signedDecimal]
    split_ifs
    · rw [List.length_cons]
      omega
    · omega
  simp only [errText, List.length_append, List.length_cons, List.length_nil]
  omega

theorem length_cutLine (line : List UInt8) : (cutLine line).length ≤ 2001 := by
  have hmax : rsMaxErrorStr = 2048 := rfl
  rw [cutLine]
  split_ifs with h
  · simp only [List.length_append, List.length_take, List.length_cons, List.length_nil]
    omega
  · omega

theorem logCut_holds (h : c.Holds rsMaxErrorStr line) :
    ∃ d, logCut c = some d ∧ d.Holds rsMaxErrorStr (cutLine line) := by
  have hmax : rsMaxErrorStr = 2048 := rfl
  have hpos := h.pos
  rw [logCut, cutLine, ← hpos]
  split_ifs with hfull
  · refine (h.back (by omega)).put _ ?_
    simp only [List.length_take, List.length_cons, List.length_nil]
    omega
  · exact ⟨c, rfl, h⟩

theorem logErr_holds (sysErrlist : Fin 135 → List UInt8) (err : Int32) (h : c.Holds rsMaxErrorStr line) :
    ∃ d, logErr sysErrlist err c = some d ∧ d.Holds rsMaxErrorStr (errLine sysErrlist err line) := by
  have hmax : rsMaxErrorStr = 2048 := rfl
  by_cases hzero : err = 0
  · rw [logErr, if_pos hzero, errLine, if_pos hzero]
    exact ⟨c, rfl, h⟩
  have herr := length_errText err
  have hcut := length_cutLine line
  obtain ⟨c₁, h₁, hc₁⟩ := logCut_holds h
  have hpos₁ := hc₁.pos
  obtain ⟨c₂, h₂, hc₂⟩ := hc₁.print (rsMaxErrorStr - c₁.pos) (errText err) (by omega) (by omega)
  have hpos₂ := hc₂.pos
  have hle₂ := hc₂.le
  obtain ⟨c₃, h₃, hc₃⟩ := hc₂.put ((errMessage sysErrlist err).take (rsMaxErrorStr - c₂.pos)) (by
    rw [List.length_take]
    omega)
  have hmsg : rsStrerror sysErrlist err c₂ (rsMaxErrorStr - c₂.pos) = some c₃ := by
    rw [rsStrerror, ← List.take_take, List.take_length, h₃]
  have hrun : logErr sysErrlist err c = if c₃.pos < rsMaxErrorStr then c₃.put [41] else some c₃ := by
    simp only [logErr, if_neg hzero, h₁, h₂, hmsg, Option.bind_eq_bind, Option.bind_some]
  rw [hpos₂] at hc₃
  generalize hA : cutLine line ++ errText err ++ (errMessage sysErrlist err).take
    (rsMaxErrorStr - (cutLine line ++ errText err).length) = A at hc₃
  have hline : errLine sysErrlist err line = if A.length < rsMaxErrorStr then A ++ [41] else A := by
    subst hA
    exact if_neg hzero
  rw [hrun, hline, hc₃.pos]
  split_ifs with hroom
  · exact hc₃.put _ (by rw [List.length_singleton]; omega)
  · exact ⟨c₃, rfl, hc₃⟩

theorem logEnd_holds (h : c.Holds rsMaxErrorStr line) :
    ∃ d, logEnd c = some d ∧ d.Holds rsMaxErrorStr (line.take (rsMaxErrorStr - 1) ++ [10]) := by
  have hmax : rsMaxErrorStr = 2048 := rfl
  have hpos := h.pos
  rw [logEnd]
  split_ifs with hfull
  · refine (h.back (by omega)).put _ ?_
    rw [List.length_take, List.length_singleton]
    omega
  · rw [List.take_of_length_le (by omega)]
    refine h.put _ ?_
    rw [List.length_singleton]
    omega

theorem logHead_holds (timestr : Vector UInt8 20) (thread : UInt64) (level : UInt32) :
    ∃ c, logHead timestr thread level = some c ∧ c.Holds rsMaxErrorStr (lineHead timestr thread level) := by
  have hmax : rsMaxErrorStr = 2048 := rfl
  have hdigits := length_decimal_thread thread
  have hthread := length_threadText thread
  have hlevel := length_levelStr level
  have htime : (timestr.toList.take (timeSize - 1)).length = 19 := by simp [timeSize]
  obtain ⟨c₁, h₁, hc₁⟩ := (Cursor.holds_fresh rsMaxErrorStr).put (timestr.toList.take (timeSize - 1))
    (by rw [List.length_nil]; omega)
  rw [List.nil_append] at hc₁
  obtain ⟨c₂, h₂, hc₂⟩ := hc₁.put [32] (by rw [List.length_singleton]; omega)
  have hlen₂ : (timestr.toList.take (timeSize - 1) ++ [32]).length = 20 := by
    rw [List.length_append, htime, List.length_singleton]
  obtain ⟨c₃, h₃, hc₃⟩ := hc₂.put (levelStr level) (by omega)
  have hlen₃ : (timestr.toList.take (timeSize - 1) ++ [32] ++ levelStr level).length = 28 := by
    rw [List.length_append, hlen₂, hlevel]
  have hpos₃ := hc₃.pos
  obtain ⟨c₄, h₄, hc₄⟩ := hc₃.print (rsMaxErrorStr - c₃.pos) (threadText thread) (by omega) (by omega)
  exact ⟨c₄, by simp only [logHead, h₁, h₂, h₃, h₄, Option.bind_eq_bind, Option.bind_some], hc₄⟩

theorem rsLogBase_line (sysErrlist : Fin 135 → List UInt8) (timestr : Vector UInt8 20) (err : Int32)
    (hlevel : ¬ rsLogLevel < level) (hfits : msg.length + (decimal thread.toNat).length ≤ 2007) :
    ∃ c, rsLogBase rsLogLevel sysErrlist timestr thread err level msg = some (some c) ∧
      c.Holds rsMaxErrorStr (logLine sysErrlist timestr thread err level msg) := by
  have hmax : rsMaxErrorStr = 2048 := rfl
  have htime : timeSize = 20 := rfl
  have hdigits := length_decimal_pos thread.toNat
  have hhead := length_lineHead timestr thread level
  have hstr := length_levelStr level
  obtain ⟨c₁, h₁, hc₁⟩ := logHead_holds timestr thread level
  obtain ⟨c₂, h₂, hc₂⟩ := hc₁.print (rsMaxErrorStr - timeSize - 1 - (levelStr level).length) msg
    (by omega) (by omega)
  obtain ⟨c₃, h₃, hc₃⟩ := logErr_holds sysErrlist err hc₂
  obtain ⟨c₄, h₄, hc₄⟩ := logEnd_holds hc₃
  refine ⟨c₄, ?_, hc₄⟩
  rw [rsLogBase, if_neg hlevel]
  simp only [h₁, h₂, h₃, h₄, Option.bind_eq_bind, Option.bind_some, Option.map_some]

/-- Of a longer message the last bytes are written behind the array. -/
theorem rsLogBase_outside (hlevel : ¬ rsLogLevel < level)
    (hlong : 2007 < msg.length + (decimal thread.toNat).length) :
    rsLogBase rsLogLevel sysErrlist timestr thread err level msg = none := by
  have hmax : rsMaxErrorStr = 2048 := rfl
  have htime : timeSize = 20 := rfl
  have hdigits := length_decimal_pos thread.toNat
  have hhead := length_lineHead timestr thread level
  have hstr := length_levelStr level
  obtain ⟨c, h, hc⟩ := logHead_holds timestr thread level
  have hprint : c.print (rsMaxErrorStr - timeSize - 1 - (levelStr level).length) msg = none :=
    hc.print_outside (by omega) (by omega)
  rw [rsLogBase, if_neg hlevel]
  simp only [h, hprint, Option.bind_eq_bind, Option.bind_some, Option.bind_none]

/-- Every byte is written inside the array, and no more than the array is passed to `write`, if and
only if the level is not logged or the message leaves room for what stands in front of it. -/
theorem rsLogBase_inside_iff (rsLogLevel : UInt32) (sysErrlist : Fin 135 → List UInt8)
    (timestr : Vector UInt8 20) (thread : UInt64) (err : Int32) (level : UInt32) (msg : List UInt8) :
    (∃ r, rsLogBase rsLogLevel sysErrlist timestr thread err level msg = some r ∧
        ∀ c ∈ r, c.pos ≤ rsMaxErrorStr) ↔
      rsLogLevel < level ∨ msg.length + (decimal thread.toNat).length ≤ 2007 := by
  by_cases hlevel : rsLogLevel < level
  · have hnone : rsLogBase rsLogLevel sysErrlist timestr thread err level msg = some none := if_pos hlevel
    exact iff_of_true ⟨none, hnone, nofun⟩ (Or.inl hlevel)
  · rw [or_iff_right hlevel]
    constructor
    · rintro ⟨r, hr, -⟩
      by_contra hlong
      rw [rsLogBase_outside hlevel (Nat.not_le.mp hlong)] at hr
      exact nomatch hr
    · intro hfits
      obtain ⟨c, hc, hholds⟩ := rsLogBase_line sysErrlist timestr err hlevel hfits
      refine ⟨some c, hc, fun d hd => ?_⟩
      obtain rfl := Option.some.inj hd
      exact hholds.pos ▸ hholds.le

/-- A message of 1993 bytes from a thread whose number has 15 digits. -/
theorem not_rsLogBase_inside : ¬ ∀ (rsLogLevel : UInt32) (sysErrlist : Fin 135 → List UInt8)
    (timestr : Vector UInt8 20) (thread : UInt64) (err : Int32) (level : UInt32) (msg : List UInt8),
    ∃ r, rsLogBase rsLogLevel sysErrlist timestr thread err level msg = some r ∧
      ∀ c ∈ r, c.pos ≤ rsMaxErrorStr := by
  intro h
  obtain ⟨r, hr, -⟩ := h 1 (fun _ => []) (Vector.replicate 20 48) 139637976727296 0 1 (List.replicate 1993 97)
  have hdigits : (decimal (139637976727296 : UInt64).toNat).length = 15 := by decide +kernel
  rw [rsLogBase_outside (by decide) (by rw [hdigits, List.length_replicate]; norm_num)] at hr
  exact nomatch hr

end MySQLSyncer.Core
