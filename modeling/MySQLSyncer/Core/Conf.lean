import MySQLSyncer.Core.Code
import Mathlib.Tactic

/-! # The configuration parser

`rs_init_conf` with its flags and its three arrays. An array is the list of the bytes
stored since its pointer was set to its start; a store behind the end is undefined. The
table of registered keys answers the calls of `rs_conf_apply`.
-/
namespace MySQLSyncer.Core

/-- The `RS_CONF_*` types of a registered key. -/
inductive ConfType where
  | null
  | int32
  | uint32
  | str
  | double
  deriving DecidableEq, Repr

structure ConfTable where
  get : List UInt8 → Option ConfType
  palloc : ℕ → Bool

/-- `rs_conf_apply`, as far as its return value goes. -/
def rsConfApply (conf : ConfTable) (key val : List UInt8) : RsCode :=
  match conf.get key with
  | none => .err
  | some .int32 | some .uint32 | some .double => .ok
  | some .str => if conf.palloc (val.length + 1) then .ok else .err
  | some .null => .err

/-- `RS_MAX_MODULE_LEN`, `RS_MAX_KEY_LEN` and `RS_MAX_VALUE_LEN` -/
def rsMaxModuleLen : ℕ := 6
def rsMaxKeyLen : ℕ := 12
def rsMaxValueLen : ℕ := 4096

/-- `RS_CONF_MODULE_MAX_LEN`, `RS_CONF_KEY_MAX_LEN` and `RS_CONF_VALUE_MAX_LEN` -/
def rsConfModuleMaxLen : ℕ := 20
def rsConfKeyMaxLen : ℕ := 20
def rsConfValueMaxLen : ℕ := 200

/-- The parser is in its loop, has gone to `free` with an error, or behind a store outside an
array. -/
inductive ConfStatus where
  | running
  | failed
  | undefined
  deriving DecidableEq, Repr

/-- A call of `rs_conf_apply`, with the number of newlines in front of it. -/
structure ConfCall where
  line : ℕ
  key : List UInt8
  val : List UInt8
  deriving DecidableEq, Repr

/-- The variables of the loop. The last two fields record the newlines read and the calls. -/
structure ConfScan where
  comment : Bool
  inModule : Bool
  key : Bool
  value : Bool
  i : ℕ
  m : List UInt8
  k : List UInt8
  v : List UInt8
  status : ConfStatus
  line : ℕ
  calls : List ConfCall
  deriving DecidableEq, Repr

def ConfScan.init : ConfScan :=
  { comment := false, inModule := false, key := false, value := false, i := 0, m := [], k := [], v := []
    status := .running, line := 0, calls := [] }

/-- What a C function sees of the bytes in front of a terminator. -/
def cText (w : List UInt8) : List UInt8 := w.takeWhile (· ≠ 0)

def IsBlank (c : UInt8) : Prop := c = 10 ∨ c = 32 ∨ c = 9

instance : DecidablePred IsBlank := fun _ => inferInstanceAs (Decidable (_ ∨ _))

def confModule (name : List UInt8) (eof : Bool) (s : ConfScan) (c : UInt8) : ConfScan :=
  if rsConfModuleMaxLen < s.i then { s with status := .failed }
  else if c = 10 ∨ eof then { s with status := .failed }
  else if rsMaxModuleLen < s.m.length then { s with status := .undefined }
  else if c ≠ 93 then { s with m := s.m ++ [c], i := s.i + 1 }
  -- `strncmp` over the length of the name
  else if (cText s.m).take name.length = name then { s with inModule := false, key := true, k := [], i := 0 }
  else { s with inModule := false }

def confKey (eof : Bool) (s : ConfScan) (c : UInt8) : ConfScan :=
  if s.k = [] ∧ IsBlank c then s
  else if rsConfKeyMaxLen < s.i then { s with status := .failed }
  else if (c = 10 ∨ eof) ∧ s.k ≠ [] then { s with status := .failed }
  else if rsMaxKeyLen < s.k.length then { s with status := .undefined }
  else if c ≠ 32 then { s with k := s.k ++ [c], i := s.i + 1 }
  else { s with value := true, key := false, v := [] }

/-- `i` still counts the bytes of the key. -/
def confValue (conf : ConfTable) (eof : Bool) (s : ConfScan) (c : UInt8) : ConfScan :=
  if s.v = [] ∧ IsBlank c then s
  else if rsConfValueMaxLen < s.i then { s with status := .failed }
  else if rsMaxValueLen < s.v.length then { s with status := .undefined }
  else if c ≠ 10 ∧ ¬ eof then { s with v := s.v ++ [c], i := s.i + 1 }
  else
    let t : ConfScan := { s with calls := s.calls ++ [⟨s.line, cText s.k, cText s.v⟩] }
    if rsConfApply conf (cText s.k) (cText s.v) = .ok then
      { t with value := false, key := true, k := [], i := 0 }
    else { t with status := .failed }

def confChar (conf : ConfTable) (name : List UInt8) (eof : Bool) (s : ConfScan) (c : UInt8) : ConfScan :=
  if s.status ≠ .running then s
  else
    let t :=
      if c = 35 ∧ ¬ s.comment then { s with comment := true }
      else if s.comment ∧ (c = 10 ∨ eof) then { s with comment := false }
      else if s.comment then s
      else if c = 91 then { s with inModule := true, i := 0, value := false, key := false, m := [] }
      else if s.inModule then confModule name eof s c
      else if s.key then confKey eof s c
      else if s.value then confValue conf eof s c
      else s
    { t with line := if c = 10 then s.line + 1 else s.line }

/-- The loop over the reads. The last one returns 0: `eof` is set, and the inner loop runs over
an empty buffer. -/
def rsInitConf (conf : ConfTable) (name : List UInt8) (chunks : List (List UInt8)) : ConfScan :=
  let s := chunks.foldl (fun s buf => buf.foldl (confChar conf name false) s) ConfScan.init
  ([] : List UInt8).foldl (confChar conf name true) s

def ConfScan.code (s : ConfScan) : Option RsCode :=
  match s.status with
  | .running => some .ok
  | .failed => some .err
  | .undefined => none

end MySQLSyncer.Core
