import MySQLSyncer.Master.ParseBinlog

/-! # Table map events

The format as the server writes it, and what the walk of the table map handler makes of it.
-/
namespace MySQLSyncer.Master
open Lib MySQLSyncer.Core

def packed (n : ℕ) : List UInt8 :=
  if n ≤ 250 then [UInt8.ofNat n] else 252 :: leBytes 2 n

/-- A table map: the id under which the row events of the statement name the table, and the
description of the table. -/
structure TableMap where
  id : List UInt8
  db : List UInt8
  tb : List UInt8
  types : List UInt8
  metas : List UInt8
  id_length : id.length = 6
  db_length : db.length ≤ 255
  tb_length : tb.length ≤ 255
  db_noNul : 0 ∉ db
  tb_noNul : 0 ∉ tb
  types_length : types.length ≤ 4096
  metas_length : metas.length ≤ 8192

namespace TableMap

def nameLayout (name : List UInt8) : List UInt8 := UInt8.ofNat name.length :: (name ++ [0])

def countedLayout (bytes : List UInt8) : List UInt8 := packed bytes.length ++ bytes

/-- The body of the event. The two reserved bytes and the bitmap of nullable columns at the end
are not read. -/
def layout (m : TableMap) (reserved nullable : List UInt8) : List UInt8 :=
  m.id ++ reserved ++ (nameLayout m.db ++ (nameLayout m.tb ++
    (countedLayout m.types ++ (countedLayout m.metas ++ nullable))))

def Narrow (m : TableMap) : Prop := m.types.length ≤ 250 ∧ m.metas.length ≤ 250

instance (m : TableMap) : Decidable m.Narrow := inferInstanceAs (Decidable (_ ∧ _))

def SameTable (l m : TableMap) : Prop :=
  l.db = m.db ∧ l.tb = m.tb ∧ l.types = m.types ∧ l.metas = m.metas

end TableMap

def Event.Maps (e : Event) (m : TableMap) : Prop :=
  e.t = 19 ∧ ∃ reserved nullable, reserved.length = 2 ∧ e.body = m.layout reserved nullable

def Event.tableId (e : Event) : List UInt8 := e.body.take 6

variable {m : TableMap} {d : TableMapData} {name bytes rest : List UInt8}

theorem parseName_layout (h : name.length ≤ 255) (rest : List UInt8) :
    parseName (TableMap.nameLayout name ++ rest) = some (name ++ [0], rest) := by
  have hlen : leNat [UInt8.ofNat name.length] = name.length := by
    simp [Nat.mod_eq_of_lt (by omega : name.length < 256)]
  have hhead : slice (TableMap.nameLayout name ++ rest) 0 1 = some [UInt8.ofNat name.length] :=
    slice_left [_] (name ++ [0] ++ rest)
  have hname : slice (TableMap.nameLayout name ++ rest) 1 (name.length + 1) = some (name ++ [0]) := by
    have h := slice_append [UInt8.ofNat name.length] (name ++ [0]) rest
    rwa [List.length_append] at h
  have hdrop : (TableMap.nameLayout name ++ rest).drop (1 + (name.length + 1)) = rest :=
    List.drop_left' (by simp [TableMap.nameLayout, Nat.add_comm 1])
  simp only [parseName, Option.bind_eq_bind, hhead, Option.bind_some, hlen, hname, hdrop]

theorem parseCounted_eq {p : List UInt8} {n len : ℕ} (h : rsParsePackedInteger p = some (n, len)) :
    parseCounted p = (slice p len (UInt32.ofNat n).toNat).map fun bytes =>
      (UInt32.ofNat n, bytes, p.drop (len + (UInt32.ofNat n).toNat)) := by
  rw [parseCounted, h]
  exact Option.map_eq_bind.symm

theorem parseCounted_length {p out q : List UInt8} {n : UInt32}
    (h : parseCounted p = some (n, out, q)) : out.length = n.toNat := by
  simp only [parseCounted, Option.bind_eq_bind, Option.bind_eq_some_iff, Option.some.injEq,
    Prod.mk.injEq] at h
  obtain ⟨⟨k, len⟩, -, bytes, hbytes, rfl, rfl, -⟩ := h
  exact slice_length hbytes

/-- The two column arrays of a table map are as long as their counts say. -/
theorem parseTableMap_length {tm : List UInt8} (h : parseTableMap tm = some d) :
    d.ct.length = d.cn.toNat ∧ d.cm.length = d.ml.toNat := by
  simp only [parseTableMap, Option.bind_eq_bind, Option.bind_eq_some_iff, Prod.exists,
    Option.some.injEq] at h
  obtain ⟨_, _, -, _, _, -, cn, ct, _, hct, ml, cm, _, hcm, rfl⟩ := h
  exact ⟨parseCounted_length hct, parseCounted_length hcm⟩

theorem rsParsePackedInteger_narrow {b : UInt8} (h : b.toNat ≤ 250) (p : List UInt8) :
    rsParsePackedInteger (b :: p) = some (b.toNat, 1) := by
  have hhead : slice (b :: p) 0 1 = some [b] := slice_left [b] p
  simp [rsParsePackedInteger, h, hhead]

/-- The two bytes of a longer count are taken to start with its prefix. -/
theorem rsParsePackedInteger_wide (b : UInt8) (p : List UInt8) :
    rsParsePackedInteger (252 :: b :: p) = some (252 + 256 * b.toNat, 2) := by
  have hhead : slice (252 :: b :: p) 0 2 = some [252, b] := slice_left [252, b] p
  simp [rsParsePackedInteger, hhead]

theorem parseCounted_narrow (h : bytes.length ≤ 250) (rest : List UInt8) :
    parseCounted (TableMap.countedLayout bytes ++ rest) =
      some (UInt32.ofNat bytes.length, bytes, rest) := by
  have hb : (UInt8.ofNat bytes.length).toNat = bytes.length := by
    rw [UInt8.toNat_ofNat']
    omega
  have hn : (UInt32.ofNat bytes.length).toNat = bytes.length := by
    rw [UInt32.toNat_ofNat']
    omega
  have hlayout : TableMap.countedLayout bytes ++ rest = [UInt8.ofNat bytes.length] ++ bytes ++ rest := by
    rw [TableMap.countedLayout, packed, if_pos h]
  have hpacked : rsParsePackedInteger ([UInt8.ofNat bytes.length] ++ bytes ++ rest) =
      some (bytes.length, 1) :=
    (rsParsePackedInteger_narrow (hb.symm ▸ h) (bytes ++ rest)).trans (by rw [hb])
  rw [hlayout, parseCounted_eq hpacked, hn]
  have hslice := slice_append [UInt8.ofNat bytes.length] bytes rest
  have hdrop : ([UInt8.ofNat bytes.length] ++ bytes ++ rest).drop (1 + bytes.length) = rest :=
    List.drop_left' (by simp [Nat.add_comm 1])
  rw [List.length_singleton] at hslice
  rw [hslice, hdrop]
  rfl

/-- A longer count is never read as it is meant. -/
theorem parseCounted_wide {n : UInt32} {out p : List UInt8} (hwide : 250 < bytes.length)
    (hmax : bytes.length ≤ 8192)
    (h : parseCounted (TableMap.countedLayout bytes ++ rest) = some (n, out, p)) :
    n.toNat ≠ bytes.length := by
  rw [TableMap.countedLayout, packed, if_neg (by omega)] at h
  have hpacked : rsParsePackedInteger (252 :: leBytes 2 bytes.length ++ bytes ++ rest) =
      some (252 + 256 * (UInt8.ofNat bytes.length).toNat, 2) := rsParsePackedInteger_wide _ _
  rw [parseCounted_eq hpacked] at h
  obtain ⟨c, -, hc⟩ := Option.map_eq_some_iff.mp h
  obtain ⟨rfl, -⟩ := Prod.mk.inj hc
  rw [UInt32.toNat_ofNat', UInt8.toNat_ofNat']
  omega

/-- The names are always read as they are meant, the counts when they take one byte. -/
theorem parseTableMap_layout {reserved nullable : List UInt8} (hres : reserved.length = 2)
    (h : parseTableMap (m.layout reserved nullable) = some d) :
    d.db = m.db ++ [0] ∧ d.tb = m.tb ++ [0] ∧
      (m.Narrow → d.cn.toNat = m.types.length ∧ d.ct = m.types ∧ d.ml.toNat = m.metas.length ∧
        d.cm = m.metas) ∧
      (¬ m.Narrow → d.cn.toNat ≠ m.types.length ∨ d.ml.toNat ≠ m.metas.length) := by
  have hdrop : (m.layout reserved nullable).drop 8 = TableMap.nameLayout m.db ++
      (TableMap.nameLayout m.tb ++ (TableMap.countedLayout m.types ++
        (TableMap.countedLayout m.metas ++ nullable))) :=
    List.drop_left' (by rw [List.length_append, m.id_length, hres])
  simp only [parseTableMap, hdrop, Option.bind_eq_bind, parseName_layout m.db_length,
    parseName_layout m.tb_length, Option.bind_some, Option.bind_eq_some_iff, Prod.exists,
    Option.some.injEq] at h
  obtain ⟨cn, ct, p, hct, ml, cm, q, hcm, rfl⟩ := h
  refine ⟨rfl, rfl, fun hnarrow => ?_, fun hwide => ?_⟩
  · rw [parseCounted_narrow hnarrow.1] at hct
    obtain ⟨rfl, rfl, rfl⟩ := by simpa using hct
    rw [parseCounted_narrow hnarrow.2] at hcm
    obtain ⟨rfl, rfl, rfl⟩ := by simpa using hcm
    have h1 := hnarrow.1
    have h2 := hnarrow.2
    refine ⟨?_, rfl, ?_, rfl⟩ <;> rw [UInt32.toNat_ofNat'] <;> omega
  · by_cases hcols : m.types.length ≤ 250
    · rw [parseCounted_narrow hcols] at hct
      obtain ⟨rfl, rfl, rfl⟩ := by simpa using hct
      exact Or.inr (parseCounted_wide (not_le.mp fun h => hwide ⟨hcols, h⟩) m.metas_length hcm)
    · have := m.types_length
      exact Or.inl (parseCounted_wide (by omega) (by omega) hct)

end MySQLSyncer.Master
