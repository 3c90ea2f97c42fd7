import MySQLSyncer.Master.ReadLog

/-! # The log while the server writes

The log of the files only gets longer, and what a session does with its beginning stays what it is.
-/
namespace MySQLSyncer.Master
open Lib MySQLSyncer.Core

def Binlog.Grows (log log' : Binlog) : Prop := ∃ new, log' = { log with items := log.items ++ new }

variable {log log' : Binlog} {d d' : Disk} {f : LogFile} {tables : Option (List UInt8)} {id pos : UInt32}
  {file : DumpFile} {k n : ℕ} {s t v : Session} {as bs : List Sym}

theorem Binlog.Grows.refl (log : Binlog) : log.Grows log := ⟨[], by rw [List.append_nil]⟩

theorem Binlog.Grows.trans {log'' : Binlog} (h : log.Grows log') (h' : log'.Grows log'') : log.Grows log'' := by
  obtain ⟨new, rfl⟩ := h
  obtain ⟨new', rfl⟩ := h'
  exact ⟨new ++ new', by rw [List.append_assoc]⟩

theorem serverStep_grows {a : ServerAct} (hs : serverStep d a = some d') : d.log.Grows d'.log := by
  have hfiles : d.files = d.closed ++ d.current :: [] := rfl
  obtain ⟨events, rest, new, -, -, hitems⟩ := serverStep_split hs hfiles
  rw [d.itemsOf_files, d'.itemsOf_files, List.cons_append] at hitems
  obtain ⟨hfirst, htail⟩ := List.cons.inj hitems
  obtain ⟨hname, hnum⟩ := Item.file.inj hfirst
  refine ⟨new, ?_⟩
  calc d'.log = ⟨d'.log.first, d'.log.num, d'.log.items⟩ := rfl
    _ = _ := by rw [hname, hnum, htail]

namespace Binlog.Grows

theorem length_le (h : log.Grows log') : log.items.length ≤ log'.items.length := by
  obtain ⟨new, rfl⟩ := h
  exact List.length_append ▸ Nat.le_add_right _ _

theorem take (h : log.Grows log') (hk : k ≤ log.items.length) : log'.items.take k = log.items.take k := by
  obtain ⟨new, rfl⟩ := h
  exact List.take_append_of_le_length hk

theorem drop (h : log.Grows log') (hk : k ≤ log.items.length) :
    ∃ new, log'.items.drop k = log.items.drop k ++ new := by
  obtain ⟨new, rfl⟩ := h
  exact ⟨new, List.drop_append_of_le_length hk⟩

theorem placeAt (h : log.Grows log') (hk : k ≤ log.items.length) : log'.placeAt k = log.placeAt k := by
  rw [Binlog.placeAt, h.take hk]
  obtain ⟨new, rfl⟩ := h
  rfl

theorem session (h : log.Grows log') (hk : k ≤ log.items.length) :
    log'.session tables id k = log.session tables id k := by
  rw [Binlog.session, h.take hk]
  obtain ⟨new, rfl⟩ := h
  rfl

theorem rowsUpTo (h : log.Grows log') (hk : k ≤ log.items.length) :
    log'.rowsUpTo tables id k = log.rowsUpTo tables id k := by
  rw [Binlog.rowsUpTo, h.session hk, Binlog.rowsUpTo]

theorem syms (h : log.Grows log') (tables : Option (List UInt8)) :
    ∃ new, log'.syms tables = log.syms tables ++ new := by
  obtain ⟨new, rfl⟩ := h
  exact ⟨_, List.map_append⟩

theorem names (h : log.Grows log') (hf : file ∈ log.first :: fileNames log.items) :
    file ∈ log'.first :: fileNames log'.items := by
  obtain ⟨new, rfl⟩ := h
  rw [fileNames_append]
  exact (List.cons_append ▸ List.mem_append_left _ hf : file ∈ log.first :: (fileNames log.items ++ fileNames new))

theorem wellFormed (h : log.Grows log') (hlog : log'.WellFormed) : log.WellFormed := by
  obtain ⟨new, rfl⟩ := h
  obtain ⟨hnames, hshort, hevents⟩ := hlog
  rw [fileNames_append, ← List.cons_append] at hnames
  refine ⟨(List.nodup_append.mp hnames).1, fun p hp => hshort p ?_, fun e he => hevents e (List.mem_append_left _ he)⟩
  rw [places_append]
  exact List.mem_append_left _ hp

theorem read (h : log.Grows log') (hread : ∃ t, log'.session tables id log'.items.length = some t) :
    ∃ t, log.session tables id log.items.length = some t := by
  obtain ⟨new, rfl⟩ := h
  obtain ⟨t, ht⟩ := hread
  rw [Binlog.session, List.take_length] at ht
  obtain ⟨s, hs, -⟩ := exec_append_eq_some.mp ht
  exact ⟨s, by rw [Binlog.session, List.take_length]; exact hs⟩

end Binlog.Grows

/-- A part of the log with one statement in each transaction. -/
theorem OneStatement.of_append (h : OneStatement (as ++ bs)) : OneStatement as := by
  obtain ⟨q, hq⟩ := Option.isSome_iff_exists.mp h
  obtain ⟨r, hr, -⟩ := exec_append_eq_some.mp hq
  exact Option.isSome_iff_exists.mpr ⟨r, hr⟩

theorem PublishesAt.append (h : PublishesAt as k n) (bs : List Sym) : PublishesAt (as ++ bs) k n := by
  have hle := h.le
  have hpos := h.pos
  have hsame : ((as ++ bs).drop k).take n = (as.drop k).take n := by
    rw [List.drop_append_of_le_length (by omega), List.take_append_of_le_length (by rw [List.length_drop]; omega)]
  refine ⟨hpos, by rw [List.length_append]; omega, by rw [hsame]; exact h.filter, ?_⟩
  rw [hsame, List.getElem?_append_left (by omega)]
  exact h.tran

theorem StartsAt.append (h : StartsAt as k) (bs : List Sym) : StartsAt (as ++ bs) k := by
  induction h with
  | first => exact .first
  | published _ hpub ih => exact .published ih (hpub.append bs)

/-- Where a session may be started, one may be started later. -/
theorem Binlog.Startable.grows (h : log.Startable tables id k) (hg : log.Grows log') :
    log'.Startable tables id k := by
  obtain ⟨new, hsyms⟩ := hg.syms tables
  obtain ⟨b, hb, hwait⟩ := h.reached
  refine ⟨hsyms ▸ h.starts.append new, h.le.trans hg.length_le, b, ?_, hwait⟩
  have hflags : b.rd.flags = Flags.cold.after ((log'.syms tables).take k) := by
    rw [hsyms, List.take_append_of_le_length (by rw [Binlog.syms, List.length_map]; exact h.le)]
    exact hb.flags
  exact
    { hb with
      run := (hg.session h.le).trans hb.run
      place := hb.place.trans (hg.placeAt h.le).symm
      flags := hflags }

theorem itemsOf_take {files : List LogFile} (hlen : n + 1 ≤ (itemsOf files).length) :
    ∃ older f rest before after, files = older ++ f :: rest ∧ f.events = before ++ after ∧
      (itemsOf files).take (n + 1) = itemsOf older ++ .file f.name f.name.num :: before.map .event := by
  induction files generalizing n with
  | nil => exact absurd hlen (Nat.not_succ_le_zero n)
  | cons g gs ih =>
    rw [itemsOf_cons] at hlen ⊢
    rw [List.length_cons, List.length_append, List.length_map] at hlen
    rcases Nat.lt_or_ge g.events.length n with hlt | hle
    · obtain ⟨m, rfl⟩ := Nat.exists_eq_add_of_lt hlt
      obtain ⟨older, f, rest, before, after, rfl, hevents, htake⟩ := ih (n := m) (by omega)
      refine ⟨g :: older, f, rest, before, after, rfl, hevents, ?_⟩
      rw [List.take_succ_cons, Nat.add_assoc, ← List.length_map (f := Item.event),
          List.take_length_add_append, htake, itemsOf_cons,
        List.cons_append, List.append_assoc]
    · refine ⟨[], g, gs, g.events.take n, g.events.drop n, rfl, (List.take_append_drop _ _).symm, ?_⟩
      rw [List.take_succ_cons, List.take_append_of_le_length (by rw [List.length_map]; exact hle), List.map_take]
      rfl

/-- The files have an event, or their end, at every place of the log. -/
theorem Disk.Sorted.boundary (h : d.Sorted) (hk : k ≤ d.log.items.length) (hplace : d.log.placeAt k = (file, n)) :
    ∃ f, d.file file = some f ∧ f.Boundary n := by
  have hitems : (itemsOf d.files).take (k + 1) = .file d.log.first d.log.num :: d.log.items.take k := by
    rw [d.itemsOf_files, List.take_succ_cons]
  have hlen : k + 1 ≤ (itemsOf d.files).length := by
    rw [d.itemsOf_files, List.length_cons]
    omega
  -- the file that the first items end in
  obtain ⟨older, f, rest, before, after, hfiles, hevents, htake⟩ := itemsOf_take hlen
  have hat : d.log.placeAt k = (f.name, rsBinlogMagicNumLen + (before.flatMap Event.bytes).length) := by
    have hfold : ((itemsOf d.files).take (k + 1)).foldl Item.next d.log.start = d.log.placeAt k := by
      rw [hitems]
      rfl
    rw [← hfold, htake, List.foldl_append, List.foldl_cons]
    exact foldl_next_events f.name rsBinlogMagicNumLen before
  obtain ⟨rfl, rfl⟩ := Prod.mk.inj (hplace.symm.trans hat)
  exact ⟨f, h.file hfiles, after, before, [], hevents, rfl, rfl, rfl⟩

end MySQLSyncer.Master
