import MySQLSyncer.Lib.Entries
import MySQLSyncer.Master.HandlerBounds
import MySQLSyncer.Master.PacketBounds
import MySQLSyncer.Master.TableDescription

/-! # The table filter against the list of the slave

`rs_binlog_table_map_handler` prints `,db.tb,` into an array that has no room for the terminator of the
longest names, and searches the list of the dump command for it.
-/
namespace MySQLSyncer.Master
open Lib MySQLSyncer.Core

structure IsName (max : ℕ) (s : List UInt8) : Prop where
  short : s.length ≤ max
  noNul : 0 ∉ s
  noComma : 44 ∉ s

/-- The text of a table map event with these names; its columns fit the arrays. -/
def MapOf (db tb tm : List UInt8) : Prop :=
  ∃ d, parseTableMap tm = some d ∧ d.db = db ++ [0] ∧ d.tb = tb ++ [0] ∧ d.ct.length ≤ rsColumnMaxLen ∧
    d.cm.length ≤ rsColumnMetaMaxLen

/-- The list in a packet: the string behind the newline that follows the first comma. -/
def ListIn (cbuf list : List UInt8) : Prop :=
  ∃ name pos u, cbuf = name ++ 44 :: (pos ++ 10 :: (list ++ 0 :: u)) ∧ 44 ∉ name ∧ 10 ∉ pos ∧ 0 ∉ list

def tableName (db tb : List UInt8) : List UInt8 := db ++ 46 :: tb

def entries (list : List UInt8) : List (List UInt8) := list.splitOn 44

def Listed (list db tb : List UInt8) : Prop := tableName db tb ∈ entries list

def FilterExact (rd : RsReqdumpData) (list db tb tm : List UInt8) : Prop :=
  ∃ r, rsBinlogTableMapBody rd tm = some (.ok, r) ∧ (r.binlogInfo.filter = false ↔ Listed list db tb)

/-- The list does not begin with two commas. The table is not listed behind the last comma only or,
for names of the full length, no entry begins with it unless it is listed. -/
def ListFor (list db tb : List UInt8) : Prop :=
  ¬ [44, 44] <+: list ∧
    if db.length + tb.length < rsDatabaseNameMaxLen + rsTableNameMaxLen then
      Listed list db tb → tableName db tb ∈ (entries list).dropLast
    else (∃ x ∈ entries list, tableName db tb <+: x) → Listed list db tb

variable {stream cbuf list db tb tm w : List UInt8} {cmd : Dumpcmd} {rd : RsReqdumpData}

theorem ListIn.unique {l m : List UInt8} (hl : ListIn cbuf l) (hm : ListIn cbuf m) : l = m := by
  obtain ⟨name, pos, u, rfl, hname, hpos, hnul⟩ := hl
  obtain ⟨name', pos', v, heq, hname', hpos', hnul'⟩ := hm
  obtain ⟨-, heq⟩ := append_sep_inj hname hname' heq
  obtain ⟨-, heq⟩ := append_sep_inj hpos hpos' heq
  exact (append_sep_inj hnul hnul' heq).1

theorem parseList_list {name t f : List UInt8} {p : UInt32} (h : parseList name t f p = some (.ok, some cmd)) :
    ∃ list u, t = list ++ 0 :: u ∧ 0 ∉ list ∧ list.head? = some 44 ∧
      cmd.filterTables = if list.take 2 = [44, 44] then none else some list := by
  obtain ⟨b, hb, h⟩ := Option.bind_eq_some_iff.mp h
  by_cases hcomma : b = 44
  · rw [if_neg (not_not.mpr hcomma)] at h
    obtain ⟨last, -, h⟩ := Option.bind_eq_some_iff.mp h
    cases last with
    | none => cases h
    | some last =>
      dsimp only at h
      by_cases hshort : last < 2
      · rw [if_pos hshort] at h
        cases h
      rw [if_neg hshort] at h
      obtain ⟨rb, -, h⟩ := Option.bind_eq_some_iff.mp h
      obtain ⟨list, hlist, h⟩ := Option.bind_eq_some_iff.mp h
      cases h
      obtain ⟨hnul, u, rfl⟩ := cstr_eq_some.mp hlist
      refine ⟨list, u, rfl, hnul, ?_, rfl⟩
      cases list with
      | nil =>
        cases hb
        cases hcomma
      | cons c list => exact hb.trans (congrArg some hcomma)
  · rw [if_pos hcomma] at h
    cases h

theorem parseDumpcmd_list (h : parseDumpcmd cbuf = some (.ok, some cmd)) : ∃ list, ListIn cbuf list ∧
    list.head? = some 44 ∧ cmd.filterTables = if list.take 2 = [44, 44] then none else some list := by
  obtain ⟨r, hr⟩ : ∃ r, strchr 44 cbuf = some r := by
    cases hr : strchr 44 cbuf with
    | none => simp [parseDumpcmd, hr] at h
    | some r => exact ⟨r, rfl⟩
  obtain ⟨name, rest, hnul, hname, ⟨rfl, -⟩ | ⟨rfl, rfl⟩⟩ := strchr_inv hr
  · rw [parseDumpcmd_comma hnul hname] at h
    obtain ⟨dumpFile, -, h⟩ := Option.bind_eq_some_iff.mp h
    split_ifs at h
    obtain ⟨dumpPos, -, h⟩ := Option.bind_eq_some_iff.mp h
    obtain ⟨line, hline, h⟩ := Option.bind_eq_some_iff.mp h
    obtain ⟨pos, t, hpos, hten, ⟨rfl, rfl⟩ | ⟨rfl, rfl⟩⟩ := strchr_inv hline
    · have hdrop : (pos ++ 10 :: t).drop (pos.length + 1) = t := by
        rw [← List.drop_drop, List.drop_left, List.drop_one, List.tail_cons]
      dsimp only at h
      rw [hdrop] at h
      obtain ⟨list, u, rfl, hlist, hhead, htables⟩ := parseList_list h
      exact ⟨list, ⟨name, pos, u, rfl, hname, hten, hlist⟩, hhead, htables⟩
    · cases h
  · simp [parseDumpcmd, hr] at h

theorem ListIn.append (h : ListIn cbuf list) (rest : List UInt8) : ListIn (cbuf ++ rest) list := by
  obtain ⟨name, pos, u, rfl, hname, hpos, hnul⟩ := h
  exact ⟨name, pos, u ++ rest, by simp, hname, hpos, hnul⟩

theorem rsParseDumpcmd_list (h : rsParseDumpcmd stream = some (.ok, some cmd)) : ∃ list, ListIn (stream.drop 4) list ∧
    list.head? = some 44 ∧ cmd.filterTables = if list.take 2 = [44, 44] then none else some list := by
  rw [rsParseDumpcmd] at h
  by_cases hhead : 4 ≤ stream.length
  · simp only [rsSizeRead, if_pos hhead] at h
    set n := leNat (stream.take 4)
    by_cases hbody : n ≤ (stream.drop 4).length
    · simp only [if_pos hbody] at h
      obtain ⟨list, hin, hcomma, htables⟩ := parseDumpcmd_list h
      have hlist := hin.append ((stream.drop 4).drop n)
      rw [List.take_append_drop] at hlist
      exact ⟨list, hlist, hcomma, htables⟩
    · simp only [if_neg hbody] at h
      cases h
  · simp only [rsSizeRead, if_neg hhead] at h
    cases h

theorem not_mem_tableName (hdb : IsName rsDatabaseNameMaxLen db) (htb : IsName rsTableNameMaxLen tb) :
    44 ∉ tableName db tb := by
  simp [tableName, hdb.noComma, htb.noComma]

theorem filterKey_eq (hdb : IsName rsDatabaseNameMaxLen db) (htb : IsName rsTableNameMaxLen tb) :
    filterKey db tb = if db.length + tb.length < rsDatabaseNameMaxLen + rsTableNameMaxLen then
      44 :: (tableName db tb ++ [44]) else 44 :: tableName db tb := by
  have hdb := hdb.short
  have htb := htb.short
  have hlen : (44 :: tableName db tb).length = db.length + tb.length + 2 := by
    simp [tableName]
    omega
  have hkey : 44 :: (db ++ 46 :: (tb ++ [44])) = (44 :: tableName db tb) ++ [44] := by simp [tableName]
  rw [filterKey, hkey]
  split_ifs with hfull
  · rw [List.take_of_length_le, List.cons_append]
    rw [List.length_append, hlen, List.length_singleton]
    omega
  · rw [List.take_append_of_le_length (by omega), List.take_of_length_le (by omega)]

theorem filterKey_infix_iff (hdb : IsName rsDatabaseNameMaxLen db) (htb : IsName rsTableNameMaxLen tb)
    (hhead : list.head? = some 44) : filterKey db tb <:+: list ↔
      if db.length + tb.length < rsDatabaseNameMaxLen + rsTableNameMaxLen then
        tableName db tb ∈ (entries list).dropLast
      else ∃ x ∈ entries list, tableName db tb <+: x := by
  have hno := not_mem_tableName hdb htb
  have hne : tableName db tb ≠ [] := by simp [tableName]
  obtain ⟨w, rfl⟩ := List.head?_eq_some_iff.mp hhead
  have hentries : entries (44 :: w) = [] :: w.splitOn 44 := splitOn_more List.not_mem_nil w
  rw [filterKey_eq hdb htb, hentries]
  split_ifs
  · rw [infix_closed_iff hno, List.dropLast_cons_of_ne_nil (List.splitOn_ne_nil 44 w), List.mem_cons]
    simp [hne]
  · rw [infix_open_iff hno]
    simp [hne]

theorem tableMapBody_filter (hdecl : rd.binlogInfo.Declared) (hdb : IsName rsDatabaseNameMaxLen db)
    (htb : IsName rsTableNameMaxLen tb) (hmap : MapOf db tb tm) (htables : rd.filterTables = some list) :
    ∃ r, rsBinlogTableMapBody rd tm = some (.ok, r) ∧ r.binlogInfo.filter = !decide (filterKey db tb <:+: list) := by
  obtain ⟨d, hd, hddb, hdtb, hct, hcm⟩ := hmap
  have hcopy (arr src : List UInt8) (hle : src.length ≤ arr.length) :
      copyInto arr src = some (src ++ arr.drop src.length) := if_pos hle
  have hdbcopy := hcopy rd.binlogInfo.db (db ++ [0]) (by simpa [hdecl.db] using hdb.short)
  have htbcopy := hcopy rd.binlogInfo.tb (tb ++ [0]) (by simpa [hdecl.tb] using htb.short)
  have hctcopy := hcopy rd.binlogInfo.ct d.ct (by simpa [hdecl.ct] using hct)
  have hcmcopy := hcopy rd.binlogInfo.cm d.cm (by simpa [hdecl.cm] using hcm)
  have hdbn := cstr_copied hdb.noNul hdbcopy
  have htbn := cstr_copied htb.noNul htbcopy
  have hsome : (rsBinlogTableMapBody rd tm).isSome := by
    simp only [rsBinlogTableMapBody, hd, hddb, hdtb, hdbcopy, htbcopy, hctcopy, hcmcopy, hdbn, htbn, htables,
      filterDecision, Option.bind_eq_bind, Option.bind_some, Option.map_some, Option.isSome_some]
  obtain ⟨⟨code, r⟩, hr⟩ := Option.isSome_iff_exists.mp hsome
  obtain ⟨rfl, d', db', tb', ct, cm, dbName, tbName, filter, hd', hdb', htb', -, -, hdbn', htbn', hfilter, rfl⟩ :=
    rsBinlogTableMapBody_spec hr
  obtain rfl : d = d' := Option.some.inj (hd.symm.trans hd')
  obtain rfl : db = dbName := Option.some.inj ((cstr_copied hdb.noNul (hddb ▸ hdb')).symm.trans hdbn')
  obtain rfl : tb = tbName := Option.some.inj ((cstr_copied htb.noNul (hdtb ▸ htb')).symm.trans htbn')
  rw [htables] at hfilter
  exact ⟨_, hr, (Option.some.inj hfilter).symm⟩

theorem tableMapBody_none (htables : rd.filterTables = none) : rsBinlogTableMapBody rd tm = none := by
  simp [rsBinlogTableMapBody, htables, filterDecision]

/-- For every command that the master accepts, and every table map: the filter is open exactly for the
listed tables when the list is fit for the names, and only then. -/
theorem filter_exact_iff (hparse : rsParseDumpcmd stream = some (.ok, some cmd))
    (htables : rd.filterTables = cmd.filterTables) (hdecl : rd.binlogInfo.Declared)
    (hdb : IsName rsDatabaseNameMaxLen db) (htb : IsName rsTableNameMaxLen tb) (hmap : MapOf db tb tm) :
    ∃ list, ListIn (stream.drop 4) list ∧ (FilterExact rd list db tb tm ↔ ListFor list db tb) := by
  obtain ⟨list, hin, hhead, hlist⟩ := rsParseDumpcmd_list hparse
  refine ⟨list, hin, ?_⟩
  rw [hlist] at htables
  by_cases htwo : list.take 2 = [44, 44]
  · rw [if_pos htwo] at htables
    refine iff_of_false ?_ fun hfor => hfor.1 (List.prefix_iff_eq_take.mpr htwo.symm)
    rintro ⟨r, hr, -⟩
    rw [tableMapBody_none htables] at hr
    cases hr
  · rw [if_neg htwo] at htables
    have hopen : ¬ [44, 44] <+: list := fun h => htwo (List.prefix_iff_eq_take.mp h).symm
    obtain ⟨r, hr, hfilter⟩ := tableMapBody_filter hdecl hdb htb hmap htables
    have hexact : FilterExact rd list db tb tm ↔ (filterKey db tb <:+: list ↔ Listed list db tb) := by
      simp [FilterExact, hr, hfilter]
    rw [hexact, filterKey_infix_iff hdb htb hhead, ListFor, and_iff_right hopen]
    split_ifs
    · exact ⟨fun h => h.mpr, fun h => ⟨List.mem_of_mem_dropLast, h⟩⟩
    · exact ⟨fun h => h.mp, fun h => ⟨h, fun hlisted => ⟨_, hlisted, List.prefix_rfl⟩⟩⟩

def filterStream : List UInt8 := [15, 0, 0, 0] ++ [98, 49, 44, 52, 10, 44, 100, 46, 97, 44, 0, 0, 0, 0, 0]

theorem filter_exact_sample : ∃ cmd list, rsParseDumpcmd filterStream = some (.ok, some cmd) ∧
    ListIn (filterStream.drop 4) list ∧
    (FilterExact (startSession sampleFile 1 4 cmd.filterTables 1) list [100] [97] (sampleTableMap 97).body ↔
      ListFor list [100] [97]) := by
  have hparse : (rsParseDumpcmd filterStream).map (fun p => (p.1, p.2.isSome)) = some (.ok, true) := by
    decide +kernel
  obtain ⟨⟨code, cmd⟩, hparse, hok⟩ := Option.map_eq_some_iff.mp hparse
  obtain ⟨rfl, hcmd⟩ := Prod.mk.inj hok
  obtain ⟨cmd, rfl⟩ := Option.isSome_iff_exists.mp hcmd
  have hname (c : UInt8) (hnul : c ≠ 0) (hcomma : c ≠ 44) : IsName 64 [c] :=
    ⟨by simp, by simp [hnul.symm], by simp [hcomma.symm]⟩
  have hmap : MapOf [100] [97] (sampleTableMap 97).body :=
    ⟨⟨[100, 0], [97, 0], 1, [3], 0, []⟩, by decide +kernel, rfl, rfl, by decide, by decide⟩
  have htables : (startSession sampleFile 1 4 cmd.filterTables 1).filterTables = cmd.filterTables := rfl
  obtain ⟨list, hin, hiff⟩ := filter_exact_iff hparse htables rsBinlogInfoTInit_declared
    (hname 100 (by decide) (by decide)) (hname 97 (by decide) (by decide)) hmap
  exact ⟨cmd, list, hparse, hin, hiff⟩

def longDb : List UInt8 := List.replicate 64 97

def longTb : List UInt8 := List.replicate 64 98

def longerList : List UInt8 := 44 :: (tableName longDb longTb ++ [99, 44])

def longerStream : List UInt8 := [142, 0, 0, 0] ++ [98, 49, 44, 52, 10] ++ longerList ++ [0, 0, 0, 0, 0]

def longMap : List UInt8 :=
  [97, 0, 0, 0, 0, 0, 1, 0] ++ 64 :: longDb ++ 0 :: 64 :: longTb ++ [0, 1, 3, 0]

/-- The filter opens for a table that only begins the entry. -/
theorem not_filter_exact : ¬ ∀ (stream db tb tm : List UInt8) (cmd : Dumpcmd) (rd : RsReqdumpData),
    rsParseDumpcmd stream = some (.ok, some cmd) → rd.filterTables = cmd.filterTables → rd.binlogInfo.Declared →
    IsName rsDatabaseNameMaxLen db → IsName rsTableNameMaxLen tb → MapOf db tb tm →
    ∃ list, ListIn (stream.drop 4) list ∧ FilterExact rd list db tb tm := by
  intro h
  have hparse : (rsParseDumpcmd longerStream).map (fun p => (p.1, p.2.map Dumpcmd.filterTables)) =
      some (.ok, some (some longerList)) := by decide +kernel
  obtain ⟨⟨code, cmd⟩, hparse, hok⟩ := Option.map_eq_some_iff.mp hparse
  obtain ⟨rfl, hcmd⟩ := Prod.mk.inj hok
  obtain ⟨cmd, rfl, hlist⟩ := Option.map_eq_some_iff.mp hcmd
  have hname (c : UInt8) (hnul : c ≠ 0) (hcomma : c ≠ 44) : IsName 64 (List.replicate 64 c) :=
    ⟨by simp, by simp [hnul.symm], by simp [hcomma.symm]⟩
  have hdb : IsName rsDatabaseNameMaxLen longDb := hname 97 (by decide) (by decide)
  have htb : IsName rsTableNameMaxLen longTb := hname 98 (by decide) (by decide)
  have hmap : MapOf longDb longTb longMap :=
    ⟨⟨longDb ++ [0], longTb ++ [0], 1, [3], 0, []⟩, by decide +kernel, rfl, rfl, by decide, by decide⟩
  have htables : (startSession sampleFile 1 4 cmd.filterTables 1).filterTables = cmd.filterTables := rfl
  obtain ⟨list, hin, r, hr, hiff⟩ := h _ _ _ _ _ _ hparse htables rsBinlogInfoTInit_declared hdb htb hmap
  have hin' : ListIn (longerStream.drop 4) longerList :=
    ⟨[98, 49], [52], [0, 0, 0, 0], rfl, by decide, by decide, by decide +kernel⟩
  obtain rfl := hin.unique hin'
  obtain ⟨r', hr', hfilter⟩ := tableMapBody_filter rsBinlogInfoTInit_declared hdb htb hmap (htables.trans hlist)
  obtain rfl : r = r' := by
    rw [hr] at hr'
    cases hr'
    rfl
  have hfound : filterKey longDb longTb <:+: longerList := by decide +kernel
  have hlisted : ¬ Listed longerList longDb longTb := by
    rw [Listed]
    decide +kernel
  exact hlisted (hiff.mp (by rw [hfilter, decide_eq_true hfound]; rfl))

end MySQLSyncer.Master
