import MySQLSyncer.Master.EventStep
import MySQLSyncer.Master.TableMap

/-! # What the handlers read and write

Where the fields of an event are, from the lengths that the event itself gives, and when they all
lie in the event and in the arrays they are copied to.
-/
namespace MySQLSyncer.Master
open Lib MySQLSyncer.Core

structure RsBinlogInfo.Declared (bi : RsBinlogInfo) : Prop where
  sql : bi.sql.length = rsSqlMaxLen + 1
  db : bi.db.length = rsDatabaseNameMaxLen + 1
  tb : bi.tb.length = rsTableNameMaxLen + 1
  ct : bi.ct.length = rsColumnMaxLen
  cm : bi.cm.length = rsColumnMetaMaxLen

/-- The list of tables, which is not the event's, is taken to be there. -/
def RsReqdumpData.withTables (rd : RsReqdumpData) : RsReqdumpData := { rd with filterTables := some [] }

def StaysInside (rd : RsReqdumpData) (h : Handler) (body : List UInt8) : Prop :=
  match handlerStart h rd.withTables with
  | .read rd => (handlerBody h rd body).isSome
  | .ret _ _ | .wait _ => True

def lengthAt (w : List UInt8) (i n : ℕ) : ℕ := leNat ((w.drop i).take n)

/-- The bytes that `rs_parse_packed_integer` takes for a first byte. -/
def packedWidth (b : UInt8) : ℕ :=
  if b.toNat ≤ 250 then 1 else if b.toNat ≤ 252 then 2 else if b.toNat ≤ 253 then 3
  else if b.toNat ≤ 254 then 4 else 8

def countAt (w : List UInt8) (i : ℕ) : ℕ := lengthAt w i (packedWidth (w.getD i 0)) % 2 ^ 32

def countedAt (w : List UInt8) (i : ℕ) : ℕ := i + packedWidth (w.getD i 0)

/-- The length of the table name, the two counts and the end of the metadata in a table map. -/
def tbAt (w : List UInt8) : ℕ := 10 + lengthAt w 8 1
def typesAt (w : List UInt8) : ℕ := tbAt w + 2 + lengthAt w (tbAt w) 1
def metasAt (w : List UInt8) : ℕ := countedAt w (typesAt w) + countAt w (typesAt w)
def tableMapEnd (w : List UInt8) : ℕ := countedAt w (metasAt w) + countAt w (metasAt w)

def EndsIn (arr w : List UInt8) (i n : ℕ) : Prop := 0 ∈ (w.drop i).take n ++ arr.drop n

instance (arr w : List UInt8) (i n : ℕ) : Decidable (EndsIn arr w i n) :=
  inferInstanceAs (Decidable (_ ∈ _))

/-- A query is skipped, or has a name that the array holds and ends in the event. -/
def QueryFits (w : List UInt8) : Prop :=
  rsSqlMaxLen * 2 < w.length ∨
    lengthAt w 8 1 ≤ rsDatabaseNameMaxLen ∧ 13 + lengthAt w 11 2 + (lengthAt w 8 1 + 1) ≤ w.length

def IntvarFits (w : List UInt8) : Prop := 1 ≤ w.length ∧ (w.getD 0 0 = 2 → 9 ≤ w.length)

def XidFits (w : List UInt8) : Prop := w.length ≤ 8

instance : DecidablePred XidFits := fun w => inferInstanceAs (Decidable (w.length ≤ 8))

structure TableMapFits (db tb w : List UInt8) : Prop where
  inside : tableMapEnd w ≤ w.length
  dbl : lengthAt w 8 1 ≤ rsDatabaseNameMaxLen
  tbl : lengthAt w (tbAt w) 1 ≤ rsTableNameMaxLen
  types : countAt w (typesAt w) ≤ rsColumnMaxLen
  metas : countAt w (metasAt w) ≤ rsColumnMetaMaxLen
  db_ends : EndsIn db w 9 (lengthAt w 8 1 + 1)
  tb_ends : EndsIn tb w (tbAt w + 1) (lengthAt w (tbAt w) 1 + 1)

variable {rd : RsReqdumpData} {bi : RsBinlogInfo} {w arr : List UInt8} {i n : ℕ}

theorem slice_drop (w : List UInt8) (i off n : ℕ) (hn : 0 < n) :
    slice (w.drop i) off n = slice w (i + off) n := by
  simp only [slice, List.length_drop, List.drop_drop]
  by_cases h : i + off + n ≤ w.length
  · rw [if_pos (by omega), if_pos h]
  · rw [if_neg (by omega), if_neg h]

theorem strlen_isSome (w : List UInt8) : (strlen w).isSome ↔ 0 ∈ w := by
  induction w with
  | nil => simp [strlen]
  | cons b w ih =>
    by_cases hb : b = 0
    · simp [strlen, hb]
    · simp [strlen, hb, ih, Ne.symm hb]

theorem cstr_isSome (w : List UInt8) : (cstr w).isSome ↔ 0 ∈ w := by
  rw [cstr, Option.isSome_map, strlen_isSome]

theorem parseName_drop (w : List UInt8) (i : ℕ) :
    parseName (w.drop i) = if i + 2 + lengthAt w i 1 ≤ w.length then
      some ((w.drop (i + 1)).take (lengthAt w i 1 + 1), w.drop (i + 2 + lengthAt w i 1)) else none := by
  rw [parseName]
  by_cases hi : i < w.length
  · have hhead : slice (w.drop i) 0 1 = some ((w.drop i).take 1) := by
      rw [slice, if_pos (by rw [List.length_drop]; omega), List.drop_zero]
    have hname : slice (w.drop i) 1 (lengthAt w i 1 + 1) = slice w (i + 1) (lengthAt w i 1 + 1) :=
      slice_drop w i 1 _ (Nat.succ_pos _)
    have hrest : i + (1 + (lengthAt w i 1 + 1)) = i + 2 + lengthAt w i 1 := by omega
    simp only [hhead, Option.bind_eq_bind, Option.bind_some]
    rw [← lengthAt, hname, slice, List.drop_drop, hrest]
    by_cases hfit : i + 2 + lengthAt w i 1 ≤ w.length
    · rw [if_pos (by omega), if_pos hfit]
      rfl
    · rw [if_neg (by omega), if_neg hfit]
      rfl
  · have hhead : slice (w.drop i) 0 1 = none := by
      rw [slice, if_neg (by rw [List.length_drop]; omega)]
    rw [hhead, if_neg (by omega)]
    rfl

theorem packedWidth_pos (b : UInt8) : 0 < packedWidth b := by
  unfold packedWidth
  split_ifs <;> decide

theorem rsParsePackedInteger_drop (w : List UInt8) (i : ℕ) :
    rsParsePackedInteger (w.drop i) = if countedAt w i ≤ w.length then
      some (lengthAt w i (packedWidth (w.getD i 0)), packedWidth (w.getD i 0)) else none := by
  have hpos := packedWidth_pos (w.getD i 0)
  rw [rsParsePackedInteger, countedAt, List.getElem?_drop, Nat.add_zero]
  by_cases hi : i < w.length
  · have hb : w[i]? = some (w.getD i 0) := by
      simp [List.getD_eq_getElem?_getD, List.getElem?_eq_getElem hi]
    rw [hb, Option.bind_eq_bind, Option.bind_some]
    dsimp only
    rw [← packedWidth, slice_drop w i 0 _ hpos, slice, Nat.add_zero]
    split_ifs <;> rfl
  · rw [List.getElem?_eq_none (by omega), if_neg (by omega)]
    rfl

theorem parseCounted_drop (w : List UInt8) (i : ℕ) :
    parseCounted (w.drop i) = if countedAt w i + countAt w i ≤ w.length then
      some (UInt32.ofNat (lengthAt w i (packedWidth (w.getD i 0))),
        (w.drop (countedAt w i)).take (countAt w i), w.drop (countedAt w i + countAt w i)) else none := by
  have hn : (UInt32.ofNat (lengthAt w i (packedWidth (w.getD i 0)))).toNat = countAt w i :=
    UInt32.toNat_ofNat'
  have hpacked := rsParsePackedInteger_drop w i
  by_cases hcount : countedAt w i ≤ w.length
  · rw [if_pos hcount] at hpacked
    have hlen : packedWidth (w.getD i 0) + countAt w i ≤ (w.drop i).length ↔
        countedAt w i + countAt w i ≤ w.length := by
      rw [List.length_drop]
      unfold countedAt at hcount ⊢
      omega
    rw [parseCounted_eq hpacked, hn, slice]
    simp only [hlen]
    split_ifs
    · rw [Option.map_some, List.drop_drop, List.drop_drop, countedAt, Nat.add_assoc]
    · rfl
  · rw [if_neg hcount] at hpacked
    rw [parseCounted, hpacked, if_neg (by omega)]
    rfl

theorem length_cut {k : ℕ} (h : i + n ≤ k) (hk : k ≤ w.length) : ((w.drop i).take n).length = n := by
  rw [List.length_take, List.length_drop]
  omega

/-- The walk over the fields comes to its end exactly if they all lie in the event. -/
theorem parseTableMap_eq (w : List UInt8) :
    parseTableMap w = if tableMapEnd w ≤ w.length then
      some { db := (w.drop 9).take (lengthAt w 8 1 + 1)
             tb := (w.drop (tbAt w + 1)).take (lengthAt w (tbAt w) 1 + 1)
             cn := UInt32.ofNat (lengthAt w (typesAt w) (packedWidth (w.getD (typesAt w) 0)))
             ct := (w.drop (countedAt w (typesAt w))).take (countAt w (typesAt w))
             ml := UInt32.ofNat (lengthAt w (metasAt w) (packedWidth (w.getD (metasAt w) 0)))
             cm := (w.drop (countedAt w (metasAt w))).take (countAt w (metasAt w)) } else none := by
  have hdb : 8 + 2 + lengthAt w 8 1 = tbAt w := rfl
  have htb : tbAt w + 2 + lengthAt w (tbAt w) 1 = typesAt w := rfl
  have htypes : countedAt w (typesAt w) + countAt w (typesAt w) = metasAt w := rfl
  have hmetas : countedAt w (metasAt w) + countAt w (metasAt w) = tableMapEnd w := rfl
  have hle1 : tbAt w ≤ typesAt w := by omega
  have hle2 : typesAt w ≤ metasAt w := by rw [← htypes, countedAt]; omega
  have hle3 : metasAt w ≤ tableMapEnd w := by rw [← hmetas, countedAt]; omega
  rw [parseTableMap, parseName_drop, hdb]
  by_cases h1 : tbAt w ≤ w.length
  · simp only [if_pos h1, Option.bind_eq_bind, Option.bind_some]
    rw [parseName_drop, htb]
    by_cases h2 : typesAt w ≤ w.length
    · simp only [if_pos h2, Option.bind_some]
      rw [parseCounted_drop, htypes]
      by_cases h3 : metasAt w ≤ w.length
      · simp only [if_pos h3, Option.bind_some]
        rw [parseCounted_drop, hmetas]
        by_cases h4 : tableMapEnd w ≤ w.length
        · simp only [if_pos h4, Option.bind_some]
        · simp only [if_neg h4, Option.bind_none]
      · rw [if_neg h3, if_neg (by omega)]
        rfl
    · rw [if_neg h2, if_neg (by omega)]
      rfl
  · rw [if_neg h1, if_neg (by omega)]
    rfl

theorem copyInto_bind_isSome {α : Type} {src : List UInt8} (f : List UInt8 → Option α) :
    ((copyInto arr src).bind f).isSome ↔
      src.length ≤ arr.length ∧ (f (src ++ arr.drop src.length)).isSome := by
  rw [copyInto]
  split_ifs with h <;> simp [h]

theorem cstr_bind_isSome {α : Type} {f : List UInt8 → Option α} {p : Prop}
    (hf : ∀ s, (f s).isSome ↔ p) : ((cstr w).bind f).isSome ↔ 0 ∈ w ∧ p := by
  rw [← cstr_isSome]
  cases h : cstr w with
  | none => simp
  | some s => simp [hf]

theorem rsBinlogTableMapBody_isSome (hrd : rd.binlogInfo.Declared) (htables : rd.filterTables = some [])
    (w : List UInt8) : (rsBinlogTableMapBody rd w).isSome ↔
      TableMapFits rd.binlogInfo.db rd.binlogInfo.tb w := by
  rw [rsBinlogTableMapBody, parseTableMap_eq]
  by_cases hend : tableMapEnd w ≤ w.length
  · have htypes : typesAt w ≤ metasAt w := by rw [metasAt, countedAt]; omega
    have hmetas : metasAt w ≤ tableMapEnd w := by rw [tableMapEnd, countedAt]; omega
    have htb : tbAt w ≤ typesAt w := by rw [typesAt]; omega
    have hdblen : ((w.drop 9).take (lengthAt w 8 1 + 1)).length = lengthAt w 8 1 + 1 :=
      length_cut (k := tbAt w) (by rw [tbAt]; omega) (by omega)
    have htblen : ((w.drop (tbAt w + 1)).take (lengthAt w (tbAt w) 1 + 1)).length =
        lengthAt w (tbAt w) 1 + 1 := length_cut (k := typesAt w) (by rw [typesAt]; omega) (by omega)
    have hctlen : ((w.drop (countedAt w (typesAt w))).take (countAt w (typesAt w))).length =
        countAt w (typesAt w) := length_cut (k := metasAt w) (Nat.le_refl _) (by omega)
    have hcmlen : ((w.drop (countedAt w (metasAt w))).take (countAt w (metasAt w))).length =
        countAt w (metasAt w) := length_cut (k := tableMapEnd w) (Nat.le_refl _) hend
    simp only [if_pos hend, Option.bind_eq_bind, Option.bind_some, copyInto_bind_isSome, hdblen, htblen,
      hctlen, hcmlen, hrd.db, hrd.tb, hrd.ct, hrd.cm, Nat.add_le_add_iff_right]
    rw [cstr_bind_isSome (fun s => cstr_bind_isSome (p := True) fun s' => by
      simp [htables, filterDecision])]
    constructor
    · rintro ⟨hdb, htb, hct, hcm, hdbends, htbends, -⟩
      exact ⟨hend, hdb, htb, hct, hcm, hdbends, htbends⟩
    · intro h
      exact ⟨h.dbl, h.tbl, h.types, h.metas, h.db_ends, h.tb_ends, trivial⟩
  · rw [if_neg hend]
    exact iff_of_false (by simp) fun h => hend h.inside

theorem query_rest (e : Event) {sbl dbl : ℕ} (h : 13 + sbl + dbl ≤ e.body.length) :
    (e.el - UInt32.ofNat rsBinlogEventHeaderLen - UInt32.ofNat sbl - 13 - UInt32.ofNat dbl).toNat =
      e.body.length - (13 + sbl + dbl) := by
  have hdl := e.dl_toNat
  have hlt := e.length_lt
  have hsbl : (UInt32.ofNat sbl).toNat = sbl := by rw [UInt32.toNat_ofNat']; omega
  have hdbl : (UInt32.ofNat dbl).toNat = dbl := by rw [UInt32.toNat_ofNat']; omega
  have hfixed : (13 : UInt32).toNat = 13 := rfl
  rw [UInt32.toNat_sub, UInt32.toNat_sub, UInt32.toNat_sub, hdl, hsbl, hdbl, hfixed]
  omega

theorem parseQuery_fits (e : Event)
    (h : 13 + lengthAt e.body 11 2 + (lengthAt e.body 8 1 + 1) ≤ e.body.length) :
    ∃ q, parseQuery e.el e.body = some q ∧ q.db.length = lengthAt e.body 8 1 + 1 ∧
      q.text.length ≤ rsSqlMaxLen := by
  have hname : slice e.body 8 1 = some ((e.body.drop 8).take 1) := if_pos (by omega)
  have hstatus : slice e.body 11 2 = some ((e.body.drop 11).take 2) := if_pos (by omega)
  have hdb : slice e.body (13 + lengthAt e.body 11 2) (lengthAt e.body 8 1 + 1) = some _ := if_pos h
  have hrest := query_rest e h
  have htext : slice e.body (13 + lengthAt e.body 11 2 + (lengthAt e.body 8 1 + 1))
      (min rsSqlMaxLen (e.body.length - (13 + lengthAt e.body 11 2 + (lengthAt e.body 8 1 + 1)))) =
        some _ := if_pos (by omega)
  simp only [parseQuery, hname, hstatus, Option.bind_eq_bind, Option.bind_some]
  rw [← lengthAt, ← lengthAt, hdb, hrest, htext]
  refine ⟨_, rfl, slice_length hdb, ?_⟩
  rw [slice_length htext]
  exact Nat.min_le_left _ _

theorem parseQuery_short (e : Event)
    (h : ¬ 13 + lengthAt e.body 11 2 + (lengthAt e.body 8 1 + 1) ≤ e.body.length) :
    parseQuery e.el e.body = none := by
  rw [parseQuery]
  by_cases hname : 8 + 1 ≤ e.body.length
  · by_cases hstatus : 11 + 2 ≤ e.body.length
    · have hdb : slice e.body (13 + lengthAt e.body 11 2) (lengthAt e.body 8 1 + 1) = none := if_neg h
      simp only [slice, if_pos hname, if_pos hstatus, Option.bind_eq_bind, Option.bind_some]
      rw [← lengthAt, ← lengthAt, ← slice, hdb]
      rfl
    · simp only [slice, if_pos hname, if_neg hstatus, Option.bind_eq_bind, Option.bind_some,
        Option.bind_none]
  · simp only [slice, if_neg hname, Option.bind_eq_bind, Option.bind_none]

theorem rsBinlogQueryBody_isSome (hrd : rd.binlogInfo.Declared) {e : Event}
    (hel : rd.binlogInfo.el = e.el) :
    (rsBinlogQueryBody rd e.body).isSome ↔ lengthAt e.body 8 1 ≤ rsDatabaseNameMaxLen ∧
      13 + lengthAt e.body 11 2 + (lengthAt e.body 8 1 + 1) ≤ e.body.length := by
  rw [rsBinlogQueryBody, hel]
  by_cases h : 13 + lengthAt e.body 11 2 + (lengthAt e.body 8 1 + 1) ≤ e.body.length
  · obtain ⟨q, hq, hdb, htext⟩ := parseQuery_fits e h
    have hsql : (q.text ++ [0]).length ≤ rsSqlMaxLen + 1 := by
      rw [List.length_append]
      exact Nat.succ_le_succ htext
    simp only [hq, Option.bind_eq_bind, Option.bind_some, copyInto_bind_isSome, hdb, hrd.db, hrd.sql,
      Nat.add_le_add_iff_right, Option.isSome_some, and_true, h, hsql]
  · rw [parseQuery_short e h]
    exact iff_of_false (by simp) fun hfit => h hfit.2

theorem rsBinlogIntvarBody_isSome (rd : RsReqdumpData) (w : List UInt8) :
    (rsBinlogIntvarBody rd w).isSome ↔ IntvarFits w := by
  rw [rsBinlogIntvarBody, IntvarFits]
  cases w with
  | nil => simp
  | cons b w =>
    have hslice : (slice (b :: w) 1 8).isSome ↔ 9 ≤ (b :: w).length := by
      rw [slice]
      split_ifs with h
      · exact iff_of_true rfl h
      · exact iff_of_false (by simp) h
    by_cases hb : b = 2
    · subst hb
      cases h : slice (2 :: w) 1 8 with
      | none => simpa [h] using hslice
      | some s => simpa [h] using hslice
    · simp [hb]

theorem rsBinlogXidBody_isSome (rd : RsReqdumpData) (w : List UInt8) :
    (rsBinlogXidBody rd w).isSome ↔ XidFits w := by
  have hlen : (leBytes 8 rd.binlogInfo.tranid.toNat).length = 8 := length_leBytes 8 _
  simp only [rsBinlogXidBody, Option.bind_eq_bind, copyInto_bind_isSome, hlen, Option.isSome_some,
    and_true, XidFits]

theorem handlerBody_declared {h : Handler} {r : RsCode × RsReqdumpData} (hrd : rd.binlogInfo.Declared)
    (hh : h = .query ∨ h = .intvar ∨ h = .xid ∨ h = .tableMap) (hr : handlerBody h rd w = some r) :
    r.2.binlogInfo.Declared := by
  rcases hh with rfl | rfl | rfl | rfl <;>
    simp only [handlerBody, rsBinlogQueryBody, rsBinlogIntvarBody, rsBinlogXidBody, rsBinlogTableMapBody,
      Option.bind_eq_bind, Option.bind_eq_some_iff] at hr
  · obtain ⟨q, -, db, hdb, sql, hsql, hr⟩ := hr
    obtain rfl := Option.some.inj hr
    exact ⟨(length_copyInto hsql).trans hrd.sql, (length_copyInto hdb).trans hrd.db, hrd.tb, hrd.ct, hrd.cm⟩
  · obtain ⟨t, -, hr⟩ := hr
    split_ifs at hr
    · obtain rfl := Option.some.inj hr
      exact ⟨hrd.sql, hrd.db, hrd.tb, hrd.ct, hrd.cm⟩
    · obtain ⟨ai, -, hr⟩ := Option.bind_eq_some_iff.mp hr
      obtain rfl := Option.some.inj hr
      exact ⟨hrd.sql, hrd.db, hrd.tb, hrd.ct, hrd.cm⟩
  · obtain ⟨tranid, -, hr⟩ := hr
    obtain rfl := Option.some.inj hr
    exact ⟨hrd.sql, hrd.db, hrd.tb, hrd.ct, hrd.cm⟩
  · obtain ⟨d, -, db, hdb, tb, htb, ct, hct, cm, hcm, _, -, _, -, filter, -, hr⟩ := hr
    obtain rfl := Option.some.inj hr
    exact ⟨hrd.sql, (length_copyInto hdb).trans hrd.db, (length_copyInto htb).trans hrd.tb,
      (length_copyInto hct).trans hrd.ct, (length_copyInto hcm).trans hrd.cm⟩

theorem header_declared (hrd : rd.binlogInfo.Declared) (eh : List UInt8) :
    (rsBinlogHeaderHandler rd eh).binlogInfo.Declared := ⟨hrd.sql, hrd.db, hrd.tb, hrd.ct, hrd.cm⟩

/-- Each handler reads only the body and writes only its fields exactly if the lengths in the event
say so. -/
theorem staysInside_iff (hrd : rd.binlogInfo.Declared) (e : Event) :
    (StaysInside (rsBinlogHeaderHandler rd e.head) .query e.body ↔ QueryFits e.body) ∧
    (StaysInside (rsBinlogHeaderHandler rd e.head) .intvar e.body ↔ IntvarFits e.body) ∧
    (StaysInside (rsBinlogHeaderHandler rd e.head) .xid e.body ↔ XidFits e.body) ∧
    (StaysInside (rsBinlogHeaderHandler rd e.head) .tableMap e.body ↔
      TableMapFits rd.binlogInfo.db rd.binlogInfo.tb e.body) := by
  have hdecl : (rsBinlogHeaderHandler rd e.head).withTables.binlogInfo.Declared := header_declared hrd e.head
  refine ⟨?_, rsBinlogIntvarBody_isSome _ _, rsBinlogXidBody_isSome _ _, ?_⟩
  · have hdl := header_dl rd e
    by_cases hskip : rsSqlMaxLen * 2 < e.body.length
    · have hstart : handlerStart .query (rsBinlogHeaderHandler rd e.head).withTables =
          .ret .ok (rsBinlogHeaderHandler rd e.head).withTables.setSkip := if_pos (hdl.symm ▸ hskip)
      refine iff_of_true ?_ (Or.inl hskip)
      rw [StaysInside, hstart]
      trivial
    · have hstart : handlerStart .query (rsBinlogHeaderHandler rd e.head).withTables =
          .read (rsBinlogHeaderHandler rd e.head).withTables := if_neg (hdl.symm ▸ hskip)
      rw [StaysInside, hstart, QueryFits, or_iff_right hskip]
      exact rsBinlogQueryBody_isSome hdecl (header_el rd e)
  · exact rsBinlogTableMapBody_isSome hdecl rfl e.body

theorem rsBinlogInfoTInit_declared : rsBinlogInfoTInit.Declared :=
  ⟨List.length_replicate, List.length_replicate, List.length_replicate, List.length_replicate,
    List.length_replicate⟩

theorem staysInside_sampleTableMap :
    StaysInside (rsBinlogHeaderHandler (startSession sampleFile 1 4 (some sampleTables) 1)
      (sampleTableMap 97).head) .tableMap (sampleTableMap 97).body := by
  have hdecl : (startSession sampleFile 1 4 (some sampleTables) 1).binlogInfo.Declared :=
    rsBinlogInfoTInit_declared
  refine (staysInside_iff hdecl (sampleTableMap 97)).2.2.2.mpr ?_
  constructor <;> decide +kernel

def checksummedXid : Event :=
  ⟨[0, 0, 0, 0, 16, 1, 0, 0, 0, 31, 0, 0, 0, 0, 0, 0, 0, 0, 0], [7, 0, 0, 0, 0, 0, 0, 0, 1, 2, 3, 4],
    by decide, by decide⟩

def longNameMap : Event :=
  ⟨[0, 0, 0, 0, 19, 1, 0, 0, 0, 102, 0, 0, 0, 0, 0, 0, 0, 0, 0],
    [1, 0, 0, 0, 0, 0, 1, 0, 66] ++ (List.replicate 22 [230, 176, 180]).flatten ++ [0, 1, 116, 0, 1, 3, 0, 0],
    by decide, by decide +kernel⟩

/-- The checksum is written behind the eight bytes of `tranid`, the name behind the array `db`. -/
theorem not_staysInside : (¬ ∀ (rd : RsReqdumpData) (e : Event), rd.binlogInfo.Declared →
      StaysInside (rsBinlogHeaderHandler rd e.head) .xid e.body) ∧
    ¬ ∀ (rd : RsReqdumpData) (e : Event), rd.binlogInfo.Declared →
      StaysInside (rsBinlogHeaderHandler rd e.head) .tableMap e.body := by
  have hinit : (startSession sampleFile 1 4 (some sampleTables) 1).binlogInfo.Declared :=
    rsBinlogInfoTInit_declared
  constructor
  · intro h
    have hfits := (rsBinlogXidBody_isSome _ _).mp (h _ checksummedXid hinit)
    exact absurd hfits (by decide)
  · intro h
    have hdecl : (rsBinlogHeaderHandler (startSession sampleFile 1 4 (some sampleTables) 1)
        longNameMap.head).withTables.binlogInfo.Declared := header_declared hinit longNameMap.head
    have hfits := (rsBinlogTableMapBody_isSome hdecl rfl _).mp (h _ longNameMap hinit)
    exact absurd hfits.dbl (by decide +kernel)

end MySQLSyncer.Master
