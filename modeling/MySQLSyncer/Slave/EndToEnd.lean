import MySQLSyncer.Master.ServedRows
import MySQLSyncer.Slave.RestartStore

/-! # From the binlog to redis

The slave asks with `rs_send_dumpcmd` for what comes behind its position, the master parses the
command and starts a session there. What the slave gets is what the sessions put in their rings.
-/
namespace MySQLSyncer.Slave
open Lib MySQLSyncer.Core Master

/-- The bytes that `rs_binlog_create_data` leaves for a message. -/
def sentBytes (m : Message) : Option (List UInt8) := m.fill.bind fun chunk => chunk.mapM id

def dumpFileOf (name : List UInt8) : Option DumpFile :=
  if h : name.length ≤ pathMax ∧ 0 ∉ name then some ⟨name, h.1, h.2⟩ else none

/-- What the master sends when the slave asks with this `dump_info`. -/
def served (log : Binlog) (list : List UInt8) (rbEsusec id : UInt32) (dumpInfo : List UInt8) :
    Option (List (List UInt8)) := do
  let bytes ← rsSendDumpcmd dumpInfo list rbEsusec
  let (_, cmd) ← rsParseDumpcmd bytes
  let cmd ← cmd
  let file ← dumpFileOf (← cstr cmd.dumpFile)
  let messages ← log.messagesFrom cmd.filterTables id cmd.dumpNum file cmd.dumpPos
  messages.mapM sentBytes

/-- What the slave finds on the connection, which is nothing when the master refuses. -/
def masterOf (log : Binlog) (list : List UInt8) (rbEsusec id : UInt32) (p : List UInt8) : List (List UInt8) :=
  (served log list rbEsusec id p).getD []

def filterOf (list : List UInt8) : Option (List UInt8) := some (44 :: (list ++ [44]))

/-- Whether the bytes are those of a row message: behind the position stands an event type. -/
def isRowMessage (b : List UInt8) : Bool :=
  match strchr 10 b with
  | some (some len) => b[len + 1]? ≠ some 0
  | _ => false

def placeText (file : DumpFile) (pos : UInt32) : List UInt8 := file.name ++ 44 :: decimal pos.toNat

/-- The row messages of the log as bytes, served from every place where a session may be started. -/
def rowDelivery (log : Binlog) (list : List UInt8) (id : UInt32) : Delivery (List UInt8) (List UInt8) where
  log := (log.rowsUpTo (filterOf list) id log.items.length).map layout
  entry := isRowMessage
  position := positionOf
  serves p j := ∃ k file pos, log.Startable (filterOf list) id k ∧ log.placeAt k = (file, UInt32.toNat pos) ∧
    p = placeText file pos ∧ j = (log.rowsUpTo (filterOf list) id k).length

/-- The files of the log are named as the master names its files, and no row message is as long as
2^31 bytes. -/
structure Servable (log : Binlog) (list : List UInt8) (id : UInt32) : Prop where
  wellFormed : log.WellFormed
  names : ∀ f ∈ log.first :: fileNames log.items, ∃ stem digits, f.name = stem ++ digits ∧ BinlogPath stem digits
  read : ∃ t, log.session (filterOf list) id log.items.length = some t
  short : ∀ m ∈ log.rowsUpTo (filterOf list) id log.items.length, (layout m).length < 2 ^ 31

/-- A list that goes through the command: not empty, a string, and no comma in front. -/
structure SentList (list : List UInt8) : Prop where
  ne : list ≠ []
  noNul : 0 ∉ list
  head : list.head? ≠ some 44
  short : list.length < 2 ^ 30

variable {log : Binlog} {list : List UInt8} {rbEsusec id num pos : UInt32} {file : DumpFile} {m : Message} {k : ℕ}
  {s t v : Session} {items : List Item} {l₁ l₂ : List Message}

theorem sentBytes_eq (h : WellFormed m) : sentBytes m = some (layout m) := by
  rw [sentBytes, fill_eq h, Option.bind_some, mapM_written]

theorem mapM_sentBytes {ms : List Message} (h : ∀ m ∈ ms, WellFormed m) :
    ms.mapM sentBytes = some (ms.map layout) := by
  induction ms with
  | nil => rfl
  | cons m ms ih =>
    rw [List.mapM_cons, sentBytes_eq (h m List.mem_cons_self), ih fun x hx => h x (List.mem_cons_of_mem _ hx)]
    rfl

theorem strchr_layout (h : 10 ∉ m.dumpFile.name) : strchr 10 (layout m) = some (some m.position.length) := by
  rw [layout_eq]
  exact strchr_append (not_mem_position m.dumpFile.noNul (by decide)) (not_mem_position h (by decide)) _

theorem positionOf_layout (h : 10 ∉ m.dumpFile.name) : positionOf (layout m) = some m.position := by
  rw [positionOf, strchr_layout h, layout_eq]
  exact congrArg some List.take_left

theorem isRowMessage_layout (h : 10 ∉ m.dumpFile.name) : isRowMessage (layout m) = decide (m.mev ≠ 0) := by
  have hmev : (layout m)[m.position.length + 1]? = some m.mev := by
    rw [layout_eq, List.getElem?_append_right (Nat.le_add_right _ 1), Nat.add_sub_cancel_left]
    rfl
  rw [isRowMessage, strchr_layout h]
  simp only [hmev, ne_eq, Option.some.injEq]

theorem entriesOnly_rowDelivery {κ ν η : Type} (tableFunc : List UInt8 → Option η)
    (cmds : η → List UInt8 → ℕ → UInt8 → List (κ × ν)) :
    EntriesOnly (rowDelivery log list id) (commandsOf tableFunc cmds) := by
  intro b hb
  replace hb : isRowMessage b = false := hb
  rw [isRowMessage] at hb
  rw [commandsOf, takeApart]
  cases hchr : strchr 10 b with
  | none => rfl
  | some len =>
    cases len with
    | none => rfl
    | some len =>
      simp only [hchr, ne_eq, decide_not, Bool.not_eq_eq_eq_not, Bool.not_false, decide_eq_true_eq] at hb
      have hskip : rsRedisDmlData tableFunc (b.drop len) (b.length - len) = some .skipped := by
        rw [rsRedisDmlData, List.getElem?_drop, hb]
        rfl
      simp only [Option.bind_eq_bind, Option.bind_some, hskip]
      split_ifs <;> rfl

/-- As a session builds it: the names are strings, and the type is that of a row event or none. -/
structure Built (m : Message) : Prop where
  db : 0 ∉ m.db
  tb : 0 ∉ m.tb
  rows : m.mev ≠ 0 → IsRowsEvent m.mev

theorem built_of_run (hs : s.rd.Idle) (hrun : exec sessionStep s items = some t)
    (hring : ∀ m ∈ s.rd.ring, Built m) : ∀ m ∈ t.rd.ring, Built m := by
  induction items generalizing s with
  | nil =>
    obtain rfl := Option.some.inj hrun
    exact hring
  | cons i is ih =>
    obtain ⟨a, hsa, hat⟩ := Option.bind_eq_some_iff.mp hrun
    cases i with
    | file name num =>
      obtain rfl := Option.some.inj hsa
      exact ih (s := ⟨s.rd.openNext name num, false⟩) ⟨hs.mev, hs.sent, hs.skip, hs.flush⟩ hat hring
    | event e =>
      obtain ⟨-, he⟩ := sessionStep_event hs hsa
      refine ih (he.idle hs) hat fun m hm => ?_
      rcases he.ring with ⟨x, hrows, -, hmsg, hput⟩ | ⟨-, hsame | ⟨hput, -⟩⟩
      · rw [hput] at hm
        rcases List.mem_append.mp hm with hm | hm
        · exact hring m hm
        · obtain rfl := List.mem_singleton.mp hm
          have hmev := (RsReqdumpData.rowMessage_spec hmsg).2.2
          obtain ⟨db, hdb, tb, htb, ct, -, cm, -, rfl⟩ := by
            simpa [RsReqdumpData.rowMessage, Option.bind_eq_some_iff] using hmsg
          exact ⟨(cstr_eq_some.mp hdb).1, (cstr_eq_some.mp htb).1, fun _ => hmev ▸ hrows⟩
      · rw [hsame] at hm
        exact hring m hm
      · rw [hput] at hm
        rcases List.mem_append.mp hm with hm | hm
        · exact hring m hm
        · rw [List.mem_singleton.mp hm]
          exact ⟨List.not_mem_nil, List.not_mem_nil, fun hmev => absurd rfl hmev⟩

/-- The row messages of a session that is started where one may be are among those of the log. -/
theorem mem_rows_of_served (h : Servable log list id) (hclosed : Closed (log.syms (filterOf list)))
    (hk : log.Startable (filterOf list) id k)
    (hplace : (startSession file num pos (filterOf list) id).place = log.placeAt k)
    (hv : exec sessionStep ⟨startSession file num pos (filterOf list) id, false⟩ (log.items.drop k) = some v)
    (hm : m ∈ v.rd.ring) (hmev : m.mev ≠ 0) : m ∈ log.rowsUpTo (filterOf list) id log.items.length := by
  obtain ⟨t, ht⟩ := h.read
  obtain ⟨l₁, l₂, hring⟩ := List.append_of_mem hm
  obtain ⟨n, hn, -, hrows⟩ := published_startable h.wellFormed ht hclosed hk hplace hv hring
  refine (Binlog.rowsUpTo_prefix h.wellFormed ht hn.le).subset ?_
  rw [hrows, rowsOf_append]
  exact List.mem_append_right _ (List.mem_append_right _ (by simp [rowsOf, hmev]))

/-- Every message of a session that is started where one may be is as the master can build it. -/
theorem wellFormed_of_served (h : Servable log list id) (hclosed : Closed (log.syms (filterOf list)))
    (hk : log.Startable (filterOf list) id k)
    (hplace : (startSession file num pos (filterOf list) id).place = log.placeAt k)
    (hv : exec sessionStep ⟨startSession file num pos (filterOf list) id, false⟩ (log.items.drop k) = some v)
    (hm : m ∈ v.rd.ring) : WellFormed m := by
  obtain ⟨t, ht⟩ := h.read
  obtain ⟨l₁, l₂, hring⟩ := List.append_of_mem hm
  obtain ⟨n, -, hmplace, -⟩ := published_startable h.wellFormed ht hclosed hk hplace hv hring
  have hnul := built_of_run (s := ⟨startSession file num pos (filterOf list) id, false⟩)
    (startSession_idle _ _ _ _ _) hv (fun m hm => absurd hm List.not_mem_nil) m hm
  obtain ⟨stem, digits, hname, hpath⟩ := h.names m.dumpFile (by
    have hfile := log.placeAt_file (k + n)
    rwa [← hmplace] at hfile)
  refine ⟨by rw [hname]; exact hpath.noNewline, hnul.db, hnul.tb, ?_⟩
  by_cases hmev : m.mev = 0
  · have hdecimal := length_decimal_le m.dumpPos
    have hfile := m.dumpFile.short
    rw [layout, if_pos hmev, List.length_append, length_position]
    simp only [List.length_cons, List.length_nil, pathMax] at hfile ⊢
    omega
  · exact h.short m (mem_rows_of_served h hclosed hk hplace hv hm hmev)

theorem command_place (rbEsusec : UInt32) (h : Servable log list id) (hlist : SentList list)
    (hplace : log.placeAt k = (file, pos.toNat)) :
    ∃ bytes cmd, rsSendDumpcmd (placeText file pos) list rbEsusec = some bytes ∧
      rsParseDumpcmd bytes = some (.ok, some cmd) ∧ (cstr cmd.dumpFile).bind dumpFileOf = some file ∧
      cmd.dumpNum = file.num ∧ cmd.dumpPos = pos ∧ cmd.filterTables = filterOf list := by
  obtain ⟨stem, digits, hname, hpath⟩ := h.names file (by
    have hfile := log.placeAt_file k
    rwa [hplace] at hfile)
  have hlen : (dumpcmdText (stem ++ digits ++ 44 :: decimal pos.toNat) list).length + 4 < 2 ^ 31 := by
    have hdecimal := length_decimal_le pos
    have hfile := hpath.short
    have hshort := hlist.short
    rw [length_dumpcmdText, List.length_append, List.length_cons]
    simp only [pathMax] at hfile
    omega
  obtain ⟨bytes, cmd, hbytes, hcmd, hfile, hnum, hpos, htables, -⟩ := rsParseDumpcmd_text hpath
    (decimal_isDigit pos.toNat) rbEsusec hlist.ne hlist.noNul hlist.head hlen
  rw [decimalValue_decimal, UInt32.ofNat_toNat] at hpos
  refine ⟨bytes, cmd, by rw [placeText, hname]; exact hbytes, hcmd, ?_, ?_, hpos, htables⟩
  · rw [hfile, Option.bind_some, dumpFileOf, dif_pos ⟨hpath.short, hpath.noNul⟩]
    exact congrArg some (DumpFile.name_inj.mp hname.symm)
  · rw [DumpFile.num, hname]
    exact UInt32.toNat_inj.mp (hnum.trans hpath.num.symm)

/-- The slave gets the messages of the session that its command starts. -/
theorem served_startable (rbEsusec : UInt32) (h : Servable log list id) (hlist : SentList list)
    (hclosed : Closed (log.syms (filterOf list))) (hk : log.Startable (filterOf list) id k)
    (hplace : log.placeAt k = (file, pos.toNat)) :
    ∃ v, served log list rbEsusec id (placeText file pos) = some (v.rd.ring.map layout) ∧
      (startSession file file.num pos (filterOf list) id).place = log.placeAt k ∧
      log.messagesFrom (filterOf list) id file.num file pos = some v.rd.ring ∧
      exec sessionStep ⟨startSession file file.num pos (filterOf list) id, false⟩ (log.items.drop k) = some v := by
  obtain ⟨t, ht⟩ := h.read
  obtain ⟨bytes, cmd, hbytes, hcmd, hfile, hnum, hpos, htables⟩ := command_place rbEsusec h hlist hplace
  obtain ⟨name, hname, hdump⟩ := Option.bind_eq_some_iff.mp hfile
  obtain ⟨v, hmessages, hstart, hv⟩ := messagesFrom_startable file.num h.wellFormed ht hclosed hk hplace
  have hsent : v.rd.ring.mapM sentBytes = some (v.rd.ring.map layout) :=
    mapM_sentBytes fun m hm => wellFormed_of_served h hclosed hk hstart hv hm
  refine ⟨v, ?_, hstart, hmessages, hv⟩
  simp only [served, hbytes, hcmd, hname, hdump, hpos, htables, hnum, hmessages, hsent,
      Option.bind_eq_bind, Option.bind_some]

/-- With every place safe that is published, what the master sends goes on with the rows of the log. -/
theorem rowDelivery_served (h : Servable log list id) (hlist : SentList list)
    (hclosed : Closed (log.syms (filterOf list))) (rbEsusec : UInt32) :
    Served (rowDelivery log list id) (placeText log.first 4) (masterOf log list rbEsusec id) where
  position := rfl
  start := ⟨0, log.first, 4, log.startable_zero _ _, rfl, rfl, by rw [Binlog.rowsUpTo, Binlog.session]; rfl⟩
  right := by
    rintro p j ⟨k, file, pos, hk, hplace, rfl, rfl⟩
    obtain ⟨t, ht⟩ := h.read
    obtain ⟨v, hserved, hstart, -, hv⟩ := served_startable rbEsusec h hlist hclosed hk hplace
    rw [masterOf, hserved, Option.getD_some]
    -- behind each part of the ring the rest goes on with the rows
    have hrest (l₁ l₂ : List Message) (hring : v.rd.ring = l₁ ++ l₂) :
        (rowDelivery log list id).Follows ((log.rowsUpTo (filterOf list) id k).length + (rowsOf l₁).length)
          (l₂.map layout) := by
      induction l₂ generalizing l₁ with
      | nil => trivial
      | cons m l₂ ih =>
        obtain ⟨n, hn, hmplace, hrows⟩ := published_startable h.wellFormed ht hclosed hk hstart hv hring
        have hwf := wellFormed_of_served h hclosed hk hstart hv (hring ▸ List.mem_append_right _ List.mem_cons_self)
        have hentry : (rowDelivery log list id).entry (layout m) = decide (m.mev ≠ 0) :=
            isRowMessage_layout hwf.newline
        have hnext : (rowDelivery log list id).next
            ((log.rowsUpTo (filterOf list) id k).length + (rowsOf l₁).length) (layout m) =
            (log.rowsUpTo (filterOf list) id k).length + (rowsOf (l₁ ++ [m])).length := by
          rw [Delivery.next, hentry, rowsOf_append, List.length_append]
          by_cases hmev : m.mev = 0 <;> simp [rowsOf, hmev, Nat.add_assoc]
        refine ⟨⟨fun hrow => ?_, fun q hq => ?_⟩, ?_⟩
        · rw [hentry, decide_eq_true_eq] at hrow
          obtain ⟨rest, hprefix⟩ := Binlog.rowsUpTo_prefix h.wellFormed ht hn.le
          have hone : rowsOf [m] = [m] := by simp [rowsOf, hrow]
          change ((log.rowsUpTo (filterOf list) id log.items.length).map layout)[_]? = _
          rw [List.getElem?_map, ← hprefix, hrows, rowsOf_append, hone, List.append_assoc, List.append_assoc,
            List.getElem?_append_right (Nat.le_add_right _ _), Nat.add_sub_cancel_left,
            List.getElem?_append_right le_rfl, Nat.sub_self]
          rfl
        · obtain rfl : m.position = q := Option.some.inj ((positionOf_layout hwf.newline).symm.trans hq)
          refine ⟨k + n, m.dumpFile, m.dumpPos, hn, hmplace.symm, rfl, ?_⟩
          rw [hnext, hrows, List.length_append]
        · rw [hnext]
          exact ih (l₁ ++ [m]) (by rw [hring, List.append_assoc]; rfl)
    exact hrest [] v.rd.ring rfl

section system
variable {κ ν η : Type} {tableFunc : List UInt8 → Option η} {cmds : η → List UInt8 → ℕ → UInt8 → List (κ × ν)}
  {limit : ℕ} {x : Site κ ν}

def rowCommands (tableFunc : List UInt8 → Option η) (cmds : η → List UInt8 → ℕ → UInt8 → List (κ × ν))
    (m : Message) : List (κ × ν) :=
  match tableFunc (tableKey m) with
  | some handler => cmds handler (rowData m) (rowData m).length m.mev
  | none => []

theorem commandsOf_layout (hwf : WellFormed m) (hrow : IsRowsEvent m.mev) :
    commandsOf tableFunc cmds (layout m) = rowCommands tableFunc cmds m := by
  rw [commandsOf, takeApart_layout hwf, rsRedisDmlData_layout hwf hrow, rowCommands]
  cases tableFunc (tableKey m) <;> rfl

theorem mem_rowsUpTo (h : Servable log list id) (hclosed : Closed (log.syms (filterOf list)))
    (hm : m ∈ log.rowsUpTo (filterOf list) id log.items.length) : WellFormed m ∧ IsRowsEvent m.mev := by
  obtain ⟨t, ht⟩ := h.read
  rw [Binlog.rowsUpTo, ht, Option.map_some, Option.getD_some, rowsOf, List.mem_filter] at hm
  obtain ⟨hring, hmev⟩ := hm
  rw [Binlog.session, List.take_length] at ht
  refine ⟨wellFormed_of_served h hclosed (log.startable_zero _ _) rfl ht hring, ?_⟩
  exact (built_of_run (s := ⟨startSession log.first log.num 0 (filterOf list) id, false⟩)
      (startSession_idle _ _ _ _ _)
    ht (fun m hm => absurd hm List.not_mem_nil) m hring).rows (by simpa using hmev)

/-- The rows of the log up to a place are those before the entry that comes next. -/
theorem rowDelivery_take (h : Servable log list id) (hk : k ≤ log.items.length) :
    (rowDelivery log list id).log.take (log.rowsUpTo (filterOf list) id k).length =
      (log.rowsUpTo (filterOf list) id k).map layout := by
  obtain ⟨t, ht⟩ := h.read
  obtain ⟨rest, hrest⟩ := Binlog.rowsUpTo_prefix h.wellFormed ht hk
  change ((log.rowsUpTo (filterOf list) id log.items.length).map layout).take _ = _
  rw [← hrest, List.map_append, ← List.length_map (f := layout), List.take_left]

/-- The position that was saved last is a place of the log, and redis has run all rows before it. -/
theorem Site.AtLeastOnce.place (h : Servable log list id) (hx : x.AtLeastOnce (rowDelivery log list id)) :
    ∃ k file pos, k ≤ log.items.length ∧ log.placeAt k = (file, UInt32.toNat pos) ∧
      (x.replica.redis.phase ≠ .exited → x.replica.redis.infoFile = placeText file pos) ∧
      ∀ m ∈ log.rowsUpTo (filterOf list) id k, layout m ∈ x.finished := by
  obtain ⟨p, j, -, hfile, ⟨k, file, pos, hk, hplace, rfl, rfl⟩, hall⟩ := hx.saved
  refine ⟨k, file, pos, hk.le, hplace, hfile, fun m hm => hall _ ?_⟩
  rw [rowDelivery_take h hk.le]
  exact List.mem_map_of_mem hm

/-- Whatever connections are lost and wherever the slave ends, it goes on from a place of the log
all whose row messages up to there have been run by redis. -/
theorem endToEnd_atLeastOnce [DecidableEq κ] (h : Servable log list id) (hlist : SentList list)
    (hone : OneStatement (log.syms (filterOf list))) (s₀ : κ → Option ν) (save savesec : UInt32) {as : List SiteAct}
    (hok : Along (siteStep tableFunc cmds (masterOf log list rbEsusec id) limit) Site.Orderly
      (Site.init s₀ save savesec (placeText log.first 4)) as)
    (hrun : exec (siteStep tableFunc cmds (masterOf log list rbEsusec id) limit)
      (Site.init s₀ save savesec (placeText log.first 4)) as = some x) :
    ∃ k file pos, k ≤ log.items.length ∧ log.placeAt k = (file, UInt32.toNat pos) ∧
      (x.replica.redis.phase ≠ .exited → x.replica.redis.infoFile = placeText file pos) ∧
      ∀ m ∈ log.rowsUpTo (filterOf list) id k, layout m ∈ x.finished :=
  Site.AtLeastOnce.place h
    (Site.atLeastOnce_of_run (rowDelivery_served h hlist (closed_of_oneStatement hone) rbEsusec) s₀ save savesec hok hrun)

/-- A text names one place. -/
theorem placeText_inj {file' : DumpFile} {pos' : UInt32} (hfile : 44 ∉ file.name) (hfile' : 44 ∉ file'.name)
    (h : placeText file pos = placeText file' pos') : file = file' ∧ pos = pos' := by
  obtain ⟨hname, hpos⟩ : file.name = file'.name ∧ decimal pos.toNat = decimal pos'.toNat := by
    have hchr := congrArg (strchr 44) h
    rw [placeText, placeText, strchr_append file.noNul hfile, strchr_append file'.noNul hfile'] at hchr
    obtain ⟨hname, hrest⟩ := List.append_inj h (Option.some.inj (Option.some.inj hchr))
    exact ⟨hname, (List.cons.inj hrest).2⟩
  refine ⟨DumpFile.name_inj.mp hname, UInt32.toNat_inj.mp ?_⟩
  rw [← decimalValue_decimal pos.toNat, hpos, decimalValue_decimal]

theorem rowDelivery_serves {j : ℕ} (h : Servable log list id) (hk : k ≤ log.items.length)
    (hplace : log.placeAt k = (file, pos.toNat)) (hj : (rowDelivery log list id).serves (placeText file pos) j) :
    j = (log.rowsUpTo (filterOf list) id k).length := by
  obtain ⟨k', file', pos', hk', hplace', htext, rfl⟩ := hj
  have hcomma {f : DumpFile} {n i : ℕ} (hi : log.placeAt i = (f, n)) : 44 ∉ f.name := by
    obtain ⟨stem, digits, hname, hpath⟩ := h.names f (by
      have hfile := log.placeAt_file i
      rwa [hi] at hfile)
    rw [hname]
    exact hpath.noComma
  obtain ⟨rfl, rfl⟩ := placeText_inj (hcomma hplace) (hcomma hplace') htext
  rw [log.placeAt_inj h.wellFormed hk hk'.le (hplace.trans hplace'.symm)]

/-- What the commands leave when the master goes on with the rows of the log from every place. -/
theorem store_of_served [DecidableEq κ] {resume : List UInt8 → List (List UInt8)} (h : Servable log list id)
    (hclosed : Closed (log.syms (filterOf list))) (hserved : Served (rowDelivery log list id)
        (placeText log.first 4) resume)
    (s₀ : κ → Option ν) (save savesec : UInt32) {as : List SiteAct}
    (hok : Along (siteStep tableFunc cmds resume limit) Site.OrderlyDrained
      (Site.init s₀ save savesec (placeText log.first 4)) as)
    (hrun : exec (siteStep tableFunc cmds resume limit) (Site.init s₀ save savesec
        (placeText log.first 4)) as = some x)
    (hlive : x.replica.redis.phase ≠ .exited) (hran : x.ran = x.queued.length) (hk : k ≤ log.items.length)
    (hplace : log.placeAt k = (file, pos.toNat)) (hinfo : x.replica.redis.dumpInfo = placeText file pos)
    (hall : log.rowsUpTo (filterOf list) id k = log.rowsUpTo (filterOf list) id log.items.length) :
    x.store = assignAll s₀ ((log.rowsUpTo (filterOf list) id log.items.length).flatMap
      (rowCommands tableFunc cmds)) := by
  obtain ⟨t, ht⟩ := h.read
  have hlast {i : ℕ} (hi : (rowDelivery log list id).serves x.replica.redis.dumpInfo i) :
      i = (log.rowsUpTo (filterOf list) id log.items.length).length := by
    rw [hinfo] at hi
    rw [← hall]
    exact rowDelivery_serves h hk hplace hi
  obtain ⟨j, hj, hstore⟩ := Site.store_of_run hserved (entriesOnly_rowDelivery tableFunc cmds) s₀ save savesec hok hrun
    hlive hran fun p _ i j hi hj => by
      obtain ⟨k', file', pos', hk', -, -, rfl⟩ := hi
      rw [hlast hj]
      exact (Binlog.rowsUpTo_prefix h.wellFormed ht hk'.le).length_le
  rw [hstore, hlast hj, rowDelivery_take h le_rfl, List.flatMap_map]
  refine congrArg (assignAll s₀) (List.flatMap_congr fun m hm => ?_)
  obtain ⟨hwf, hrow⟩ := mem_rowsUpTo h hclosed hm
  exact commandsOf_layout hwf hrow

/-- When redis has run all that the slave appended, and the slave's position has all row messages of
the log before it, the data in redis is what the log gives when it is run once, however often
connections were lost and the slave ended. -/
theorem endToEnd_store [DecidableEq κ] (h : Servable log list id) (hlist : SentList list)
    (hone : OneStatement (log.syms (filterOf list))) (s₀ : κ → Option ν) (save savesec : UInt32) {as : List SiteAct}
    (hok : Along (siteStep tableFunc cmds (masterOf log list rbEsusec id) limit) Site.OrderlyDrained
      (Site.init s₀ save savesec (placeText log.first 4)) as)
    (hrun : exec (siteStep tableFunc cmds (masterOf log list rbEsusec id) limit)
      (Site.init s₀ save savesec (placeText log.first 4)) as = some x)
    (hlive : x.replica.redis.phase ≠ .exited) (hran : x.ran = x.queued.length) (hk : k ≤ log.items.length)
    (hplace : log.placeAt k = (file, pos.toNat)) (hinfo : x.replica.redis.dumpInfo = placeText file pos)
    (hall : log.rowsUpTo (filterOf list) id k = log.rowsUpTo (filterOf list) id log.items.length) :
    x.store = assignAll s₀ ((log.rowsUpTo (filterOf list) id log.items.length).flatMap
      (rowCommands tableFunc cmds)) :=
  have hclosed := closed_of_oneStatement hone
  store_of_served h hclosed (rowDelivery_served h hlist hclosed rbEsusec) s₀ save savesec hok hrun hlive hran hk hplace
    hinfo hall

end system

theorem commitLog_servable : Servable commitLog [100, 46, 97] 1 where
  wellFormed := commitLog_wellFormed
  names := by
    intro f hf
    obtain rfl := List.mem_singleton.mp hf
    exact ⟨[98], [48, 48, 49], rfl,
      { short := by decide, noNul := by decide, noComma := by decide, noNewline := by decide
        stem_last := ⟨[], 98, rfl, by decide⟩
        digits_pos := by decide, digits_le := by decide, digits := by simp [IsDigit] }⟩
  read := Option.isSome_iff_exists.mp (by decide +kernel)
  short := by decide +kernel

theorem sentList_sample : SentList [100, 46, 97] := ⟨by decide, by decide, by decide, by decide⟩

def lastByteCmds : List UInt8 → List UInt8 → ℕ → UInt8 → List (UInt8 × UInt8) :=
  fun _ data _ _ => [(0, data.getLastD 0)]

/-- The slave ends when redis has run the command and no position is saved. The next one asks for
the same messages. -/
def commitRun : List SiteAct :=
  [.run .connect, .run .receive, .run .receive, .run (.take 1 .ok), .command true, .restart 9 9, .run .connect,
    .run .receive, .run .receive, .run (.take 1 .ok), .run (.redis (.flush 0 .done)), .run (.redis .advance),
    .run (.take 0 .ok), .run (.redis (.flush 0 .done)), .run (.redis .advance), .command true, .run (.redis .empty),
    .run (.redis (.reply true)), .run (.redis .replied), .run (.redis .spun), .run (.redis (.flush 60 .done))]

def commitSite : Option (Site UInt8 UInt8) :=
  exec (siteStep some lastByteCmds (masterOf commitLog [100, 46, 97] 1000 1) 4)
    (Site.init (fun _ => none) 9 9 (placeText numberedFile 4)) commitRun

theorem endToEnd_atLeastOnce_commitRun : ∃ x, commitSite = some x ∧
    x.replica.redis.infoFile = placeText numberedFile 134 ∧
    ∃ k file pos, k ≤ commitLog.items.length ∧ commitLog.placeAt k = (file, UInt32.toNat pos) ∧
      (x.replica.redis.phase ≠ .exited → x.replica.redis.infoFile = placeText file pos) ∧
      ∀ m ∈ commitLog.rowsUpTo (filterOf [100, 46, 97]) 1 k, layout m ∈ x.finished := by
  have hrun : commitSite.map (fun x => x.replica.redis.infoFile) = some (placeText numberedFile 134) := by
    decide +kernel
  obtain ⟨x, hx, hfile⟩ := Option.map_eq_some_iff.mp hrun
  have hok : Along (siteStep some lastByteCmds (masterOf commitLog [100, 46, 97] 1000 1) 4) Site.Orderly
      (Site.init (fun _ => none) 9 9 (placeText numberedFile 4)) commitRun := by decide +kernel
  exact ⟨x, hx, hfile, endToEnd_atLeastOnce commitLog_servable sentList_sample (by decide) _ 9 9 hok hx⟩

theorem endToEnd_store_commitRun : ∃ x, commitSite = some x ∧
    x.store = assignAll (fun _ => none) ((commitLog.rowsUpTo (filterOf [100, 46, 97]) 1 4).flatMap
      (rowCommands some lastByteCmds)) := by
  have hrun : commitSite.map (fun x => (decide (x.replica.redis.phase ≠ .exited), x.ran, x.queued.length,
      x.replica.redis.dumpInfo)) = some (true, 1, 1, placeText numberedFile 134) := by decide +kernel
  obtain ⟨x, hx, hval⟩ := Option.map_eq_some_iff.mp hrun
  obtain ⟨hlive, hran, hqueued, hinfo⟩ : decide (x.replica.redis.phase ≠ .exited) = true ∧ x.ran = 1 ∧
      x.queued.length = 1 ∧ x.replica.redis.dumpInfo = placeText numberedFile 134 := by
    simpa only [Prod.mk.injEq] using hval
  have hok : Along (siteStep some lastByteCmds (masterOf commitLog [100, 46, 97] 1000 1) 4) Site.OrderlyDrained
      (Site.init (fun _ => none) 9 9 (placeText numberedFile 4)) commitRun := by decide +kernel
  have hplace : commitLog.placeAt 4 = (numberedFile, (134 : UInt32).toNat) := rfl
  exact ⟨x, hx, endToEnd_store commitLog_servable sentList_sample (by decide) _ 9 9 hok hx
    (of_decide_eq_true hlive) (hran.trans hqueued.symm) le_rfl hplace hinfo rfl⟩

end MySQLSyncer.Slave
