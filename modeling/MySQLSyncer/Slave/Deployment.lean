import MySQLSyncer.Slave.Connection

/-! # The two programs with their connections, crashes and restarts

Below the two threads of the slave stand the chunks of its ring, the bytes of each connection, the
threads of the master and the files of the server. Seen from the threads of the slave, this is a master
that sends what the files as they are at the end have behind each position.
-/
namespace MySQLSyncer.Slave
open Lib MySQLSyncer.Core Master

/-- The settings of both programs. What the table handlers append is a parameter. -/
structure Setup (κ ν η : Type) extends Settings where
  tableFunc : List UInt8 → Option η
  cmds : η → List UInt8 → ℕ → UInt8 → List (κ × ν)

/-- The master with the connection, and the slave with its redis, whose messages lie in the chunks of
the connection's ring. While the slave is between two connections, only the files count of what the
master has. -/
structure Deployment (κ ν : Type) where
  conn : Connection
  site : Site κ ν

inductive DeploymentAct where
  | conn (a : ConnectionAct)
  /-- The memory of the new session holds anything. -/
  | connect (mem : Memory UInt8)
  | slave (a : SiteAct)

/-- The steps of the receiving thread, which are those of the connection here. -/
def SiteAct.Receives : SiteAct → Prop
  | .run .connect | .run .receive | .run .lose => True
  | _ => False

instance : DecidablePred SiteAct.Receives
  | .run .connect | .run .receive | .run .lose => isTrue trivial
  | .run (.redis _) | .run (.take _ _) | .command _ | .late _ | .restart _ _ => isFalse id

def ConnectionAct.Consumes : ConnectionAct → Prop
  | .relay .consume => True
  | _ => False

instance : DecidablePred ConnectionAct.Consumes
  | .relay .consume => isTrue trivial
  | .relay (.dump _) | .relay (.slot _) | .relay (.read _ _) | .master _ | .ring _ => isFalse id

def Deployment.seen {κ ν : Type} (t : Deployment κ ν) : Site κ ν :=
  { t.site with replica := { t.site.replica with ring := t.conn.relay.slave.msgs.unread } }

section step
variable {κ ν η : Type} (s : Setup κ ν η)

/-- The slave connects and sends its command, the master parses it and starts a session. -/
def Setup.accept (t : Deployment κ ν) (mem : Memory UInt8) : Option Connection := do
  let slave ← chunkedStep t.conn.relay.slave .connect
  let bytes ← rsSendDumpcmd t.site.replica.redis.dumpInfo s.list s.rbEsusec
  let (_, cmd) ← rsParseDumpcmd bytes
  let cmd ← cmd
  let file ← (cstr cmd.dumpFile).bind dumpFileOf
  let stream := Stream.init t.conn.stream.sys.disk s.ioSize file cmd.dumpPos cmd.filterTables s.serverId
  some ⟨{ stream with sys.reader.rd.dumpNum := cmd.dumpNum }, [], MessageRing.init s.sessionUse mem s.sessionNum,
    ⟨DumpThread.init s.sendSize, [], slave, true⟩, file, cmd.dumpPos⟩

/-- What a step of the slave's other thread leaves of the connection. The next process has a new pool,
a new buffer and no connection. -/
def Connection.behind (c : Connection) (s : Settings) : SiteAct → Option Connection
  | .run (.redis .advance) => connectionStep c (.relay .consume)
  | .restart _ _ => some { c with
      relay.slave := ⟨IoThread.init s.recvSize, .init s.slaveUse c.relay.slave.msgs.mem s.slaveNum⟩ }
  | _ => some c

def deploymentStep [DecidableEq κ] (t : Deployment κ ν) : DeploymentAct → Option (Deployment κ ν)
  | .conn a => if a.Consumes then none else (connectionStep t.conn a).map fun c => { t with conn := c }
  | .connect mem => (s.accept t mem).map fun c => { t with conn := c }
  | .slave a => if a.Receives then none else
      (siteStep s.tableFunc s.cmds (fun _ => []) s.slaveNum t.seen a).bind fun x =>
        (t.conn.behind s.toSettings a).map fun c => ⟨c, x⟩

/-- The slave starts at the beginning of the first file, and no session has been started. -/
def Setup.init (d : Disk) (s₀ : κ → Option ν) (save savesec : UInt32) : Deployment κ ν :=
  ⟨{ stream := ⟨⟨d, { Reader.init s.ioSize d.log.first 4 none s.serverId with phase := .finished }⟩, false⟩
     pending := [], ring := MessageRing.init s.sessionUse (fun _ => 0) s.sessionNum
     relay := ⟨DumpThread.init s.sendSize, [], ⟨IoThread.init s.recvSize,
         .init s.slaveUse (fun _ => 0) s.slaveNum⟩, true⟩
     file := d.log.first, pos := 4 }, Site.init s₀ save savesec (placeText d.log.first 4)⟩

end step

/-- No `fread` passes over bytes and no change of files misses an event. A connection is lost with an
empty buffer only, and made when no slot has a chunk that was released. The slave's steps are orderly. -/
def Deployment.Orderly {κ ν : Type} (t : Deployment κ ν) : DeploymentAct → Prop
  | .conn (.relay (.read chunk _)) => chunk = [] → t.conn.relay.slave.io.recvBuf.bytes = []
  | .conn a => t.conn.SeesAll a
  | .connect _ => ¬ t.conn.relay.slave.msgs.ring.Stale
  | .slave a => t.site.Orderly a

/-- A connection is made only when the position of every message in the ring is stored. -/
def Deployment.ConnectsDrained {κ ν : Type} (t : Deployment κ ν) : DeploymentAct → Prop
  | .connect _ => t.seen.replica.unread = []
  | .conn _ | .slave _ => True

instance : DecidablePred MessageSlots.Stale := fun s =>
  decidable_of_iff (∃ x ∈ s.slots[s.wp]?.join.toList, x ∉ s.use.live)
      (by simp [MessageSlots.Stale, Option.join_eq_some_iff])

instance {κ ν : Type} (t : Deployment κ ν) (a : DeploymentAct) : Decidable (t.Orderly a) :=
  match a with
  | .conn (.relay (.read chunk _)) => inferInstanceAs (Decidable (chunk = [] →
        t.conn.relay.slave.io.recvBuf.bytes = []))
  | .conn (.master a) => inferInstanceAs (Decidable (t.conn.SeesAll (.master a)))
  | .conn (.ring _) | .conn (.relay (.dump _)) | .conn (.relay (.slot _)) | .conn (.relay .consume) => isTrue trivial
  | .connect _ => inferInstanceAs (Decidable (¬ _))
  | .slave a => inferInstanceAs (Decidable (t.site.Orderly a))

instance {κ ν : Type} (t : Deployment κ ν) (a : DeploymentAct) : Decidable (t.ConnectsDrained a) :=
  match a with
  | .connect _ => inferInstanceAs (Decidable (_ = _))
  | .conn _ | .slave _ => isTrue trivial

/-- The slave above the connection, for a master that sends these messages for a position. -/
def Site.withConn {κ ν : Type} (x : Site κ ν) (conn : Option (List (List UInt8))) : Site κ ν :=
  { x with replica := { x.replica with conn := conn } }

def Connection.rest (c : Connection) (resume : List UInt8 → List (List UInt8)) : Option (List (List UInt8)) :=
  if c.relay.slave.io.phase = .offline then none
  else some ((resume (placeText c.file c.pos)).drop c.relay.slave.io.stored.length)

def Deployment.view {κ ν : Type} (t : Deployment κ ν) (resume : List UInt8 → List (List UInt8)) : Site κ ν :=
  t.seen.withConn (t.conn.rest resume)

variable {κ ν η : Type} {s : Setup κ ν η} {tableFunc : List UInt8 → Option η}
  {cmds : η → List UInt8 → ℕ → UInt8 → List (κ × ν)} {resume resume' : List UInt8 → List (List UInt8)} {num : ℕ}
  {x y : Site κ ν} {r q : Replica} {t u : Deployment κ ν} {io v : IoThread} {c e : Connection} {log : Binlog} {d : Disk}
  {conn : Option (List (List UInt8))} {recvSize : UInt32} {mem : Memory UInt8}

/-- The thread that takes the messages does not look at the connection. -/
theorem replicaStep_redis_conn (b : RedisAct) : replicaStep tableFunc resume num { r with conn := conn } (.redis b) =
    (replicaStep tableFunc resume' num r (.redis b)).map fun q => { q with conn := conn } := by
  cases b with
  | empty | spun =>
    rw [replicaStep, replicaStep]
    split_ifs <;> simp [Option.map_map, Function.comp_def]
  | reply _ | replied | flush _ _ | advance => simp [replicaStep, Option.map_map, Function.comp_def]
  | message _ _ _ | badMessage => rfl

theorem replicaStep_take_conn (k : ℕ) (code : RsCode) :
    replicaStep tableFunc resume num { r with conn := conn } (.take k code) =
      (replicaStep tableFunc resume' num r (.take k code)).map fun q => { q with conn := conn } := by
  rw [replicaStep, replicaStep]
  cases r.ring with
  | nil => rfl
  | cons m ring => cases takeApart tableFunc m <;> simp [Option.map_map, Function.comp_def]

def connBehind (conn : Option (List (List UInt8))) : SiteAct → Option (List (List UInt8))
  | .restart _ _ => none
  | _ => conn

theorem siteStep_withConn [DecidableEq κ] {a : SiteAct} (ha : ¬ a.Receives)
    (hs : siteStep tableFunc cmds resume' num x a = some y) :
    siteStep tableFunc cmds resume num (x.withConn conn) a = some (y.withConn (connBehind conn a)) := by
  cases a with
  | command ok =>
    obtain ⟨b, hb, rfl⟩ := Option.map_eq_some_iff.mp hs
    exact Option.map_eq_some_iff.mpr ⟨b, hb, rfl⟩
  | late i =>
    simp only [siteStep] at hs ⊢
    split at hs
    · rename_i b rest hleft
      obtain rfl := Option.some.inj hs
      simp [Site.withConn, connBehind, hleft]
    · cases hs
  | restart save savesec =>
    obtain ⟨info, hinfo, rfl⟩ := Option.map_eq_some_iff.mp hs
    exact Option.map_eq_some_iff.mpr ⟨info, hinfo, rfl⟩
  | run a =>
    cases a with
    | connect | receive | lose => exact absurd trivial ha
    | redis b =>
      obtain ⟨hreplies, hs⟩ := Option.ite_none_right_eq_some.mp hs
      obtain ⟨q, hq, rfl⟩ := Option.map_eq_some_iff.mp hs
      refine Option.ite_none_right_eq_some.mpr ⟨hreplies, Option.map_eq_some_iff.mpr
          ⟨{ q with conn := conn }, ?_, rfl⟩⟩
      exact (replicaStep_redis_conn b).trans (congrArg (Option.map _) hq)
    | take k code =>
      obtain ⟨m, hm, hs⟩ := Option.bind_eq_some_iff.mp hs
      obtain ⟨hk, hs⟩ := Option.ite_none_right_eq_some.mp hs
      obtain ⟨q, hq, hs⟩ := Option.bind_eq_some_iff.mp hs
      obtain rfl := Option.some.inj hs
      refine Option.bind_eq_some_iff.mpr ⟨m, hm, Option.ite_none_right_eq_some.mpr ⟨hk, Option.bind_eq_some_iff.mpr
        ⟨{ q with conn := conn }, ?_, rfl⟩⟩⟩
      exact (replicaStep_take_conn k code).trans (congrArg (Option.map _) hq)

def ringBehind (ring : List (List UInt8)) : SiteAct → List (List UInt8)
  | .run (.redis .advance) => ring.tail
  | .restart _ _ => []
  | _ => ring

theorem siteStep_ring [DecidableEq κ] {a : SiteAct} (ha : ¬ a.Receives)
    (hs : siteStep tableFunc cmds resume num x a = some y) : y.replica.ring = ringBehind x.replica.ring a := by
  cases a with
  | command ok =>
    obtain ⟨b, -, rfl⟩ := Option.map_eq_some_iff.mp hs
    rfl
  | late i =>
    rw [siteStep] at hs
    split at hs
    · obtain rfl := Option.some.inj hs
      rfl
    · cases hs
  | restart save savesec =>
    obtain ⟨info, -, rfl⟩ := Option.map_eq_some_iff.mp hs
    rfl
  | run a =>
    rcases siteStep_run hs with ⟨k, code, rfl, htake⟩ | ⟨htake, -, q, hq, rfl⟩
    · obtain ⟨m, ring, -, -, -, hsame, -⟩ := siteTake_cases htake
      exact hsame
    · cases a with
      | connect | receive | lose => exact absurd trivial ha
      | take k code => exact absurd rfl (htake k code)
      | redis b =>
        cases b with
        | empty | spun =>
          obtain ⟨-, hq⟩ := Option.ite_none_right_eq_some.mp hq
          obtain ⟨z, -, rfl⟩ := Option.map_eq_some_iff.mp hq
          rfl
        | reply _ | replied | flush _ _ | advance =>
          obtain ⟨z, -, rfl⟩ := Option.map_eq_some_iff.mp hq
          rfl
        | message _ _ _ | badMessage => cases hq

/-- A call stores one message at most, and then the thread is at the top of its loop. -/
theorem ioStep_stores {a : IoAct} (ha : a ≠ .connect) (hs : ioStep io a = some v) :
    v.stored = io.stored ∨ ∃ m, v.stored = io.stored ++ [m] ∧ v.phase = .ready := by
  have hpayload (w : IoThread) (hw : w.stored = io.stored) (r : Recv) : (afterPayload w r).stored = io.stored ∨
      ∃ m, (afterPayload w r).stored = io.stored ++ [m] ∧ (afterPayload w r).phase = .ready := by
    cases r with
    | loop copied s b => exact Or.inl hw
    | ret code data b =>
      by_cases hcode : code = .ok
      · subst hcode
        exact Or.inr ⟨data, congrArg (· ++ [data]) hw, rfl⟩
      · rw [afterPayload_fail w hcode]
        exact Or.inl hw
  have hlength (w : IoThread) (hw : w.stored = io.stored) (alloc : Bool) (r : Recv)
      (hv : afterLength w alloc r = some v) :
      v.stored = io.stored ∨ ∃ m, v.stored = io.stored ++ [m] ∧ v.phase = .ready := by
    cases r with
    | loop copied s b =>
      obtain rfl := Option.some.inj hv
      exact Or.inl hw
    | ret code data b =>
      by_cases hcode : code = .ok
      · subst hcode
        rw [afterLength] at hv
        split_ifs at hv
        · obtain rfl := Option.some.inj hv
          exact hpayload w hw _
        · obtain rfl := Option.some.inj hv
          exact Or.inl hw
      · rw [afterLength_fail w alloc hcode] at hv
        obtain rfl := Option.some.inj hv
        exact Or.inl hw
  cases a with
  | connect => exact absurd rfl ha
  | slot alloc =>
    obtain ⟨-, hs⟩ := Option.ite_none_right_eq_some.mp hs
    exact hlength io rfl alloc _ hs
  | read chunk alloc =>
    cases hp : io.phase with
    | length copied s =>
      rw [ioStep_read_length hp] at hs
      obtain ⟨r, -, hv⟩ := Option.bind_eq_some_iff.mp hs
      exact hlength { io with stream := io.stream ++ chunk } rfl alloc r hv
    | payload copied s =>
      rw [ioStep_read_payload hp] at hs
      obtain ⟨r, -, rfl⟩ := Option.map_eq_some_iff.mp hs
      exact hpayload { io with stream := io.stream ++ chunk } rfl r
    | offline | ready | exited => simp [ioStep, hp] at hs

/-- A connection that is lost with an empty buffer leaves nothing for the next one. -/
theorem Relay.Inv.io_inv {t u : Relay} {a : RelayAct} (h : t.Inv recvSize) (hio : t.io.Inv)
    (hempty : ∀ alloc, a = .read [] alloc → t.io.recvBuf.bytes = []) (hs : relayStep t a = some u) : u.io.Inv := by
  have hsplit := hio.split
  unfold IoThread.Split at hsplit
  cases a with
  | dump b =>
    obtain ⟨-, hs⟩ := Option.ite_none_right_eq_some.mp hs
    obtain ⟨⟨d, sent⟩, -, rfl⟩ := Option.map_eq_some_iff.mp hs
    exact hio
  | slot alloc =>
    obtain ⟨⟨-, hp⟩, hs⟩ := Option.ite_none_right_eq_some.mp hs
    obtain rfl := Option.some.inj hs
    rw [hp] at hsplit
    have hflow := h.flow
    rw [hsplit, List.append_assoc] at hflow
    cases hv : ioStep t.io (.slot alloc) with
    | none => exact hio
    | some v => exact hio.slot (h.length_ok hflow).1 hv
  | read chunk alloc =>
    obtain ⟨⟨-, hwait, ⟨wire, hwire⟩, hfit⟩, hs⟩ := Option.ite_none_right_eq_some.mp hs
    obtain rfl := Option.some.inj hs
    by_cases hne : chunk = []
    · subst hne
      have hbytes := hempty alloc rfl
      have hfail : ioStep t.io (.read [] alloc) = some { t.io with phase := .offline } := ioStep_fail hwait
      rw [hfail]
      refine hio.read ⟨fun _ => hbytes, ?_⟩ hfail
      cases hp : t.io.phase with
      | length copied s =>
        rw [hp] at hsplit
        intro hlt
        rw [hbytes, List.append_nil, List.append_nil] at hlt
        omega
      | _ => trivial
    · have hflow := h.flow
      rw [← hwire, ← List.append_assoc, ← List.append_assoc, List.append_assoc _ wire] at hflow
      obtain ⟨v, hstep, hv, -⟩ := h.ioStep_read alloc hwait hne hfit hflow
      rw [hstep]
      exact hv

theorem siteStep_connect [DecidableEq κ] (hconn : x.replica.conn = none) :
    siteStep tableFunc cmds resume num x (.run .connect) = some
        (x.withConn (some (resume x.replica.redis.dumpInfo))) := by
  simp [siteStep, Site.Replies, replicaStep, hconn, Site.withConn]

theorem siteStep_lose [DecidableEq κ] (hconn : x.replica.conn ≠ none) :
    siteStep tableFunc cmds resume num x (.run .lose) = some (x.withConn none) := by
  simp [siteStep, Site.Replies, replicaStep, hconn, Site.withConn]

theorem siteStep_receive [DecidableEq κ] {m : List UInt8} {ms : List (List UInt8)}
    (hconn : x.replica.conn = some (m :: ms))
    (hroom : x.replica.ring.length < num) : siteStep tableFunc cmds resume num x (.run .receive) =
      some { x with replica := { x.replica with ring := x.replica.ring ++ [m], conn := some ms } } := by
  simp [siteStep, Site.Replies, replicaStep, hconn, hroom]

theorem withConn_orderly {a : SiteAct} : (x.withConn conn).Orderly a ↔ x.Orderly a := by
  cases a with
  | run b => cases b <;> exact Iff.rfl
  | command _ => exact Iff.rfl
  | late _ => exact Iff.rfl
  | restart _ _ => exact Iff.rfl

/-- What the master sends for a position when its files have come to this log. -/
def Settings.serve (s : Settings) (log : Binlog) : List UInt8 → List (List UInt8) :=
  masterOf log s.list s.rbEsusec s.serverId

def Site.Allowed (D : Prop) (x : Site κ ν) (a : SiteAct) : Prop :=
  x.Orderly a ∧ (D → ∀ b, a = .run b → x.replica.ConnectsDrained b)

def Setup.Reaches [DecidableEq κ] (s : Setup κ ν η) (D : Prop) (s₀ : κ → Option ν)
    (save savesec : UInt32) (log : Binlog)
    (x : Site κ ν) : Prop :=
  ∃ as, exec (siteStep s.tableFunc s.cmds (s.serve log) s.slaveNum)
      (Site.init s₀ save savesec (placeText log.first 4)) as = some x ∧
    Along (siteStep s.tableFunc s.cmds (s.serve log) s.slaveNum) (Site.Allowed D)
      (Site.init s₀ save savesec (placeText log.first 4)) as

/-- The receiving thread and the chunks of its messages, on a connection or between two. -/
structure Settings.Kept (s : Settings) (slave : ChunkedIo) : Prop where
  io : slave.io.Inv
  size : slave.io.recvBuf.size = s.recvSize.toNat
  chunks : ∃ q, slave.Inv s.slaveUse.live s.slaveUse.pool q
  slots : slave.msgs.ring.slots.length = s.slaveNum

/-- Whatever the files grow to, the slave's threads are where they may be with a master that serves
all of that. -/
structure Deployment.Inv [DecidableEq κ] (s : Setup κ ν η) (D : Prop) (s₀ : κ → Option ν) (save savesec : UInt32)
    (t : Deployment κ ν) : Prop where
  small : t.conn.stream.sys.disk.Small
  sorted : t.conn.stream.sys.disk.Sorted
  slave : s.Kept t.conn.relay.slave
  online : t.conn.relay.slave.io.phase ≠ .offline → ∃ held, t.conn.Inv s.toSettings held
  view : ∀ log, t.conn.stream.sys.disk.log.Grows log → s.Deliverable log →
    s.Reaches D s₀ save savesec log (t.view (s.serve log))

section inv
variable [DecidableEq κ] {D : Prop} {s₀ : κ → Option ν} {save savesec : UInt32}

theorem Setup.Reaches.step {a : SiteAct} (h : s.Reaches D s₀ save savesec log x) (hok : x.Allowed D a)
    (hs : siteStep s.tableFunc s.cmds (s.serve log) s.slaveNum x a = some y) : s.Reaches D s₀ save savesec log y := by
  obtain ⟨as, hrun, halong⟩ := h
  refine ⟨as ++ [a], exec_append_eq_some.mpr ⟨x, hrun, by rw [exec_cons, hs]; rfl⟩,
      along_append.mpr ⟨halong, fun z hz => ?_⟩⟩
  obtain rfl := Option.some.inj (hrun.symm.trans hz)
  exact ⟨hok, fun _ _ => trivial⟩

/-- A step of the connection that leaves the receiving thread alone. -/
theorem Deployment.Inv.beside {a : ConnectionAct} (h : t.Inv s D s₀ save savesec)
    (hlast : t.conn.stream.sys.disk.StopLast s.serverId) (hsees : t.conn.SeesAll a)
    (hs : connectionStep t.conn a = some c) (hslave : c.relay.slave = t.conn.relay.slave) :
    Deployment.Inv s D s₀ save savesec { t with conn := c } := by
  have hfiles := connectionStep_files hs
  obtain ⟨hfile, hpos, -⟩ := connectionStep_stream hs
  refine ⟨hfiles.small h.small, hfiles.sorted h.sorted, hslave ▸ h.slave, fun hp => ?_, fun log hg hlog => ?_⟩
  · obtain ⟨held, hinv⟩ := h.online (hslave ▸ hp)
    exact ⟨held, hinv.step hlast hsees hs⟩
  · have hview := h.view log (hfiles.grows.trans hg) hlog
    rw [Deployment.view, Deployment.seen, Connection.rest] at hview ⊢
    rw [hslave, hfile, hpos]
    exact hview

/-- What the slave stores takes the next message from the connection, as it is seen from above. -/
theorem Setup.Reaches.stores {m : List UInt8} (h : s.Reaches D s₀ save savesec log (t.view (s.serve log)))
    (hpre : t.conn.relay.slave.io.stored ++ [m] <+: s.serve log (placeText t.conn.file t.conn.pos))
    (hoff : t.conn.relay.slave.io.phase ≠ .offline) (hroom : t.conn.relay.slave.msgs.unread.length < s.slaveNum)
    (hasked : c.file = t.conn.file ∧ c.pos = t.conn.pos)
    (hstored : c.relay.slave.io.stored = t.conn.relay.slave.io.stored ++ [m])
        (hready : c.relay.slave.io.phase = .ready)
    (hunread : c.relay.slave.msgs.unread = t.conn.relay.slave.msgs.unread ++ [m]) :
    s.Reaches D s₀ save savesec log (({ t with conn := c } : Deployment κ ν).view (s.serve log)) := by
  obtain ⟨ms, hms⟩ := hpre
  have hrest : t.conn.rest (s.serve log) = some (m :: ms) := by
    rw [Connection.rest, if_neg hoff, ← hms, List.append_assoc, List.drop_left]
    rfl
  have hnext : c.rest (s.serve log) = some ms := by
    rw [Connection.rest, if_neg (by simp [hready]), hstored, hasked.1, hasked.2, ← hms, List.drop_left]
  have hnew : ({ t with conn := c } : Deployment κ ν).view (s.serve log) = { t.view (s.serve log) with
      replica := { t.site.replica with ring := t.conn.relay.slave.msgs.unread ++ [m], conn := some ms } } := by
    rw [Deployment.view, hnext, Deployment.seen, hunread]
    rfl
  rw [hnew]
  exact h.step (a := .run .receive) ⟨trivial, fun _ b hb => by cases hb; trivial⟩
    (siteStep_receive (x := t.view (s.serve log)) hrest hroom)

theorem Deployment.Inv.receives {a : ChunkedRelayAct} {b : RelayAct} {i : IoAct} {l : List (List UInt8)}
    (h : t.Inv s D s₀ save savesec) (hlist : SentList s.list) (hlog : s.Deliverable t.conn.stream.sys.disk.log)
    (hlast : t.conn.stream.sys.disk.StopLast s.serverId) (hs : connectionStep t.conn (.relay a) = some c)
    (hoff : t.conn.relay.slave.io.phase ≠ .offline) (hi : i ≠ .connect)
    (hempty : ∀ alloc, b = .read [] alloc → t.conn.relay.slave.io.recvBuf.bytes = [])
    (hr : t.conn.list.Receives s.slaveUse.live s.slaveUse.pool { c.relay with dump.ring := l } b i) :
    Deployment.Inv s D s₀ save savesec { t with conn := c } := by
  obtain ⟨held, hconn⟩ := h.online hoff
  have hconn' := hconn.step hlast (a := .relay a) trivial hs
  obtain ⟨hfile, hpos, hstream⟩ := connectionStep_asked (a := .relay a) nofun hs
  have hrelay := (hconn.carried hlist hlog).relay.relay
  have hrelay' := (hconn'.carried hlist (hstream ▸ hlog)).relay.relay
  obtain ⟨q, hq⟩ := h.slave.chunks
  obtain ⟨new, hstored, -, hinv⟩ := hr.since q hq
  have hunread : c.relay.slave.msgs.unread = t.conn.relay.slave.msgs.unread ++ new := by
    rw [hq.stores.unread_eq]
    exact hinv.stores.unread_eq
  replace hstored : c.relay.slave.io.stored = t.conn.relay.slave.io.stored ++ new := hstored
  refine ⟨hstream ▸ h.small, hstream ▸ h.sorted, ⟨?_, hrelay'.size, ⟨q ++ new, hinv⟩, hr.slots.trans h.slave.slots⟩,
    fun _ => ⟨held, hconn'⟩, fun log hg hlog => ?_⟩
  · exact hrelay.io_inv h.slave.io hempty hr.list
  · dsimp only at hg
    rw [hstream] at hg
    have hview := h.view log hg hlog
    rcases ioStep_stores hi hr.io with hsame | ⟨m, hm, hready⟩
    · obtain rfl : new = [] := List.append_cancel_left (hstored.symm.trans (hsame.trans (List.append_nil _).symm))
      rw [List.append_nil] at hunread hstored
      by_cases hlost : c.relay.slave.io.phase = .offline
      · have hlose := hview.step (a := .run .lose) ⟨trivial, fun _ b hb => by cases hb; trivial⟩
          (siteStep_lose (by
            change t.conn.rest _ ≠ none
            rw [Connection.rest, if_neg hoff]
            simp))
        rw [Deployment.view, Deployment.seen, Connection.rest, if_pos hlost, hunread]
        exact hlose
      · rw [Deployment.view, Deployment.seen, Connection.rest, if_neg hoff] at hview
        rw [Deployment.view, Deployment.seen, Connection.rest, if_neg hlost, hunread, hfile, hpos, hstored]
        exact hview
    · obtain rfl : new = [m] := List.append_cancel_left (hstored.symm.trans hm)
      have hpre := hconn'.stored hlist (hstream ▸ hg) hlog
      have hroom : t.conn.relay.slave.msgs.unread.length < s.slaveNum := by
        have hused : t.conn.relay.slave.msgs.Room := hr.room
        rw [StoredMessages.Room, hq.stores.used, h.slave.slots] at hused
        rwa [hq.stores.unread_eq]
      rw [hstored, hfile, hpos] at hpre
      exact hview.stores hpre hoff hroom ⟨hfile, hpos⟩ hstored hready hunread

theorem Deployment.Inv.relay {a : ChunkedRelayAct} (h : t.Inv s D s₀ save savesec) (hlist : SentList s.list)
    (hlog : s.Deliverable t.conn.stream.sys.disk.log) (hlast : t.conn.stream.sys.disk.StopLast s.serverId)
    (ha : a ≠ .consume) (hempty : ∀ answer, a = .read [] answer → t.conn.relay.slave.io.recvBuf.bytes = [])
    (hs : connectionStep t.conn (.relay a) = some c) : Deployment.Inv s D s₀ save savesec { t with conn := c } := by
  have hrelay := connectionStep_relay hs
  have hcarries (hoff : t.conn.relay.slave.io.phase ≠ .offline) : ∃ held rest, t.conn.Carries s.toSettings held ∧
      chunkedRelayStep t.conn.list a = some { c.relay with dump.ring := rest } := by
    obtain ⟨held, hconn⟩ := h.online hoff
    have hcarries := hconn.carried hlist hlog
    obtain ⟨-, rest, hstep⟩ := hcarries.relayStep hs
    exact ⟨held, rest, hcarries, hstep⟩
  cases a with
  | dump b =>
    obtain ⟨r, -, hr⟩ := Option.map_eq_some_iff.mp hrelay
    exact h.beside hlast (a := .relay (.dump b)) trivial hs (by rw [← hr])
  | slot answer =>
    obtain ⟨-, hslot⟩ := Option.ite_none_right_eq_some.mp hrelay
    obtain ⟨v, hv, -⟩ := Option.map_eq_some_iff.mp hslot
    have hready : t.conn.relay.slave.io.phase = .ready := (Option.ite_none_right_eq_some.mp hv).1
    have hoff : t.conn.relay.slave.io.phase ≠ .offline := by simp [hready]
    obtain ⟨held, rest, hcarries, hstep⟩ := hcarries hoff
    obtain ⟨-, alloc, hr⟩ := hcarries.relay.slot_receives hstep
    exact h.receives (b := .slot alloc) (i := .slot alloc) (l := rest) hlist hlog hlast hs hoff nofun nofun hr
  | read chunk answer =>
    have hwait : t.conn.relay.slave.io.Waiting := (Option.ite_none_right_eq_some.mp hrelay).1.2.1
    obtain ⟨held, rest, hcarries, hstep⟩ := hcarries hwait.ne_offline
    obtain ⟨-, alloc, hr⟩ := hcarries.relay.read_receives hstep
    refine h.receives (b := .read chunk alloc) (i := .read chunk alloc)
        (l := rest) hlist hlog hlast hs hwait.ne_offline nofun
      (fun alloc hb => ?_) hr
    obtain ⟨rfl, -⟩ := RelayAct.read.inj hb
    exact hempty answer rfl
  | consume => exact absurd rfl ha

/-- The session that the master starts is one that may be started, and the slave goes on with its ring. -/
theorem Deployment.Inv.accept (h : t.Inv s D s₀ save savesec) (hlist : SentList s.list)
    (hlog : s.Deliverable t.conn.stream.sys.disk.log) (hnot : ¬ t.conn.relay.slave.msgs.ring.Stale)
    (hc : s.accept t mem = some c) :
    ∃ k file pos p q msgs, t.conn.stream.sys.disk.log.Startable (filterOf s.list) s.serverId k ∧
      t.conn.stream.sys.disk.log.placeAt k = (file, UInt32.toNat pos) ∧
      t.site.replica.redis.dumpInfo = placeText file pos ∧ t.conn.relay.slave.io.phase = .offline ∧
      msgs.Ready s.slaveUse.live q ∧ s.slaveUse.pool.SameTable msgs.ring.use.pool ∧
      msgs.unread = t.conn.relay.slave.msgs.unread ∧ msgs.ring.slots.length = s.slaveNum ∧
      c = .init s.toSettings t.conn.stream.sys.disk mem p msgs file pos := by
  obtain ⟨as, hrun, halong⟩ := h.view _ (.refl _) hlog
  have hserved := rowDelivery_served hlog.toServable hlist hlog.closed s.rbEsusec
  obtain ⟨-, -, j, k, file, pos, hk, hplace, hinfo, -⟩ := Site.covered_of_run hserved s₀ save savesec
    (halong.imp fun _ _ h => h.1) hrun
  replace hinfo : t.site.replica.redis.dumpInfo = placeText file pos := hinfo
  obtain ⟨bytes, cmd, hbytes, hcmd, hfile, hnum, rfl, htables⟩ :=
    command_place s.rbEsusec hlog.toServable hlist hplace
  rw [Setup.accept, hinfo] at hc
  obtain ⟨slave, hslave, hc⟩ := Option.bind_eq_some_iff.mp hc
  simp only [hbytes, hcmd, hfile, hnum, htables, Option.bind_eq_bind, Option.bind_some] at hc
  obtain rfl := Option.some.inj hc
  obtain ⟨q, hq⟩ := h.slave.chunks
  obtain ⟨hinv, hio, -⟩ := hq.connect hnot hslave
  obtain ⟨hoff, hio⟩ := Option.ite_none_right_eq_some.mp hio
  have hsplit := h.slave.io.split
  unfold IoThread.Split at hsplit
  rw [hoff] at hsplit
  have hready : slave.io = (Relay.init s.sendSize s.recvSize t.conn.relay.slave.io.recvBuf.pos).io := by
    rw [← Option.some.inj hio, Relay.init, ← h.slave.size, ← hsplit.1]
  have hphase : slave.msgs.ring.phase = .ready := by
    rw [hinv.phase, hready]
    rfl
  refine ⟨k, file, cmd.dumpPos, t.conn.relay.slave.io.recvBuf.pos, q, slave.msgs, hk, hplace, hinfo, hoff,
    ⟨hinv.ring_online (by rw [hready]; nofun), hphase, hinv.stores⟩, hinv.table, ?_, ?_, ?_⟩
  · rw [hinv.stores.unread_eq, hq.stores.unread_eq]
  · exact (chunkedStep_length hslave).trans h.slave.slots
  · obtain ⟨io, msgs⟩ := slave
    obtain rfl := hready
    rfl

theorem Deployment.Inv.connect (h : t.Inv s D s₀ save savesec) (hlist : SentList s.list)
    (hlog : s.Deliverable t.conn.stream.sys.disk.log) (hok : t.Orderly (.connect mem))
    (hdrained : D → t.seen.replica.unread = []) (hs : deploymentStep s t (.connect mem) = some u) :
    u.Inv s D s₀ save savesec := by
  obtain ⟨c, hc, rfl⟩ := Option.map_eq_some_iff.mp hs
  obtain ⟨k, file, pos, p, q, msgs, hk, hplace, hinfo, hoff, hready, htable, hunread, hslots, rfl⟩ :=
    h.accept hlist hlog hok hc
  have hrelay := ChunkedRelay.init_inv s.sendSize s.recvSize p hready htable
  obtain ⟨q', hq', -⟩ := hrelay.slave
  refine ⟨h.small, h.sorted, ⟨?_, rfl, ⟨q', hq'⟩, hslots⟩,
    fun _ => ⟨_, Connection.init_inv h.small h.sorted hk hplace hready htable⟩, fun log hg hlog => ?_⟩
  · exact (Relay.init_inv s.sendSize s.recvSize p).live (by simp [Relay.init])
  · have hview := h.view log hg hlog
    have hnone : (t.view (s.serve log)).replica.conn = none := if_pos hoff
    have hconnect := hview.step (a := .run .connect) ⟨trivial, fun hD b hb => by cases hb; exact hdrained hD⟩
      (siteStep_connect hnone)
    have hinfo' : (t.view (s.serve log)).replica.redis.dumpInfo = placeText file pos := hinfo
    rw [hinfo'] at hconnect
    rw [Deployment.view, Deployment.seen]
    simp only [Connection.init, ChunkedRelay.init]
    rw [hunread]
    exact hconnect

theorem Settings.kept_init (s : Settings) (mem : Memory UInt8) :
    s.Kept ⟨IoThread.init s.recvSize, .init s.slaveUse mem s.slaveNum⟩ := by
  refine ⟨IoThread.init_inv s.recvSize, rfl, ⟨[], ?_⟩, List.length_replicate⟩
  refine ⟨fun _ => MessageSlots.init_inv s.slave_inv s.slaveNum, .refl _, rfl, ?_, fun hwait => hwait.elim, nofun⟩
  exact ⟨(Nat.zero_mod _).symm, by simp [StoredMessages.init, MessageSlots.init], rfl, ⟨le_rfl, Nat.zero_le _⟩, nofun⟩

/-- The other thread of the slave reads the message in front and goes on. -/
theorem Settings.Kept.consume {s : Settings} (h : s.Kept c.relay.slave)
    (hs : connectionStep c (.relay .consume) = some e) :
    s.Kept e.relay.slave ∧ e.relay.slave.io = c.relay.slave.io ∧
      e.relay.slave.msgs.unread = c.relay.slave.msgs.unread.tail := by
  obtain ⟨q, hq⟩ := h.chunks
  obtain ⟨-, hrelay⟩ := Option.ite_none_right_eq_some.mp (connectionStep_relay hs)
  obtain ⟨v, hv, hrelay⟩ := Option.map_eq_some_iff.mp hrelay
  have hstep : chunkedStep c.relay.slave .consume = some e.relay.slave := by rw [← hrelay]; exact hv
  obtain ⟨hio, m, r, rfl, -, hinv⟩ := hq.consume hstep
  refine ⟨⟨hio ▸ h.io, hio ▸ h.size, ⟨r, hinv⟩, (chunkedStep_length hstep).trans h.slots⟩, hio, ?_⟩
  rw [hinv.stores.unread_eq, hq.stores.unread_eq]
  rfl

theorem Connection.behind_stream {s : Settings} {a : SiteAct} (hc : c.behind s a = some e) : e.stream = c.stream := by
  unfold Connection.behind at hc
  split at hc
  · exact (connectionStep_asked (a := .relay .consume) nofun hc).2.2
  · obtain rfl := Option.some.inj hc
    rfl
  · obtain rfl := Option.some.inj hc
    rfl

structure Connection.Behind (s : Settings) (a : SiteAct) (c e : Connection) : Prop where
  kept : s.Kept e.relay.slave
  online : e.relay.slave.io.phase ≠ .offline → c.relay.slave.io.phase ≠ .offline ∧ ∀ held, c.Inv s held → e.Inv s held
  unread : e.relay.slave.msgs.unread = ringBehind c.relay.slave.msgs.unread a
  rest : ∀ resume, e.rest resume = connBehind (c.rest resume) a

theorem Settings.Kept.behind {s : Settings} {a : SiteAct} (h : s.Kept c.relay.slave)
    (hlast : c.stream.sys.disk.StopLast s.serverId) (hc : c.behind s a = some e) : c.Behind s a e := by
  have hsame (hring : ∀ l, ringBehind l a = l) (hrest : ∀ l, connBehind l a = l) (he : c = e) : c.Behind s a e := by
    subst he
    exact ⟨h, fun hp => ⟨hp, fun _ => id⟩, (hring _).symm, fun _ => (hrest _).symm⟩
  cases a with
  | restart save savesec =>
    obtain rfl := Option.some.inj hc
    exact ⟨s.kept_init _, fun hp => absurd rfl hp, rfl, fun _ => rfl⟩
  | command ok => exact hsame (fun _ => rfl) (fun _ => rfl) (Option.some.inj hc)
  | late i => exact hsame (fun _ => rfl) (fun _ => rfl) (Option.some.inj hc)
  | run b =>
    cases b with
    | redis b =>
      cases b with
      | advance =>
        replace hc : connectionStep c (.relay .consume) = some e := hc
        obtain ⟨hkept, hio, hunread⟩ := h.consume hc
        obtain ⟨hfile, hpos, -⟩ := connectionStep_asked (a := .relay .consume) nofun hc
        refine ⟨hkept, fun hp => ⟨hio ▸ hp, fun _ hinv => hinv.step hlast (a := .relay .consume) trivial hc⟩,
          hunread, fun resume => ?_⟩
        rw [Connection.rest, hio, hfile, hpos]
        rfl
      | _ => exact hsame (fun _ => rfl) (fun _ => rfl) (Option.some.inj hc)
    | _ => exact hsame (fun _ => rfl) (fun _ => rfl) (Option.some.inj hc)

theorem Deployment.Inv.slaveStep {a : SiteAct} (h : t.Inv s D s₀ save savesec)
    (hlast : t.conn.stream.sys.disk.StopLast s.serverId) (hok : t.Orderly (.slave a))
    (hs : deploymentStep s t (.slave a) = some u) : u.Inv s D s₀ save savesec := by
  obtain ⟨ha, hs⟩ := Option.ite_none_left_eq_some.mp hs
  obtain ⟨x, hx, hs⟩ := Option.bind_eq_some_iff.mp hs
  obtain ⟨c, hc, rfl⟩ := Option.map_eq_some_iff.mp hs
  have hbehind := h.slave.behind hlast hc
  have hstream := Connection.behind_stream hc
  refine ⟨hstream ▸ h.small, hstream ▸ h.sorted, hbehind.kept, fun hp => ?_, fun log hg hlog => ?_⟩
  · obtain ⟨hp, hinv⟩ := hbehind.online hp
    obtain ⟨held, hconn⟩ := h.online hp
    exact ⟨held, hinv held hconn⟩
  · dsimp only at hg
    rw [hstream] at hg
    have hallowed : (t.view (s.serve log)).Allowed D a :=
      ⟨withConn_orderly.mpr hok, fun _ b hb => by
        subst hb
        cases b with
        | connect => exact absurd trivial ha
        | _ => trivial⟩
    have hview := (h.view log hg hlog).step hallowed (siteStep_withConn ha hx)
    have hseen : ({ conn := c, site := x } : Deployment κ ν).seen = x := by
      rw [Deployment.seen, hbehind.unread]
      have hring : x.replica.ring = ringBehind t.conn.relay.slave.msgs.unread a := siteStep_ring ha hx
      rw [← hring]
    rw [Deployment.view, hseen, hbehind.rest]
    exact hview

theorem Setup.init_inv (s : Setup κ ν η) (D : Prop) (s₀ : κ → Option ν) (save savesec : UInt32) (hd : d.Small)
    (hsorted : d.Sorted) : (s.init d s₀ save savesec).Inv s D s₀ save savesec := by
  refine ⟨hd, hsorted, s.kept_init _, fun hp => absurd rfl hp, fun log hg _ => ?_⟩
  obtain ⟨new, rfl⟩ := hg
  exact ⟨[], rfl, trivial⟩

theorem Deployment.Inv.step {a : DeploymentAct} (h : t.Inv s D s₀ save savesec) (hlist : SentList s.list)
    (hok : t.Orderly a ∧ (D → t.ConnectsDrained a))
    (hfit : s.Deliverable t.conn.stream.sys.disk.log ∧ t.conn.stream.sys.disk.StopLast s.serverId)
    (hs : deploymentStep s t a = some u) : u.Inv s D s₀ save savesec := by
  cases a with
  | connect mem => exact h.connect hlist hfit.1 hok.1 hok.2 hs
  | slave a => exact h.slaveStep hfit.2 hok.1 hs
  | conn a =>
    obtain ⟨ha, hs⟩ := Option.ite_none_left_eq_some.mp hs
    obtain ⟨c, hc, rfl⟩ := Option.map_eq_some_iff.mp hs
    cases a with
    | master b =>
      obtain ⟨-, hmaster⟩ := Option.ite_none_left_eq_some.mp hc
      obtain ⟨stream, -, hmaster⟩ := Option.map_eq_some_iff.mp hmaster
      exact h.beside hfit.2 (a := .master b) hok.1 hc (by rw [← hmaster, Connection.create_slave])
    | ring b =>
      obtain ⟨-, hring⟩ := Option.ite_none_right_eq_some.mp hc
      obtain ⟨ring, -, hring⟩ := Option.map_eq_some_iff.mp hring
      exact h.beside hfit.2 (a := .ring b) trivial hc (by rw [← hring])
    | relay b =>
      refine h.relay hlist hfit.1 hfit.2 (fun hb => ha (by rw [hb]; trivial)) (fun answer hb => ?_) hc
      subst hb
      exact hok.1 rfl

end inv

def positionText : List UInt8 := placeText numberedFile 134 ++ [10, 0]

end MySQLSyncer.Slave
