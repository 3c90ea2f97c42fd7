import MySQLSyncer.Core.ConfUse

/-! # What the teardown of a configuration gives back

`rs_destroy_conf` gives back the entries and the nodes of the table, and the table. For a string it
passes the address of the owner's variable, so nothing that was got for a string is given back.
-/
namespace MySQLSyncer.Core
open Lib

def keptChunks (h : RsShash ConfNode) (c : Handle) : List Handle :=
  h.values.map (fun n => n.val.chunk) ++ (h.values.map ConfNode.chunk ++ [c])

/-- Of what the configuration got, the table accounts for a part; an entry with a string is there
only if it is not all. -/
structure ConfAccounts (h : RsShash ConfNode) (c : Handle) (own : List Handle) : Prop where
  num_pos : 0 < h.num.toNat
  kept : (keptChunks h c).Subperm own
  found : ∀ n ∈ h.values, n.val.type = .str → n.val.found = true →
    n.val.dataId.isSome ∧ (keptChunks h c).length < own.length

def ConfUse.Accounts (s : ConfUse) : Prop := ConfAccounts s.table s.chunk s.own

def ConfUse.lost (s : ConfUse) : ℕ := s.own.length - (keptChunks s.table s.chunk).length

variable {h : RsShash ConfNode} {c x : Handle} {own own' : List Handle} {key : ShashKey} {d : ConfData}
  {f : ConfData → ConfData} {s t : ConfUse} {libc : Libc}

theorem keptChunks_add (hnum : 0 < h.num.toNat) (hkey : h.hasKey key = false) (x : Handle) (d : ConfData) :
    (keptChunks (rsShashAdd h key ⟨x, d⟩ true).2 c).Perm (x :: d.chunk :: keptChunks h c) := by
  have hperm := values_add hnum hkey ⟨x, d⟩
  have hentries := hperm.map fun n : ConfNode => n.val.chunk
  have hnodes := (hperm.map ConfNode.chunk).append_right [c]
  exact (hentries.append hnodes).trans List.perm_middle

theorem keptChunks_change (key : ShashKey) (hnum : 0 < h.num.toNat) (hchunk : ∀ d, (f d).chunk = d.chunk) :
    (keptChunks (h.change key fun n => { n with val := f n.val }) c).Perm (keptChunks h c) := by
  have hentries := values_change_map key (fun n => { n with val := f n.val }) (fun n => n.val.chunk) hnum
    fun n => hchunk n.val
  have hnodes := values_change_map key (fun n => { n with val := f n.val }) ConfNode.chunk hnum fun _ => rfl
  exact hentries.append (hnodes.append_right [c])

namespace ConfAccounts

theorem length_le (ha : ConfAccounts h c own) : (keptChunks h c).length ≤ own.length := ha.kept.length_le

theorem lose (ha : ConfAccounts h c own) (x : Handle) : ConfAccounts h c (x :: own) := by
  refine ⟨ha.num_pos, ha.kept.cons_right x, fun n hn htype hfound => ?_⟩
  obtain ⟨hid, hlt⟩ := ha.found n hn htype hfound
  exact ⟨hid, hlt.trans (Nat.lt_succ_self _)⟩

theorem add (ha : ConfAccounts h c own) (hkey : h.hasKey key = false) (hd : d.found = false) (x : Handle) :
    ConfAccounts (rsShashAdd h key ⟨x, d⟩ true).2 c (x :: d.chunk :: own) := by
  have hperm := keptChunks_add (c := c) ha.num_pos hkey x d
  refine ⟨?_, ?_, fun n hn htype hfound => ?_⟩
  · rw [rsShashAdd_num]
    exact ha.num_pos
  · refine hperm.subperm.trans ?_
    rw [List.subperm_cons, List.subperm_cons]
    exact ha.kept
  · rcases List.mem_cons.mp ((values_add ha.num_pos hkey ⟨x, d⟩).mem_iff.mp hn) with rfl | hn
    · rw [hd] at hfound
      exact absurd hfound (by decide)
    · obtain ⟨hid, hlt⟩ := ha.found n hn htype hfound
      have hlen := hperm.length_eq
      simp only [List.length_cons] at hlen ⊢
      exact ⟨hid, by omega⟩

theorem change (ha : ConfAccounts h c own) (key : ShashKey) (f : ConfData → ConfData)
    (hown : own.Subperm own') (hchunk : ∀ d, (f d).chunk = d.chunk)
    (hfound : ∀ m, (rsShashGet h key).2 = some m → (f m.val).type = .str → (f m.val).found = true →
      (f m.val).dataId.isSome ∧ (keptChunks h c).length < own'.length) :
    ConfAccounts (h.change key fun n => { n with val := f n.val }) c own' := by
  have hperm := keptChunks_change (c := c) key ha.num_pos hchunk
  refine ⟨ha.num_pos, hperm.subperm.trans (ha.kept.trans hown), fun n hn htype hset => ?_⟩
  rw [hperm.length_eq]
  rcases mem_values_change ha.num_pos hn with hn | ⟨m, hm, rfl⟩
  · obtain ⟨hid, hlt⟩ := ha.found n hn htype hset
    exact ⟨hid, hlt.trans_le hown.length_le⟩
  · exact hfound m hm htype hset

end ConfAccounts

theorem hasRoom_iff {p q : RsPool} {size : ℕ} {id : ℤ} {r : Option ℕ} (h : pallocSize libc p size = some (id, r, q)) :
    HasRoom libc p size ↔ r.isSome := by
  simp [HasRoom, h]

/-- The account of a step: what is lost stays lost, and no more is lost if and only if the step keeps. -/
structure ConfUse.StepAccount (s t : ConfUse) (a : ConfOp) : Prop where
  accounts : t.Accounts
  lost_le : s.lost ≤ t.lost
  lost_eq_iff : t.lost = s.lost ↔ s.Keeps a

variable {a : ConfOp}

/-- What the step adds to the chunks of the configuration, it adds to those of the table. -/
theorem ConfUse.Accounts.keep (hs : s.Accounts) (ht : t.Accounts) (hlen : t.own.length +
      (keptChunks s.table s.chunk).length = s.own.length + (keptChunks t.table t.chunk).length)
    (hkeeps : s.Keeps a) : s.StepAccount t a := by
  have hle := hs.length_le
  have hlost : t.lost = s.lost := by
    simp only [lost]
    omega
  exact ⟨ht, hlost.ge, iff_of_true hlost hkeeps⟩

/-- The step adds a chunk that the table does not account for. -/
theorem ConfUse.Accounts.lose (hs : s.Accounts) (ht : t.Accounts) (hown : t.own.length = s.own.length + 1)
    (hkept : (keptChunks t.table t.chunk).length = (keptChunks s.table s.chunk).length)
    (hkeeps : ¬ s.Keeps a) : s.StepAccount t a := by
  have hle := hs.length_le
  have hlost : t.lost = s.lost + 1 := by
    simp only [lost]
    omega
  exact ⟨ht, by omega, iff_of_false (by omega) hkeeps⟩

theorem ConfUse.Accounts.register {data : ℕ} {type : ConfType} {entry node : Libc} (hs : s.Accounts)
    (ht : confStep s (.register key data type entry node) = some t) :
    s.StepAccount t (.register key data type entry node) := by
  obtain ⟨⟨code, t⟩, hrun, rfl⟩ := Option.map_eq_some_iff.mp ht
  cases rsConfRegister_spec hrun with
  | noEntry hentry => exact hs.keep hs rfl (by simp [Keeps, hentry])
  | @keyFound id d p hentry hkey =>
    -- the entry stays behind with no node
    exact hs.lose (ConfAccounts.lose hs (id, d)) rfl rfl (by simp [Keeps, hentry, hkey])
  | @noNode id d p i q hentry hkey hnode =>
    exact hs.lose (ConfAccounts.lose hs (id, d)) rfl rfl (by simp [Keeps, hentry, hasRoom_iff hnode])
  | @added id d p i n q hentry hkey hnode =>
    have hlen := (keptChunks_add (c := s.chunk) hs.num_pos hkey (i, n)
      ⟨(id, d), data, none, type, false⟩).length_eq
    refine hs.keep (ConfAccounts.add hs hkey rfl (i, n)) ?_ (by simp [Keeps, hentry, hkey, hasRoom_iff hnode])
    simp only [hlen, List.length_cons]
    omega

theorem ConfUse.Accounts.apply {val : List UInt8} (hs : s.Accounts)
    (ht : confStep s (.apply key val libc) = some t) : s.StepAccount t (.apply key val libc) := by
  obtain ⟨⟨code, t⟩, hrun, rfl⟩ := Option.map_eq_some_iff.mp ht
  have hkept (f : ConfData → ConfData) (hchunk : ∀ d, (f d).chunk = d.chunk) :
      (keptChunks (s.changeEntry key f) s.chunk).length = (keptChunks s.table s.chunk).length :=
    (keptChunks_change key hs.num_pos hchunk).length_eq
  cases rsConfApplyIn_spec hrun with
  | refused hget =>
    refine hs.keep hs rfl fun n hn hstr => ?_
    rw [hget n hn] at hstr
    cases hstr
  | @number n hget hstr hnull =>
    have haccounts := ConfAccounts.change hs key (fun d => { d with found := true })
      (List.Subperm.refl _) (fun _ => rfl) fun m hm htype => by
        obtain rfl := Option.some.inj (hget.symm.trans hm)
        exact absurd htype hstr
    refine hs.keep haccounts ?_ (by simp [Keeps, hget, hstr])
    exact congrArg (s.own.length + ·) (hkept (fun d => { d with found := true }) fun _ => rfl).symm
  | @noString n id p hget hstr hpalloc =>
    have haccounts := ConfAccounts.change hs key (fun d => { d with dataId := some id })
      (List.Subperm.refl _) (fun _ => rfl) fun m hm htype hfound =>
        ⟨rfl, (hs.found m (mem_values_of_get hs.num_pos hm) htype hfound).2⟩
    refine hs.keep haccounts ?_ (by simp [Keeps, hget, hasRoom_iff hpalloc])
    exact congrArg (s.own.length + ·) (hkept (fun d => { d with dataId := some id }) fun _ => rfl).symm
  | @stored n id w p hget hstr hpalloc =>
    have haccounts := ConfAccounts.change hs key (fun d => { d with dataId := some id, found := true })
      ((List.Subperm.refl _).cons_right (id, w)) (fun _ => rfl) fun m hm htype hfound =>
        ⟨rfl, Nat.lt_succ_of_le hs.length_le⟩
    refine hs.lose haccounts rfl ?_ (by simp [Keeps, hget, hstr, hasRoom_iff hpalloc])
    exact hkept (fun d => { d with dataId := some id, found := true }) fun _ => rfl

theorem ConfUse.Accounts.step (hs : s.Accounts) (ht : confStep s a = some t) : s.StepAccount t a := by
  cases a with
  | register key data type entry node => exact hs.register ht
  | apply key val libc => exact hs.apply ht
  | palloc size id libc =>
    obtain ⟨⟨r, p⟩, -, rfl⟩ := Option.map_eq_some_iff.mp ht
    exact hs.keep hs rfl trivial
  | pfree x libc =>
    rw [confStep] at ht
    split_ifs at ht
    obtain ⟨p, -, rfl⟩ := Option.map_eq_some_iff.mp ht
    exact hs.keep hs rfl trivial

theorem rsCreateConf_accounts {p : RsPool} {num : UInt32} {others : List Handle}
    (h : rsCreateConf libc p num others = some s) : s.Accounts ∧ s.lost = 0 := by
  obtain ⟨hnum, h⟩ := Option.ite_none_left_eq_some.mp h
  obtain ⟨⟨id, r, q⟩, -, h⟩ := Option.bind_eq_some_iff.mp h
  obtain ⟨c, -, rfl⟩ := Option.map_eq_some_iff.mp h
  have hvalues : (emptyShash num : RsShash ConfNode).values = [] := by
    simp [RsShash.values, emptyShash]
  have hkept : keptChunks (emptyShash num) (id, c) = [(id, c)] := by
    rw [keptChunks, hvalues]
    rfl
  refine ⟨⟨?_, ?_, ?_⟩, ?_⟩
  · exact Nat.pos_of_ne_zero fun hzero => hnum (UInt32.toNat_inj.mp hzero)
  · rw [hkept]
  · rw [hvalues]
    simp
  · rw [ConfUse.lost, hkept]
    rfl

/-- The calls for the entries: their chunks, and the variables of the strings. -/
theorem mapM_pfrees (l : List ConfNode)
    (hid : ∀ n ∈ l, n.val.type = .str → n.val.found = true → n.val.dataId.isSome) :
    ∃ calls strays, l.mapM (fun n : ConfNode => n.val.pfrees) = some calls ∧
      calls.flatten.Perm (strays ++ l.map fun n => n.val.chunk) ∧
      ∀ x ∈ strays, ∃ n ∈ l, n.val.type = .str ∧ n.val.found = true ∧ x.2 = n.val.data := by
  induction l with
  | nil => exact ⟨[], [], rfl, List.Perm.refl _, by simp⟩
  | cons n l ih =>
    obtain ⟨calls, strays, hcalls, hperm, hstrays⟩ := ih fun m hm => hid m (List.mem_cons_of_mem n hm)
    have hlater (x : Handle) (hx : x ∈ strays) : ∃ m ∈ n :: l, m.val.type = .str ∧ m.val.found = true ∧
        x.2 = m.val.data := by
      obtain ⟨m, hm, hrest⟩ := hstrays x hx
      exact ⟨m, List.mem_cons_of_mem n hm, hrest⟩
    by_cases hset : n.val.type = .str ∧ n.val.found = true
    · obtain ⟨id, hdata⟩ := Option.isSome_iff_exists.mp (hid n List.mem_cons_self hset.1 hset.2)
      have hfree : n.val.pfrees = some [(id, n.val.data), n.val.chunk] := by
        rw [ConfData.pfrees, if_pos hset, hdata, Option.map_some]
      refine ⟨[(id, n.val.data), n.val.chunk] :: calls, (id, n.val.data) :: strays, ?_, ?_, ?_⟩
      · rw [List.mapM_cons, hfree, hcalls]
        rfl
      · refine List.Perm.cons _ ?_
        exact (hperm.cons n.val.chunk).trans List.perm_middle.symm
      · intro x hx
        rcases List.mem_cons.mp hx with rfl | hx
        · exact ⟨n, List.mem_cons_self, hset.1, hset.2, rfl⟩
        · exact hlater x hx
    · have hfree : n.val.pfrees = some [n.val.chunk] := if_neg hset
      refine ⟨[n.val.chunk] :: calls, strays, ?_, ?_, hlater⟩
      · rw [List.mapM_cons, hfree, hcalls]
        rfl
      · exact (hperm.cons n.val.chunk).trans List.perm_middle.symm

/-- What the teardown gives back: what the table accounts for, and variables. -/
theorem ConfUse.Accounts.destroy (hs : s.Accounts) :
    ∃ calls strays, rsDestroyConf s = some calls ∧ calls.Perm (strays ++ keptChunks s.table s.chunk) ∧
      (∀ x ∈ strays, ∃ n ∈ s.nodes, x.2 = n.val.data) ∧ (s.lost = 0 → strays = []) := by
  obtain ⟨calls, strays, hcalls, hperm, hstrays⟩ := mapM_pfrees s.nodes fun n hn htype hfound =>
    (hs.found n hn htype hfound).1
  refine ⟨calls.flatten ++ rsDestroyShash s, strays, ?_, ?_, fun x hx => ?_, fun hlost => ?_⟩
  · rw [rsDestroyConf, hcalls, Option.map_some]
  · have hall := hperm.append_right (rsDestroyShash s)
    rw [List.append_assoc] at hall
    exact hall
  · obtain ⟨n, hn, -, -, hdata⟩ := hstrays x hx
    exact ⟨n, hn, hdata⟩
  · rw [List.eq_nil_iff_forall_not_mem]
    intro x hx
    obtain ⟨n, hn, htype, hfound, -⟩ := hstrays x hx
    have hlt := (hs.found n hn htype hfound).2
    rw [lost] at hlost
    omega

/-- With nothing lost the teardown gives back what the configuration got. -/
theorem ConfUse.Accounts.destroy_perm (hs : s.Accounts) (hlost : s.lost = 0) :
    ∃ calls, rsDestroyConf s = some calls ∧ calls.Perm s.own := by
  obtain ⟨calls, strays, hcalls, hperm, -, hnone⟩ := hs.destroy
  rw [hnone hlost, List.nil_append] at hperm
  exact ⟨calls, hcalls, hperm.trans (hs.kept.perm_of_length_le (Nat.le_of_sub_eq_zero hlost))⟩

/-- The teardown is exact if and only if the table accounts for everything. -/
theorem ConfUse.Accounts.freesOwn_iff (hs : s.Accounts) (hsep : s.Separate) : s.FreesOwn ↔ s.lost = 0 := by
  have hle := hs.length_le
  obtain ⟨calls, strays, hcalls, hperm, hstrays, hnone⟩ := hs.destroy
  have hexact : FreesExactly (s.own ++ s.others) s.own calls ↔
      s.own.length = (keptChunks s.table s.chunk).length := by
    refine freesExactly_iff hs.kept (List.sublist_append_left _ _).subperm hperm ?_ ?_
    · intro x hx hown
      obtain ⟨n, hn, hdata⟩ := hstrays x hx
      exact hsep n hn x hown hdata
    · intro hlen
      apply hnone
      rw [lost]
      omega
  rw [FreesOwn, hcalls, lost]
  simp only [Option.some.injEq, exists_eq_left', hexact]
  omega

end MySQLSyncer.Core
