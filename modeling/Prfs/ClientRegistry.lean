import Prfs.Nfs4Effects

namespace Prfs

namespace NfsV4

variable {v w : NfsV4} {pos : WalkOrder} {k : UInt64} {r : ClientRec}

/-- The client table: who is registered, and under which ids. -/
structure Registry (v : NfsV4) : Prop where
  key : ∀ {k r}, v.clients.get k = some r → k ≠ 0 ∧ r.clientid = k ∧ k < v.nextClientid
  instances : v.clients.UniqueOn (fun _ => True) (fun r => (r.id, r.verifier))
  leases : v.clients.UniqueOn (fun r => r.confirmed = true) ClientRec.id

theorem registry_empty : ({} : NfsV4).Registry :=
  ⟨fun hr => absurd hr (by simp), OrdMap.uniqueOn_empty, OrdMap.uniqueOn_empty⟩

theorem Registry.zero (h : v.Registry) : v.clients.get 0 = none := by
  cases hr : v.clients.get 0 with
  | none => rfl
  | some r => exact absurd rfl (h.key hr).1

theorem Registry.congr (h : v.Registry) (hc : w.clients = v.clients) (hn : w.nextClientid = v.nextClientid) :
    w.Registry := by
  refine ⟨fun {k r} hr => ?_, ?_, ?_⟩
  · rw [hn]
    rw [hc] at hr
    exact h.key hr
  · rw [hc]
    exact h.instances
  · rw [hc]
    exact h.leases

theorem Registry.refresh {r' : ClientRec} (h : v.Registry) (hr : v.clients.get k = some r) (hrec : r.Refreshed r') :
    ({ v with clients := v.clients.put k r' } : NfsV4).Registry := by
  obtain ⟨_, _, _, _, rfl⟩ := hrec
  refine ⟨fun {j c} hc => ?_, h.instances.update hr (fun _ => trivial) rfl, h.leases.update hr id rfl⟩
  rw [OrdMap.get_put] at hc
  split_ifs at hc with hj
  · cases hc
    rw [hj]
    have hk := h.key hr
    exact hk
  · exact h.key hc

theorem Registry.mint (h : v.Registry)
    (hno : firstKey pos v.clients (fun c => c.id = r.id && c.verifier = r.verifier) = 0)
    (hid : r.clientid = v.nextClientid) (hconf : r.confirmed = false) (hne : v.nextClientid ≠ 0)
    (hnext : v.nextClientid + 1 ≠ 0) :
    ({ v with clients := v.clients.put v.nextClientid r, nextClientid := v.nextClientid + 1 } : NfsV4).Registry := by
  have hlt := lt_next hnext
  refine ⟨fun {j c} hc => ?_, h.instances.put fun _ j c hc _ hsame => ?_, h.leases.put fun ht => ?_⟩
  · rw [OrdMap.get_put] at hc
    split_ifs at hc with hj
    · cases hc
      rw [hj]
      exact ⟨hne, hid, hlt⟩
    · obtain ⟨h0, hck, hjn⟩ := h.key hc
      exact ⟨h0, hck, lt_trans hjn hlt⟩
  · have hp := firstKey_zero h.zero hno hc
    obtain ⟨hi, hv⟩ := Prod.mk.inj hsame
    simp [hi, hv] at hp
  · rw [hconf] at ht
    cases ht

/-- A confirmed record of the lease's client is the lease itself, the others having been dropped. -/
theorem confirmLease_lone {j : UInt64} {c : ClientRec} (hc : (v.confirmLease pos k r).clients.get j = some c)
    (hconf : c.confirmed = true) (hid : c.id = r.id) : j = k := by
  rw [confirmLease_clients] at hc
  split_ifs at hc with hj hstale
  · exact hj
  · exact absurd (mem_staleLeases.mpr ⟨hj, c, hc, hconf, hid⟩) hstale

theorem confirmLease_other {j : UInt64} {c : ClientRec} (hc : (v.confirmLease pos k r).clients.get j = some c)
    (hj : j ≠ k) : v.clients.get j = some c := by
  rw [confirmLease_clients, if_neg hj] at hc
  split_ifs at hc
  exact hc

theorem confirmLease_self : (v.confirmLease pos k r).clients.get k = some { r with confirmed := true } := by
  rw [confirmLease_clients, if_pos rfl]

theorem Registry.confirm (h : v.Registry) (hr : v.clients.get k = some r) : (v.confirmLease pos k r).Registry := by
  have hold : ∀ j c, (v.confirmLease pos k r).clients.get j = some c →
      ∃ c', v.clients.get j = some c' ∧ c.clientid = c'.clientid ∧ c.id = c'.id ∧ c.verifier = c'.verifier := by
    intro j c hc
    by_cases hj : j = k
    · subst hj
      rw [confirmLease_self] at hc
      cases hc
      exact ⟨r, hr, rfl, rfl, rfl⟩
    · exact ⟨c, confirmLease_other hc hj, rfl, rfl, rfl⟩
  have hnext : (v.confirmLease pos k r).nextClientid = v.nextClientid := dropLeases_counters.1
  refine ⟨fun {j c} hc => ?_, h.instances.mono fun j c hc _ => ?_, fun i j x y hx hy hxc hyc hid => ?_⟩
  · obtain ⟨c', hc', hid, -, -⟩ := hold j c hc
    rw [hnext, hid]
    exact h.key hc'
  · obtain ⟨c', hc', -, hid, hver⟩ := hold j c hc
    exact ⟨c', hc', trivial, by rw [hid, hver]⟩
  · by_cases hxr : x.id = r.id
    · rw [confirmLease_lone hx hxc hxr, confirmLease_lone hy hyc (hid.symm.trans hxr)]
    · have hne : ∀ {j c}, (v.confirmLease pos k r).clients.get j = some c → c.id ≠ r.id → j ≠ k := by
        rintro j c hc hcr rfl
        rw [confirmLease_self] at hc
        cases hc
        exact hcr rfl
      have hyr : y.id ≠ r.id := fun he => hxr (hid.trans he)
      exact h.leases i j x y (confirmLease_other hx (hne hx hxr)) (confirmLease_other hy (hne hy hyr)) hxc hyc hid

/-- One request keeps the table in order unless the counter comes round. -/
theorem Effect.registry (h : Effect pos v w) (hv : v.Registry) (hne : v.nextClientid ≠ 0) (hw : w.nextClientid ≠ 0) :
    w.Registry := by
  cases h with
  | refresh hr hrec => exact hv.refresh hr hrec
  | mint hno hid hconf => exact hv.mint hno hid hconf hne hw
  | confirm hr => exact hv.confirm hr
  | idle => exact hv
  | reopen | openNew | close | relock | lockNew | release => exact hv.congr rfl rfl

/-- An id that has been given out and is no longer registered stays unregistered. -/
def Retired (k : UInt64) (v : NfsV4) : Prop := k < v.nextClientid ∧ v.clients.get k = none

theorem Effect.retired (h : Effect pos v w) (hw : w.nextClientid ≠ 0) (hk : Retired k v) : Retired k w := by
  obtain ⟨hlt, hnone⟩ := hk
  cases h with
  | @refresh j r r' hr =>
    refine ⟨hlt, ?_⟩
    have hne : k ≠ j := by
      rintro rfl
      rw [hnone] at hr
      cases hr
    rw [OrdMap.get_put, if_neg hne]
    exact hnone
  | mint =>
    refine ⟨lt_trans hlt (lt_next hw), ?_⟩
    rw [OrdMap.get_put, if_neg (ne_of_lt hlt)]
    exact hnone
  | @confirm j r hr =>
    have hne : k ≠ j := by
      rintro rfl
      rw [hnone] at hr
      cases hr
    have hcounter : (v.confirmLease pos j r).nextClientid = v.nextClientid := dropLeases_counters.1
    refine ⟨by rwa [hcounter], ?_⟩
    rw [confirmLease_clients, if_neg hne]
    split_ifs
    · rfl
    · exact hnone
  | idle | reopen | openNew | close | relock | lockNew | release => exact ⟨hlt, hnone⟩

/-- A registered instance keeps its id string and its verifiers for as long as it is registered. -/
def Instance (k : UInt64) (id : Bytes) (verifier confirm : UInt64) (v : NfsV4) : Prop :=
  k < v.nextClientid ∧ ∀ r, v.clients.get k = some r → r.id = id ∧ r.verifier = verifier ∧ r.confirmVerf = confirm

theorem Effect.kept {id : Bytes} {verifier confirm : UInt64} (h : Effect pos v w) (hw : w.nextClientid ≠ 0)
    (hk : Instance k id verifier confirm v) : Instance k id verifier confirm w := by
  obtain ⟨hlt, hrec⟩ := hk
  cases h with
  | @refresh j r r' hr hrefresh =>
    refine ⟨hlt, fun c hc => ?_⟩
    rw [OrdMap.get_put] at hc
    split_ifs at hc with hj
    · cases hc
      subst hj
      obtain ⟨_, _, _, _, rfl⟩ := hrefresh
      exact hrec r hr
    · exact hrec c hc
  | mint =>
    refine ⟨lt_trans hlt (lt_next hw), fun c hc => ?_⟩
    rw [OrdMap.get_put, if_neg (ne_of_lt hlt)] at hc
    exact hrec c hc
  | @confirm j r hr =>
    have hcounter : (v.confirmLease pos j r).nextClientid = v.nextClientid := dropLeases_counters.1
    refine ⟨by rwa [hcounter], fun c hc => ?_⟩
    by_cases hj : k = j
    · subst hj
      rw [confirmLease_self] at hc
      cases hc
      exact hrec r hr
    · exact hrec c (confirmLease_other hc hj)
  | idle | reopen | openNew | close | relock | lockNew | release => exact ⟨hlt, hrec⟩

/-- A run along which the counter of client ids has not come round. -/
def ClientRun (hash : Bytes → UInt64) : NfsV4 → NfsV4 → Prop :=
  Reaches (step hash) (fun v i => (v.step hash i).nextClientid ≠ 0)

variable {hash : Bytes → UInt64}

theorem ClientRun.registry (h : ClientRun hash {} v) : v.Registry := by
  have hinv : v.Registry ∧ v.nextClientid ≠ 0 :=
    Reaches.invariant (P := fun v : NfsV4 => v.Registry ∧ v.nextClientid ≠ 0)
      (fun v i hv hw => ⟨(exec_effect hash i.1 v i.2).registry hv.1 hv.2 hw, hw⟩) ⟨registry_empty, by decide⟩ h
  exact hinv.1

theorem ClientRun.retired (h : ClientRun hash v w) (hk : Retired k v) : Retired k w :=
  Reaches.invariant (P := Retired k) (fun v i hk hw => (exec_effect hash i.1 v i.2).retired hw hk) hk h

theorem ClientRun.kept {id : Bytes} {verifier confirm : UInt64} (h : ClientRun hash v w)
    (hk : Instance k id verifier confirm v) : Instance k id verifier confirm w :=
  Reaches.invariant (P := Instance k id verifier confirm) (fun v i hk hw => (exec_effect hash i.1 v i.2).kept hw hk) hk h

/-- The registered instance of an id string and verifier is the one that is found. -/
theorem Registry.found (h : v.Registry) (hr : v.clients.get k = some r) :
    firstKey pos v.clients (fun c => c.id = r.id && c.verifier = r.verifier) = k := by
  have hne : firstKey pos v.clients (fun c => c.id = r.id && c.verifier = r.verifier) ≠ 0 := by
    intro h0
    have hp := firstKey_zero h.zero h0 hr
    simp at hp
  obtain ⟨c, hc, hp⟩ := firstKey_spec hne
  obtain ⟨hid, hver⟩ : c.id = r.id ∧ c.verifier = r.verifier := by simpa using hp
  exact h.instances _ k c r hc hr trivial trivial (Prod.ext hid hver)

/-- A SETCLIENTID that is sent again is answered as before, and leaves the lease as it is. -/
theorem Registry.repeated (h : v.Registry) (hr : v.clients.get k = some r) (cbProgram : UInt32) (cbNetid cbAddr : Bytes)
    (cbIdent : UInt32) :
    (v.opSetClientid hash pos r.verifier r.id cbProgram cbNetid cbAddr cbIdent).1 = ⟨.ok, .clientid k r.confirmVerf⟩ ∧
      (v.opSetClientid hash pos r.verifier r.id cbProgram cbNetid cbAddr cbIdent).2.clients.get k =
        some { r with cbProgram, cbNetid, cbAddr, cbIdent } := by
  unfold opSetClientid
  simp only [h.found hr, ne_eq, (h.key hr).1, not_false_eq_true, if_true, hr, Option.getD_some, OrdMap.get_put,
    and_self]

/-- The id string and the verifier of a SETCLIENTID. -/
def Req.client : Req → Option (Bytes × UInt64)
  | .setClientid verifier id _ _ _ _ => some (id, verifier)
  | _ => none

/-- The answer to a SETCLIENTID names the instance that it registers. -/
theorem Registry.answered (h : v.Registry) {q : Req} {x : Bytes × UInt64} (hq : q.client = some x)
    (hnext : (v.exec hash pos q).2.nextClientid ≠ 0) :
    ∃ c confirm, (v.exec hash pos q).1 = ⟨.ok, .clientid c confirm⟩ ∧
      Instance c x.1 x.2 confirm (v.exec hash pos q).2 := by
  cases q with
  | setClientid verifier id cbProgram cbNetid cbAddr cbIdent =>
    obtain rfl := Option.some.inj hq
    simp only [exec, opSetClientid] at hnext ⊢
    split_ifs at hnext ⊢ with hk
    · obtain ⟨r, hr, hp⟩ := firstKey_spec hk
      obtain ⟨hid, hver⟩ : r.id = id ∧ r.verifier = verifier := by simpa using hp
      refine ⟨_, _, rfl, (h.key hr).2.2, fun c hc => ?_⟩
      rw [OrdMap.get_put, if_pos rfl, hr] at hc
      cases hc
      rw [hr]
      exact ⟨hid, hver, rfl⟩
    · refine ⟨_, _, rfl, lt_next hnext, fun c hc => ?_⟩
      rw [OrdMap.get_put, if_pos rfl] at hc
      cases hc
      exact ⟨rfl, rfl, rfl⟩
  | _ => simp [Req.client] at hq

/-- A client id in an answer is registered or the next one. -/
theorem exec_clientid {q : Req} {c confirm : UInt64} (h : (v.exec hash pos q).1.body = .clientid c confirm) :
    v.clients.get c ≠ none ∨ c = v.nextClientid := by
  cases q with
  | setClientid verifier id cbProgram cbNetid cbAddr cbIdent =>
    simp only [exec, opSetClientid] at h
    split_ifs at h with hk
    · obtain ⟨r, hr, -⟩ := firstKey_spec hk
      cases h
      exact Or.inl (by simp [hr])
    · cases h
      exact Or.inr rfl
  | setClientidConfirm clientid confirm =>
    simp only [exec, opSetClientidConfirm] at h
    split at h
    · cases h
    · split_ifs at h
  | openFile access deny clientid owner file =>
    simp only [exec, opOpen] at h
    split_ifs at h
    cases file with
    | error e => cases h
    | ok fileId =>
      simp only [openFile] at h
      split_ifs at h
  | openConfirm | openDowngrade | locku | renew =>
    simp only [exec, opOpenConfirm, opOpenDowngrade, opLocku, opRenew] at h
    split at h <;> cases h
  | close sid =>
    simp only [exec, opClose] at h
    split_ifs at h
    split at h <;> cases h
  | lock locktype off len locker file =>
    simp only [exec, opLock, lockFile] at h
    grind
  | lockt locktype off len clientid owner file =>
    simp only [exec, opLockt] at h
    grind
  | releaseLockowner => cases h
  | read | write =>
    simp only [exec, checkAccess] at h
    grind

/-- Along every run in which the counter has not come round, the table has one record an instance and one lease
a client, a SETCLIENTID sent again is answered as before while its record exists, and no id is given out twice. -/
theorem client_registry (h : ClientRun hash {} v) :
    v.Registry ∧
    (∀ i j : WalkOrder × Req, ∀ x, i.2.client = some x → j.2.client = some x → (v.step hash i).nextClientid ≠ 0 →
      ∃ c confirm, (v.exec hash i.1 i.2).1 = ⟨.ok, .clientid c confirm⟩ ∧
        ∀ w r, ClientRun hash (v.step hash i) w → w.clients.get c = some r →
          (w.exec hash j.1 j.2).1 = ⟨.ok, .clientid c confirm⟩ ∧
          ∃ r', (w.step hash j).clients.get c = some r' ∧ r'.confirmed = r.confirmed) ∧
    ∀ k u w, v.clients.get k ≠ none → ClientRun hash v u → u.clients.get k = none → ClientRun hash u w →
      w.clients.get k = none ∧ ∀ (j : WalkOrder × Req) confirm, (w.exec hash j.1 j.2).1.body ≠ .clientid k confirm := by
  refine ⟨h.registry, fun i j x hi hj hnext => ?_, fun k u w hk hvu hu huw => ?_⟩
  · obtain ⟨c, confirm, hans, hinst⟩ := h.registry.answered hi hnext
    refine ⟨c, confirm, hans, fun w r hrun hr => ?_⟩
    obtain ⟨hid, hver, hcv⟩ := (hrun.kept hinst).2 r hr
    have hreg : w.Registry := ClientRun.registry ((h.tail hnext).trans hrun)
    obtain ⟨pos, q⟩ := j
    cases q with
    | setClientid verifier id cbProgram cbNetid cbAddr cbIdent =>
      obtain rfl := Option.some.inj hj
      subst hid hver hcv
      obtain ⟨hagain, hget⟩ := @Registry.repeated w pos c r hash hreg hr cbProgram cbNetid cbAddr cbIdent
      exact ⟨hagain, _, hget, rfl⟩
    | _ => simp [Req.client] at hj
  · have hret : Retired k u := by
      obtain ⟨r, hr⟩ := Option.ne_none_iff_exists'.mp hk
      have hinst : Instance k r.id r.verifier r.confirmVerf v :=
        ⟨(h.registry.key hr).2.2, fun c hc => by cases hr.symm.trans hc; exact ⟨rfl, rfl, rfl⟩⟩
      exact ⟨(hvu.kept hinst).1, hu⟩
    obtain ⟨hlt, hnone⟩ := huw.retired hret
    refine ⟨hnone, fun j confirm hbody => ?_⟩
    rcases exec_clientid hbody with hreg | rfl
    · exact hreg hnone
    · exact lt_irrefl _ hlt

/-- The two handshake requests of an instance that is given the id `c`. -/
def handshake (c verifier : UInt64) : List (WalkOrder × Req) :=
  [.setClientid verifier [99] 0 [] [] 0, .setClientidConfirm c (viewFileid (c ^^^ verifier) 0)].map
    (fun r => (fun _ => 0, r))

/-- A client that has booted once, and one that has come back. -/
def booted : NfsV4 := (handshake 1 7).foldl (step (fun _ => 0)) {}

def rebooted : NfsV4 := (handshake 2 8).foldl (step (fun _ => 0)) booted

theorem client_registry_rebooted :
    booted.clients.get 1 ≠ none ∧ rebooted.clientConfirmed 2 = true ∧ rebooted.clients.get 1 = none ∧ rebooted.Registry ∧
      ∀ (j : WalkOrder × Req) confirm, (rebooted.exec (fun _ => 0) j.1 j.2).1.body ≠ .clientid 1 confirm := by
  have hfirst : ClientRun (fun _ => 0) {} booted := Reaches.of_allowed (by decide)
  have hsecond : ClientRun (fun _ => 0) booted rebooted := Reaches.of_allowed (by decide)
  have hthere : booted.clients.get 1 ≠ none := by decide
  have hgone : rebooted.clients.get 1 = none := by decide
  refine ⟨hthere, by decide, hgone, (client_registry (hfirst.trans hsecond)).1, ?_⟩
  exact ((client_registry hfirst).2.2 1 rebooted rebooted hthere hsecond hgone .refl).2

/-- `n` instances of one client register, each with a verifier of its own. -/
def manyInstances (n : Nat) : List (WalkOrder × Req) :=
  (List.range n).map (fun i => (fun _ => 0, .setClientid (UInt64.ofNat i) [99] 0 [] [] 0))

theorem manyInstances_state (n : Nat) (hn : n < 2 ^ 64) :
    let v := (manyInstances n).foldl (step (fun _ => 0)) {}
    v.nextClientid = UInt64.ofNat (n + 1) ∧ (0 < n → ∃ k r, v.clients.get k = some r) ∧
      ∀ k r, v.clients.get k = some r → ∃ i < n, r.verifier = UInt64.ofNat i := by
  induction n with
  | zero => exact ⟨rfl, fun h => absurd h (lt_irrefl 0), fun k r hr => absurd hr (by simp [manyInstances])⟩
  | succ n ih =>
    obtain ⟨hnext, -, hold⟩ := ih (by omega)
    dsimp only at hnext hold ⊢
    rw [manyInstances, List.range_succ, List.map_append, List.foldl_append]
    rw [manyInstances] at hnext hold
    generalize List.foldl (step (fun _ => 0)) _ _ = v at hnext hold ⊢
    simp only [List.map_cons, List.map_nil, List.foldl_cons, List.foldl_nil, step, exec, opSetClientid]
    have hno : firstKey (fun _ => 0) v.clients (fun c => c.id = [99] && c.verifier = UInt64.ofNat n) = 0 := by
      by_contra hk
      obtain ⟨r, hr, hp⟩ := firstKey_spec hk
      obtain ⟨i, hi, hver⟩ := hold _ r hr
      simp only [Bool.and_eq_true, decide_eq_true_eq] at hp
      have heq : UInt64.ofNat i = UInt64.ofNat n := hver.symm.trans hp.2
      have hval := congrArg UInt64.toNat heq
      rw [UInt64.toNat_ofNat_of_lt' (show i < 2 ^ 64 by omega), UInt64.toNat_ofNat_of_lt' (show n < 2 ^ 64 by omega)] at hval
      omega
    rw [if_neg (by simpa using hno)]
    refine ⟨?_, fun _ => ⟨_, _, by rw [OrdMap.get_put, if_pos rfl]⟩, fun k r hr => ?_⟩
    · rw [hnext, ← UInt64.ofNat_one, ← UInt64.ofNat_add]
    · rw [OrdMap.get_put] at hr
      split_ifs at hr
      · cases hr
        exact ⟨n, by omega, rfl⟩
      · obtain ⟨i, hi, hver⟩ := hold k r hr
        exact ⟨i, by omega, hver⟩

/-- After `2^64 - 1` registrations the counter is zero, and no key is below it. -/
theorem registry_ends_with_counter :
    ¬ ((manyInstances (2 ^ 64 - 1)).foldl (step (fun _ => 0)) {}).Registry := by
  intro h
  obtain ⟨hnext, hsome, -⟩ := manyInstances_state (2 ^ 64 - 1) (by decide)
  obtain ⟨k, r, hr⟩ := hsome (by decide)
  have hlt := (h.key hr).2.2
  rw [hnext] at hlt
  exact absurd hlt (by simp)

end NfsV4

end Prfs
