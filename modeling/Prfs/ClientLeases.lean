import Prfs.Nfs4Effects

namespace Prfs

namespace NfsV4

section Owns

variable {V : Type} {f : V → UInt64} {m : OrdMap UInt64 V} {c k : UInt64} {x : V}

/-- Some entry of the table belongs to the client. -/
def Owns (f : V → UInt64) (m : OrdMap UInt64 V) (c : UInt64) : Prop := ∃ k x, m.get k = some x ∧ f x = c

theorem Owns.of_put (h : Owns f (m.put k x) c) : Owns f m c ∨ c = f x := by
  obtain ⟨j, y, hy, rfl⟩ := h
  rw [OrdMap.get_put] at hy
  split_ifs at hy
  · cases hy
    exact Or.inr rfl
  · exact Or.inl ⟨j, y, hy, rfl⟩

/-- An entry that keeps its client when it is written again. -/
theorem Owns.of_update {y : V} (h : Owns f (m.put k x) c) (hk : m.get k = some y) (hf : f x = f y) : Owns f m c := by
  rcases h.of_put with h | rfl
  · exact h
  · exact ⟨k, y, hk, hf.symm⟩

theorem Owns.of_filter {p : V → Bool} (h : Owns f (m.filter p) c) : Owns f m c := by
  obtain ⟨k, x, hx, rfl⟩ := h
  exact ⟨k, x, (OrdMap.get_filter.mp hx).1, rfl⟩

theorem Owns.of_del (h : Owns f (m.del k) c) : Owns f m c := by
  obtain ⟨j, x, hx, rfl⟩ := h
  rw [OrdMap.get_del] at hx
  split_ifs at hx
  exact ⟨j, x, hx, rfl⟩

end Owns

/-- The client holds an open or a lock. -/
def HoldsState (v : NfsV4) (c : UInt64) : Prop :=
  Owns OpenState.clientid v.opens c ∨ Owns LockState.clientid v.locks c

/-- Every open and every lock belongs to a client that is present and confirmed. -/
def LeasesHeld (v : NfsV4) : Prop := ∀ c, v.HoldsState c → v.clientConfirmed c = true

section Tables

variable {v : NfsV4} {c : UInt64}

theorem openFile_holds {pos : WalkOrder} {access deny : UInt32} {clientid : UInt64} {owner : Bytes} {fileId : UInt64}
    (h : (v.openFile pos access deny clientid owner fileId).2.HoldsState c) : v.HoldsState c ∨ c = clientid := by
  unfold openFile at h
  dsimp only at h
  split_ifs at h with hup
  · obtain ⟨o, ho, -⟩ := firstKey_spec hup
    refine Or.inl (h.imp_left fun h => ?_)
    exact h.of_update ho (by rw [ho, Option.getD_some])
  · exact Or.inl h
  · rcases h with h | h
    · exact h.of_put.imp_left Or.inl
    · exact Or.inl (Or.inr h)

theorem ownLock_get (pos : WalkOrder) (v : NfsV4) (clientid : UInt64) (owner : Bytes) (fileId : UInt64) :
    ∃ l, (v.ownLock pos clientid owner fileId).2.locks.get (v.ownLock pos clientid owner fileId).1 = some l ∧
      l.clientid = clientid := by
  unfold ownLock
  dsimp only
  split_ifs with hlid
  · obtain ⟨l, hl, hp⟩ := firstKey_spec hlid
    refine ⟨l, hl, ?_⟩
    simp only [Bool.and_eq_true, decide_eq_true_eq] at hp
    exact hp.1.2
  · exact ⟨_, by rw [OrdMap.get_put, if_pos rfl], rfl⟩

theorem ownLock_holds {pos : WalkOrder} {clientid : UInt64} {owner : Bytes} {fileId : UInt64}
    (h : (v.ownLock pos clientid owner fileId).2.HoldsState c) : v.HoldsState c ∨ c = clientid := by
  unfold ownLock at h
  dsimp only at h
  split_ifs at h
  · exact Or.inl h
  · rcases h with h | h
    · exact Or.inl (Or.inl h)
    · exact h.of_put.imp_left Or.inr

theorem lockFile_holds {pos : WalkOrder} {write : Bool} {off len clientid : UInt64} {owner : Bytes} {fileId : UInt64}
    (h : (v.lockFile pos write off len clientid owner fileId).2.HoldsState c) : v.HoldsState c ∨ c = clientid := by
  unfold lockFile at h
  split at h
  · exact Or.inl h
  · obtain ⟨l, hl, -⟩ := ownLock_get pos v clientid owner fileId
    refine ownLock_holds (h.imp_right fun h => ?_)
    exact h.of_update hl (by simp [hl])

theorem lockFile_conflict {pos : WalkOrder} {write : Bool} {off len clientid : UInt64} {owner : Bytes} {fileId : UInt64}
    (h : (v.findConflict pos write off len clientid owner fileId).isSome = true) :
    (v.lockFile pos write off len clientid owner fileId).2 = v := by
  obtain ⟨⟨rg, l⟩, hrg⟩ := Option.isSome_iff_exists.mp h
  unfold lockFile
  rw [hrg]

/-- A granted lock leaves its client with state. -/
theorem lockFile_grants {pos : WalkOrder} {write : Bool} {off len clientid : UInt64} {owner : Bytes} {fileId : UInt64}
    (h : v.findConflict pos write off len clientid owner fileId = none) :
    (v.lockFile pos write off len clientid owner fileId).2.HoldsState clientid := by
  obtain ⟨l, hl, hlc⟩ := ownLock_get pos v clientid owner fileId
  unfold lockFile
  rw [h]
  refine Or.inr ⟨(v.ownLock pos clientid owner fileId).1, _, by dsimp only; rw [OrdMap.get_put, if_pos rfl], ?_⟩
  simp [hl, hlc]

theorem lockFile_clients {pos : WalkOrder} {write : Bool} {off len clientid : UInt64} {owner : Bytes} {fileId : UInt64} :
    (v.lockFile pos write off len clientid owner fileId).2.clients = v.clients := by
  unfold lockFile ownLock
  split
  · rfl
  · dsimp only
    split_ifs <;> rfl

theorem openFile_clients {pos : WalkOrder} {access deny : UInt32} {clientid : UInt64} {owner : Bytes} {fileId : UInt64} :
    (v.openFile pos access deny clientid owner fileId).2.clients = v.clients := by
  unfold openFile
  dsimp only
  split_ifs <;> rfl

/-- A client that holds state after leases are dropped is not one of theirs. -/
theorem dropLeases_holds {ks : List UInt64} (h : (ks.foldl dropLease v).HoldsState c) :
    v.HoldsState c ∧ (ks.foldl dropLease v).clients.get c = v.clients.get c := by
  have hkept : v.HoldsState c ∧ c ∉ ks := by
    rcases h with ⟨k, o, ho, rfl⟩ | ⟨k, l, hl, rfl⟩
    · obtain ⟨ho, hks⟩ := dropLeases_opens_iff.mp ho
      exact ⟨Or.inl ⟨k, o, ho, rfl⟩, hks⟩
    · obtain ⟨hl, hks⟩ := dropLeases_locks_iff.mp hl
      exact ⟨Or.inr ⟨k, l, hl, rfl⟩, hks⟩
  exact ⟨hkept.1, by rw [dropLeases_clients, if_neg hkept.2]⟩

theorem clientConfirmed_congr {w : NfsV4} (h : w.clients.get c = v.clients.get c) :
    w.clientConfirmed c = v.clientConfirmed c := by
  unfold clientConfirmed
  rw [h]

/-- No state can be gained, and none is left behind, where the clients stay as they were. -/
theorem LeasesHeld.of_holds {w : NfsV4} (h : v.LeasesHeld) (hc : w.clients = v.clients)
    (hw : ∀ c, w.HoldsState c → v.HoldsState c ∨ v.clientConfirmed c = true) : w.LeasesHeld := by
  intro c hh
  rw [@clientConfirmed_congr v c w (by rw [hc])]
  rcases hw c hh with hv | hv
  · exact h c hv
  · exact hv

/-- A request that mints a client id finds no state under it. -/
def MintsClear (pos : WalkOrder) (v : NfsV4) : Req → Prop
  | .setClientid verifier id _ _ _ _ =>
    firstKey pos v.clients (fun c => c.id = id && c.verifier = verifier) = 0 → ¬ v.HoldsState v.nextClientid
  | _ => True

theorem setClientid_leases {hash : Bytes → UInt64} {pos : WalkOrder} {verifier : UInt64} {id : Bytes}
    {cbProgram : UInt32} {cbNetid cbAddr : Bytes} {cbIdent : UInt32} (h : v.LeasesHeld) :
    (v.opSetClientid hash pos verifier id cbProgram cbNetid cbAddr cbIdent).2.LeasesHeld ↔
      (firstKey pos v.clients (fun c => c.id = id && c.verifier = verifier) = 0 → ¬ v.HoldsState v.nextClientid) := by
  unfold opSetClientid
  dsimp only
  split_ifs with hk
  · obtain ⟨r, hr, -⟩ := firstKey_spec hk
    refine iff_of_true (fun c hc => ?_) (fun h0 => absurd h0 hk)
    have hconf := h c hc
    unfold clientConfirmed at hconf ⊢
    dsimp only
    rw [OrdMap.get_put]
    split_ifs with hck
    · subst hck
      rw [hr, Option.getD_some]
      rw [hr] at hconf
      exact hconf
    · exact hconf
  · rw [not_not] at hk
    constructor
    · intro hafter _ hstate
      have hc := hafter v.nextClientid hstate
      unfold clientConfirmed at hc
      dsimp only at hc
      rw [OrdMap.get_put, if_pos rfl] at hc
      simp at hc
    · intro hclear c hc
      have hne : c ≠ v.nextClientid := by
        rintro rfl
        exact hclear hk hc
      have hconf := h c hc
      unfold clientConfirmed at hconf ⊢
      dsimp only
      rw [OrdMap.get_put, if_neg hne]
      exact hconf

/-- What one request taken as a whole does to the leases. -/
theorem exec_leases (hash : Bytes → UInt64) (pos : WalkOrder) (h : v.LeasesHeld) (r : Req) :
    (v.exec hash pos r).2.LeasesHeld ↔ v.MintsClear pos r := by
  cases r with
  | setClientid verifier id cbProgram cbNetid cbAddr cbIdent => exact setClientid_leases h
  | setClientidConfirm clientid confirm =>
    refine iff_of_true ?_ trivial
    rcases opSetClientidConfirm_cases pos v clientid confirm with hv | ⟨r, -, -, -, hv⟩
    · rwa [exec, hv]
    · rw [exec, hv]
      intro c hc
      obtain ⟨hstate, hget⟩ := dropLeases_holds hc
      have hconf := h c hstate
      unfold clientConfirmed at hconf ⊢
      dsimp only [confirmLease]
      rw [OrdMap.get_put]
      split_ifs
      · rfl
      · rw [hget]
        exact hconf
  | openFile access deny clientid owner file =>
    refine iff_of_true ?_ trivial
    rcases opOpen_cases pos v access deny clientid owner file with hv | ⟨fileId, -, hconf, hv⟩
    · rwa [exec, hv]
    · rw [exec, hv]
      refine h.of_holds openFile_clients fun c hc => ?_
      rcases openFile_holds hc with hc | rfl
      · exact Or.inl hc
      · exact Or.inr hconf
  | openConfirm sid =>
    refine iff_of_true ?_ trivial
    simp only [exec, opOpenConfirm]
    split
    · exact h
    · next o ho => exact h.of_holds rfl fun c hc => Or.inl (hc.imp_left fun hc => hc.of_update ho rfl)
  | openDowngrade sid access deny =>
    refine iff_of_true ?_ trivial
    simp only [exec, opOpenDowngrade]
    split
    · exact h
    · next o ho => exact h.of_holds rfl fun c hc => Or.inl (hc.imp_left fun hc => hc.of_update ho rfl)
  | close sid =>
    refine iff_of_true ?_ trivial
    rcases opClose_cases v sid with hv | hv
    · rwa [exec, hv]
    · rw [exec, hv]
      exact h.of_holds rfl fun c hc => Or.inl (hc.imp_left Owns.of_del)
  | lock locktype off len locker file =>
    refine iff_of_true ?_ trivial
    rcases opLock_cases pos v locktype off len locker file with hv | ⟨clientid, owner, fileId, hclient, hv⟩
    · rwa [exec, hv]
    · rw [exec, hv]
      refine h.of_holds lockFile_clients fun c hc => ?_
      rcases lockFile_holds hc with hc | rfl
      · exact Or.inl hc
      · rcases hclient with hconf | hlock
        · exact Or.inr hconf
        · exact Or.inl (Or.inr hlock)
  | locku sid off len =>
    refine iff_of_true ?_ trivial
    simp only [exec, opLocku]
    split
    · exact h
    · next l hl => exact h.of_holds rfl fun c hc => Or.inl (hc.imp_right fun hc => hc.of_update hl rfl)
  | releaseLockowner clientid owner =>
    refine iff_of_true ?_ trivial
    exact h.of_holds rfl fun c hc => Or.inl (hc.imp_right Owns.of_filter)
  | renew | lockt | read | write => exact iff_of_true h trivial

end Tables

/-- A LOCK of a new lock-owner between its two sections. -/
structure LockCall where
  write : Bool
  off : UInt64
  len : UInt64
  clientid : UInt64
  owner : Bytes
  fileId : UInt64
  deriving DecidableEq, Repr

/-- The tables, and the connections that are inside a LOCK. -/
structure Sections where
  tables : NfsV4 := {}
  pending : List (Nat × LockCall) := []

/-- What a connection does in one section: a request that needs no more than one, or one of the two of a
LOCK by a new lock-owner. -/
inductive Act
  | whole (r : Req)
  | lockCheck (locktype : UInt32) (off len : UInt64) (clientid : UInt64) (owner : Bytes) (file : Option UInt64)
  | lockTable

namespace Sections

def busy (s : Sections) (conn : Nat) : Bool := s.pending.any (fun p => p.1 = conn)

/-- OPEN and WRITE hold the store's mutex alone, a LOCK holds it shared over both of its sections, and a LOCK
of a new lock-owner is not a whole request. -/
def admits (s : Sections) : Req → Bool
  | .openFile .. => s.pending.isEmpty
  | .write .. => s.pending.isEmpty
  | .lock _ _ _ (.new ..) _ => false
  | _ => true

/-- One section of a connection; nothing happens where the connection or a mutex has to wait. -/
def step (hash : Bytes → UInt64) (s : Sections) (i : WalkOrder × Nat × Act) : Sections :=
  match i.2.2 with
  | .whole r =>
    if s.busy i.2.1 || !s.admits r then s else { s with tables := (s.tables.exec hash i.1 r).2 }
  | .lockCheck locktype off len clientid owner file =>
    match file with
    | none => s
    | some fileId =>
      if s.busy i.2.1 || !s.tables.clientConfirmed clientid then s
      else { s with pending := (i.2.1, ⟨writes locktype, off, len, clientid, owner, fileId⟩) :: s.pending }
  | .lockTable =>
    match s.pending.lookup i.2.1 with
    | none => s
    | some l =>
      ⟨(s.tables.lockFile i.1 l.write l.off l.len l.clientid l.owner l.fileId).2,
        s.pending.filter (fun p => p.1 ≠ i.2.1)⟩

/-- The second section of a LOCK finds its client still confirmed or the range taken, and
a minted client id has no state. -/
def LeaseKept (s : Sections) (i : WalkOrder × Nat × Act) : Prop :=
  match i.2.2 with
  | .whole r => s.busy i.2.1 = false → s.admits r = true → s.tables.MintsClear i.1 r
  | .lockCheck .. => True
  | .lockTable =>
    ∀ l, s.pending.lookup i.2.1 = some l → s.tables.clientConfirmed l.clientid = true ∨
      (s.tables.findConflict i.1 l.write l.off l.len l.clientid l.owner l.fileId).isSome = true

theorem step_leases (hash : Bytes → UInt64) (s : Sections) (i : WalkOrder × Nat × Act)
    (h : s.tables.LeasesHeld) : (s.step hash i).tables.LeasesHeld ↔ s.LeaseKept i := by
  obtain ⟨pos, conn, act⟩ := i
  cases act with
  | whole r =>
    simp only [step, LeaseKept]
    split_ifs with hno
    · refine iff_of_true h fun hb ha => ?_
      simp [hb, ha] at hno
    · simp only [Bool.or_eq_true, Bool.not_eq_true', not_or, Bool.not_eq_false, Bool.not_eq_true] at hno
      rw [exec_leases hash pos h r]
      exact ⟨fun hm _ _ => hm, fun hm => hm hno.1 hno.2⟩
  | lockCheck locktype off len clientid owner file =>
    simp only [step, LeaseKept]
    refine iff_of_true ?_ trivial
    split
    · exact h
    · split_ifs <;> exact h
  | lockTable =>
    simp only [step, LeaseKept]
    cases hp : s.pending.lookup conn with
    | none => exact iff_of_true h (by simp)
    | some l =>
      simp only [Option.some.injEq, forall_eq']
      cases hf : s.tables.findConflict pos l.write l.off l.len l.clientid l.owner l.fileId with
      | some x =>
        rw [lockFile_conflict (by rw [hf]; rfl)]
        exact iff_of_true h (Or.inr rfl)
      | none =>
        constructor
        · intro hafter
          have hc := hafter l.clientid (lockFile_grants hf)
          rw [@clientConfirmed_congr s.tables _ _ (by rw [lockFile_clients])] at hc
          exact Or.inl hc
        · intro hc
          refine h.of_holds lockFile_clients fun c hh => ?_
          rcases lockFile_holds hh with hh | rfl
          · exact Or.inl hh
          · exact Or.inr (by simpa using hc)

theorem empty_leases : (({} : Sections).tables).LeasesHeld := by
  rintro c (⟨k, x, hx, -⟩ | ⟨k, x, hx, -⟩)
  · cases hx
  · cases hx

/-- Over any interleaving of the sections of any connections, every open and every lock belongs to a
confirmed client in all states of the run exactly when no LOCK enters its second section with its client gone. -/
theorem leases_held_iff (hash : Bytes → UInt64) (is : List (WalkOrder × Nat × Act)) :
    (∀ pre, pre <+: is → (pre.foldl (step hash) {}).tables.LeasesHeld) ↔ Allowed (step hash) LeaseKept {} is :=
  Allowed.iff_throughout (P := fun s => s.tables.LeasesHeld) (fun s i => step_leases hash s i) empty_leases is

/-- A client comes back under its id string while a LOCK of its first lease is between its sections. -/
def rebootRun : List (WalkOrder × Nat × Act) :=
  [(1, .whole (.setClientid 7 [99] 0 [] [] 0)),
    (1, .whole (.setClientidConfirm 1 (viewFileid (1 ^^^ 7) 0))),
    (2, .whole (.setClientid 8 [99] 0 [] [] 0)),
    (1, .lockCheck WRITE_LT 0 10 1 [65] (some 2)),
    (2, .whole (.setClientidConfirm 2 (viewFileid (2 ^^^ 8) 0))),
    (1, .lockTable)].map (fun x => (fun _ => 0, x))

/-- The lock is recorded for the lease that was purged. -/
theorem lock_outlives_client :
    ¬ ∀ pre, pre <+: rebootRun → (pre.foldl (step (fun _ => 0)) {}).tables.LeasesHeld := by
  intro h
  have hlock : (rebootRun.foldl (step (fun _ => 0)) {}).tables.locks.get 1 =
      some ⟨1, [65], 2, 2, [⟨0, 10, WRITE_LT⟩]⟩ := by decide
  have hgone : (rebootRun.foldl (step (fun _ => 0)) {}).tables.clientConfirmed 1 = false := by decide
  have hconf := h rebootRun (List.prefix_refl _) 1 (Or.inr ⟨1, _, hlock, rfl⟩)
  rw [hgone] at hconf
  exact absurd hconf (by decide)

end Sections

end NfsV4

end Prfs
