import Prfs.Nfs4State
import Prfs.Runs

namespace Prfs

/-- The record with another callback. -/
def ClientRec.Refreshed (r r' : ClientRec) : Prop :=
  ∃ cbProgram cbNetid cbAddr cbIdent, r' = { r with cbProgram, cbNetid, cbAddr, cbIdent }

/-- Whose an open is, and of which file. -/
def OpenState.holder (o : OpenState) : UInt64 × Bytes × UInt64 := (o.clientid, o.owner, o.fileId)

/-- Whose a lock is, and on which file. -/
def LockState.holder (l : LockState) : UInt64 × Bytes × UInt64 := (l.clientid, l.owner, l.fileId)

theorem OpenState.holder_eq (o : OpenState) (clientid : UInt64) (owner : Bytes) (fileId : UInt64) :
    decide (o.holder = (clientid, owner, fileId)) = (o.fileId = fileId && o.clientid = clientid && o.owner = owner) := by
  rw [holder, Bool.eq_iff_iff]
  simp only [Bool.and_eq_true, decide_eq_true_eq, Prod.mk.injEq]
  exact ⟨fun h => ⟨⟨h.2.2, h.1⟩, h.2.1⟩, fun h => ⟨h.1.2, h.2, h.1.1⟩⟩

theorem LockState.holder_eq (l : LockState) (clientid : UInt64) (owner : Bytes) (fileId : UInt64) :
    decide (l.holder = (clientid, owner, fileId)) = (l.fileId = fileId && l.clientid = clientid && l.owner = owner) := by
  rw [holder, Bool.eq_iff_iff]
  simp only [Bool.and_eq_true, decide_eq_true_eq, Prod.mk.injEq]
  exact ⟨fun h => ⟨⟨h.2.2, h.1⟩, h.2.1⟩, fun h => ⟨h.1.2, h.2, h.1.1⟩⟩

namespace NfsV4

variable {v : NfsV4} {pos : WalkOrder} {k : UInt64} {r : ClientRec}

/-- The other confirmed leases under the id string of `r`. -/
def staleLeases (pos : WalkOrder) (v : NfsV4) (k : UInt64) (r : ClientRec) : List UInt64 :=
  ((walk pos v.clients).filter (fun e => e.1 ≠ k && e.2.confirmed && e.2.id = r.id)).map Prod.fst

/-- The tables once the lease `k` is confirmed and the others of its client are dropped. -/
def confirmLease (pos : WalkOrder) (v : NfsV4) (k : UInt64) (r : ClientRec) : NfsV4 :=
  let u := (staleLeases pos v k r).foldl dropLease v
  { u with clients := u.clients.put k { r with confirmed := true } }

/-- What a request can do to the tables. -/
inductive Effect (pos : WalkOrder) (v : NfsV4) : NfsV4 → Prop
  | idle : Effect pos v v
  | refresh {k : UInt64} {r r' : ClientRec} : v.clients.get k = some r → r.Refreshed r' →
      Effect pos v { v with clients := v.clients.put k r' }
  | mint {r : ClientRec} : firstKey pos v.clients (fun c => c.id = r.id && c.verifier = r.verifier) = 0 →
      r.clientid = v.nextClientid → r.confirmed = false →
      Effect pos v { v with clients := v.clients.put v.nextClientid r, nextClientid := v.nextClientid + 1 }
  | confirm {k : UInt64} {r : ClientRec} : v.clients.get k = some r → r.confirmed = false →
      Effect pos v (v.confirmLease pos k r)
  | reopen {k : UInt64} {o o' : OpenState} {owners : List (UInt64 × Bytes)} : v.opens.get k = some o →
      o'.holder = o.holder → Effect pos v { v with opens := v.opens.put k o', confirmedOwners := owners }
  | openNew {o : OpenState} : firstKey pos v.opens (fun o' => o'.holder = o.holder) = 0 →
      Effect pos v { v with opens := v.opens.put v.nextState o, nextState := v.nextState + 1 }
  | close {k : UInt64} : Effect pos v { v with opens := v.opens.del k }
  | relock {k : UInt64} {l l' : LockState} : v.locks.get k = some l → l'.holder = l.holder →
      Effect pos v { v with locks := v.locks.put k l' }
  | lockNew {l : LockState} : firstKey pos v.locks (fun l' => l'.holder = l.holder) = 0 →
      Effect pos v { v with locks := v.locks.put v.nextState l, nextState := v.nextState + 1 }
  | release {p : LockState → Bool} : Effect pos v { v with locks := v.locks.filter p }

theorem setClientid_effect (hash : Bytes → UInt64) (pos : WalkOrder) (v : NfsV4) (verifier : UInt64) (id : Bytes)
    (cbProgram : UInt32) (cbNetid cbAddr : Bytes) (cbIdent : UInt32) :
    Effect pos v (v.opSetClientid hash pos verifier id cbProgram cbNetid cbAddr cbIdent).2 := by
  unfold opSetClientid
  dsimp only
  split_ifs with hk
  · obtain ⟨r, hr, -⟩ := firstKey_spec hk
    rw [hr, Option.getD_some]
    exact .refresh hr ⟨cbProgram, cbNetid, cbAddr, cbIdent, rfl⟩
  · exact .mint (not_not.mp hk) rfl rfl

/-- A SETCLIENTID_CONFIRM changes nothing, or confirms a lease that waits for it. -/
theorem opSetClientidConfirm_cases (pos : WalkOrder) (v : NfsV4) (clientid confirm : UInt64) :
    (v.opSetClientidConfirm pos clientid confirm).2 = v ∨ ∃ r, v.clients.get clientid = some r ∧ r.confirmed = false ∧
      r.confirmVerf = confirm ∧ (v.opSetClientidConfirm pos clientid confirm).2 = v.confirmLease pos clientid r := by
  unfold opSetClientidConfirm
  split
  · exact .inl rfl
  · next r hr =>
    split_ifs with hverf hconf
    · exact .inl rfl
    · exact .inl rfl
    · exact .inr ⟨r, hr, by simpa using hconf, not_not.mp hverf, rfl⟩

/-- An OPEN comes to the open table for a confirmed client and a file that is there. -/
theorem opOpen_cases (pos : WalkOrder) (v : NfsV4) (access deny : UInt32) (clientid : UInt64) (owner : Bytes)
    (file : Except Nfsstat4 UInt64) :
    (v.opOpen pos access deny clientid owner file).2 = v ∨ ∃ fileId, file = .ok fileId ∧
      v.clientConfirmed clientid = true ∧
      (v.opOpen pos access deny clientid owner file).2 = (v.openFile pos access deny clientid owner fileId).2 := by
  unfold opOpen
  split_ifs with hconf
  · exact .inl rfl
  · cases file with
    | error e => exact .inl rfl
    | ok fileId => exact .inr ⟨fileId, rfl, by simpa using hconf, rfl⟩

theorem opClose_cases (v : NfsV4) (sid : Stateid) :
    (v.opClose sid).2 = v ∨ (v.opClose sid).2 = { v with opens := v.opens.del sid.id } := by
  unfold opClose
  split_ifs
  · exact .inl rfl
  · split
    · exact .inl rfl
    · exact .inr rfl

/-- A LOCK comes to the lock table for a confirmed client or for the client of a lock. -/
theorem opLock_cases (pos : WalkOrder) (v : NfsV4) (locktype : UInt32) (off len : UInt64) (locker : Locker)
    (file : Option UInt64) :
    (v.opLock pos locktype off len locker file).2 = v ∨ ∃ clientid owner fileId,
      (v.clientConfirmed clientid = true ∨ ∃ k l, v.locks.get k = some l ∧ l.clientid = clientid) ∧
      (v.opLock pos locktype off len locker file).2 =
        (v.lockFile pos (writes locktype) off len clientid owner fileId).2 := by
  cases locker with
  | new openSid clientid owner =>
    simp only [opLock]
    split_ifs with hconf
    · exact .inl rfl
    · cases file with
      | none => exact .inl rfl
      | some fileId => exact .inr ⟨clientid, owner, fileId, .inl (by simpa using hconf), rfl⟩
  | existing sid =>
    cases file with
    | none => exact .inl rfl
    | some fileId =>
      simp only [opLock]
      split
      · exact .inl rfl
      · next l hl => exact .inr ⟨l.clientid, l.owner, fileId, .inr ⟨sid.id, l, hl, rfl⟩, rfl⟩

theorem openFile_effect (pos : WalkOrder) (v : NfsV4) (access deny : UInt32) (clientid : UInt64) (owner : Bytes)
    (fileId : UInt64) : Effect pos v (v.openFile pos access deny clientid owner fileId).2 := by
  unfold openFile
  simp only [← OpenState.holder_eq]
  split_ifs with hup
  · obtain ⟨o, ho, -⟩ := firstKey_spec hup
    rw [ho, Option.getD_some]
    exact .reopen ho rfl
  · exact .idle
  · exact .openNew (not_not.mp hup)

theorem lockFile_effect (pos : WalkOrder) (v : NfsV4) (write : Bool) (off len clientid : UInt64) (owner : Bytes)
    (fileId : UInt64) : Effect pos v (v.lockFile pos write off len clientid owner fileId).2 := by
  unfold lockFile ownLock
  split
  · exact .idle
  · simp only [← LockState.holder_eq]
    split_ifs with hlid
    · obtain ⟨l, hl, -⟩ := firstKey_spec hlid
      simp only [hl, Option.getD_some]
      exact .relock hl rfl
    · simp only [OrdMap.get_put, if_pos, Option.getD_some, OrdMap.put_put]
      exact .lockNew (not_not.mp hlid)

theorem exec_effect (hash : Bytes → UInt64) (pos : WalkOrder) (v : NfsV4) (q : Req) :
    Effect pos v (v.exec hash pos q).2 := by
  cases q with
  | setClientid verifier id cbProgram cbNetid cbAddr cbIdent => exact setClientid_effect ..
  | setClientidConfirm clientid confirm =>
    rcases opSetClientidConfirm_cases pos v clientid confirm with hv | ⟨r, hr, hconf, -, hv⟩
    · rw [exec, hv]
      exact .idle
    · rw [exec, hv]
      exact .confirm hr hconf
  | openFile access deny clientid owner file =>
    rcases opOpen_cases pos v access deny clientid owner file with hv | ⟨fileId, -, -, hv⟩
    · rw [exec, hv]
      exact .idle
    · rw [exec, hv]
      exact openFile_effect ..
  | openConfirm sid =>
    simp only [exec, opOpenConfirm]
    split
    · exact .idle
    · next o ho => exact .reopen ho rfl
  | openDowngrade sid access deny =>
    simp only [exec, opOpenDowngrade]
    split
    · exact .idle
    · next o ho => exact .reopen ho rfl
  | close sid =>
    rcases opClose_cases v sid with hv | hv
    · rw [exec, hv]
      exact .idle
    · rw [exec, hv]
      exact .close
  | lock locktype off len locker file =>
    rcases opLock_cases pos v locktype off len locker file with hv | ⟨clientid, owner, fileId, -, hv⟩
    · rw [exec, hv]
      exact .idle
    · rw [exec, hv]
      exact lockFile_effect ..
  | locku sid off len =>
    simp only [exec, opLocku]
    split
    · exact .idle
    · next l hl => exact .relock hl rfl
  | releaseLockowner clientid owner => exact .release
  | renew | lockt | read | write => exact .idle

theorem mem_staleLeases {j : UInt64} :
    j ∈ staleLeases pos v k r ↔ j ≠ k ∧ ∃ c, v.clients.get j = some c ∧ c.confirmed = true ∧ c.id = r.id := by
  simp only [staleLeases, List.mem_map, List.mem_filter, Prod.exists, exists_and_right, exists_eq_right, mem_walk,
    Bool.and_eq_true, decide_eq_true_eq]
  constructor
  · rintro ⟨c, hc, ⟨hj, hconf⟩, hid⟩
    exact ⟨hj, c, hc, hconf, hid⟩
  · rintro ⟨hj, c, hc, hconf, hid⟩
    exact ⟨c, hc, ⟨hj, hconf⟩, hid⟩

section Dropped

variable {ks : List UInt64}

theorem dropLeases_clients (j : UInt64) :
    (ks.foldl dropLease v).clients.get j = if j ∈ ks then none else v.clients.get j := by
  induction ks generalizing v with
  | nil => simp
  | cons k ks ih =>
    rw [List.foldl_cons, ih]
    simp only [dropLease, purgeClientState, OrdMap.get_del, List.mem_cons]
    split_ifs <;> simp_all

/-- A table that loses the entries of one client by a drop has those of the other clients left after several. -/
theorem dropLeases_table_iff {α : Type} {table : NfsV4 → OrdMap UInt64 α} {client : α → UInt64}
    (hdrop : ∀ v k j x, (table (dropLease v k)).get j = some x ↔ (table v).get j = some x ∧ client x ≠ k)
    {j : UInt64} {x : α} :
    (table (ks.foldl dropLease v)).get j = some x ↔ (table v).get j = some x ∧ client x ∉ ks := by
  induction ks generalizing v with
  | nil => simp
  | cons k ks ih => rw [List.foldl_cons, ih, hdrop, List.mem_cons, not_or, and_assoc]

theorem dropLeases_opens_iff {j : UInt64} {o : OpenState} :
    (ks.foldl dropLease v).opens.get j = some o ↔ v.opens.get j = some o ∧ o.clientid ∉ ks := by
  apply dropLeases_table_iff
  intro v k j o
  rw [dropLease, purgeClientState, OrdMap.get_filter, decide_eq_true_eq]

theorem dropLeases_locks_iff {j : UInt64} {l : LockState} :
    (ks.foldl dropLease v).locks.get j = some l ↔ v.locks.get j = some l ∧ l.clientid ∉ ks := by
  apply dropLeases_table_iff
  intro v k j l
  rw [dropLease, purgeClientState, OrdMap.get_filter, decide_eq_true_eq]

theorem dropLeases_counters : (ks.foldl dropLease v).nextClientid = v.nextClientid ∧
    (ks.foldl dropLease v).nextState = v.nextState := by
  induction ks generalizing v with
  | nil => exact ⟨rfl, rfl⟩
  | cons k ks ih =>
    rw [List.foldl_cons]
    exact ih

end Dropped

theorem confirmLease_clients (j : UInt64) :
    (v.confirmLease pos k r).clients.get j = if j = k then some { r with confirmed := true }
      else if j ∈ staleLeases pos v k r then none else v.clients.get j := by
  rw [confirmLease, OrdMap.get_put, dropLeases_clients]

end NfsV4

end Prfs
