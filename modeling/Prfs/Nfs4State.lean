import Mathlib.Data.List.Sort
import Prfs.OrdMap
import Prfs.Store

namespace Prfs

/-- The statuses that operations and a whole COMPOUND are answered with. -/
inductive Nfsstat4
  | ok | perm | noent | io | exist | notdir | isdir | inval | rofs | notempty | stale | badhandle | badCookie | notsupp
  | denied | shareDenied | resource | nofilehandle | staleClientid | badStateid | attrnotsupp | openmode
  deriving DecidableEq, Repr

def Nfsstat4.code : Nfsstat4 → UInt32
  | .ok => 0
  | .perm => 1
  | .noent => 2
  | .io => 5
  | .exist => 17
  | .notdir => 20
  | .isdir => 21
  | .inval => 22
  | .rofs => 30
  | .notempty => 66
  | .stale => 70
  | .badhandle => 10001
  | .badCookie => 10003
  | .notsupp => 10004
  | .denied => 10010
  | .shareDenied => 10015
  | .resource => 10018
  | .nofilehandle => 10020
  | .staleClientid => 10022
  | .badStateid => 10025
  | .attrnotsupp => 10032
  | .openmode => 10038

def ACCESS_READ : UInt32 := 1

def ACCESS_WRITE : UInt32 := 2

def ACCESS_BOTH : UInt32 := 3

def READ_LT : UInt32 := 1

def WRITE_LT : UInt32 := 2

def WRITEW_LT : UInt32 := 4

def OPEN4_RESULT_CONFIRM : UInt32 := 2

def OPEN4_RESULT_LOCKTYPE_POSIX : UInt32 := 4

/-- A display id for a node seen through a snapshot; the live view keeps the raw id. -/
def viewFileid (id snap : UInt64) : UInt64 :=
  if snap = LATEST then id
  else
    let x := id * 0x9E3779B97F4A7C15 + snap
    let x := (x ^^^ (x >>> 30)) * 0xBF58476D1CE4E5B9
    let x := (x ^^^ (x >>> 27)) * 0x94D049BB133111EB
    x ^^^ (x >>> 31)

structure Stateid where
  seqid : UInt32 := 0
  id : UInt64 := 0
  tag : UInt32 := 0
  deriving DecidableEq, Repr

/-- All zeros or all ones. -/
def Stateid.special (s : Stateid) : Bool :=
  s = ⟨0, 0, 0⟩ || s = ⟨0xffffffff, 0xffffffffffffffff, 0xffffffff⟩

structure OpenState where
  clientid : UInt64 := 0
  owner : Bytes := []
  fileId : UInt64 := 0
  access : UInt32 := 0
  deny : UInt32 := 0
  seqid : UInt32 := 1
  deriving DecidableEq, Repr

structure ClientRec where
  clientid : UInt64 := 0
  id : Bytes := []
  verifier : UInt64 := 0
  confirmVerf : UInt64 := 0
  confirmed : Bool := false
  cbProgram : UInt32 := 0
  cbNetid : Bytes := []
  cbAddr : Bytes := []
  cbIdent : UInt32 := 0
  deriving DecidableEq, Repr

structure LockRange where
  off : UInt64 := 0
  len : UInt64 := 0
  type : UInt32 := 0
  deriving DecidableEq, Repr

structure LockState where
  clientid : UInt64 := 0
  owner : Bytes := []
  fileId : UInt64 := 0
  seqid : UInt32 := 1
  ranges : List LockRange := []
  deriving DecidableEq, Repr

/-- The end of a range, the sum in 64 bits; the length `2^64 - 1` means to the end of
the file. -/
def rangeEnd (off len : UInt64) : UInt64 :=
  if len = 0xffffffffffffffff then 0xffffffffffffffff else off + len

def overlaps (aoff alen boff blen : UInt64) : Bool :=
  aoff < rangeEnd boff blen && boff < rangeEnd aoff alen

/-- Where the walk of an unordered map meets each of its keys. -/
abbrev WalkOrder := UInt64 → Nat

def walk {V : Type} (pos : WalkOrder) (m : OrdMap UInt64 V) : List (UInt64 × V) :=
  m.entries.insertionSort (fun a b => pos a.1 ≤ pos b.1)

/-- The first key of the walk whose value passes the test, or zero. -/
def firstKey {V : Type} (pos : WalkOrder) (m : OrdMap UInt64 V) (p : V → Bool) : UInt64 :=
  (((walk pos m).find? (fun e => p e.2)).map Prod.fst).getD 0

/-- What an operation writes after its status. -/
inductive Body4
  | none
  | clientid (clientid confirm : UInt64)
  | stateid (sid : Stateid)
  | opened (sid : Stateid) (rflags : UInt32)
  | denied (rg : LockRange) (clientid : UInt64) (owner : Bytes)
  deriving DecidableEq, Repr

structure Reply4 where
  status : Nfsstat4
  body : Body4 := .none
  deriving DecidableEq, Repr

/-- The client, open and lock tables of the server. -/
structure NfsV4 where
  nextClientid : UInt64 := 1
  clients : OrdMap UInt64 ClientRec := .empty
  nextState : UInt64 := 1
  opens : OrdMap UInt64 OpenState := .empty
  locks : OrdMap UInt64 LockState := .empty
  confirmedOwners : List (UInt64 × Bytes) := []

namespace NfsV4

def clientConfirmed (v : NfsV4) (clientid : UInt64) : Bool :=
  (v.clients.get clientid).any ClientRec.confirmed

def purgeClientState (v : NfsV4) (clientid : UInt64) : NfsV4 :=
  { v with
    opens := v.opens.filter (fun o => o.clientid ≠ clientid)
    locks := v.locks.filter (fun l => l.clientid ≠ clientid) }

/-- `hash` is the library's hash of a string. -/
def opSetClientid (hash : Bytes → UInt64) (pos : WalkOrder) (v : NfsV4) (verifier : UInt64) (id : Bytes)
    (cbProgram : UInt32) (cbNetid cbAddr : Bytes) (cbIdent : UInt32) : Reply4 × NfsV4 :=
  let clientid := firstKey pos v.clients (fun c => c.id = id && c.verifier = verifier)
  if clientid ≠ 0 then
    let c := (v.clients.get clientid).getD {}
    let c := { c with cbProgram, cbNetid, cbAddr, cbIdent }
    (⟨.ok, .clientid clientid c.confirmVerf⟩, { v with clients := v.clients.put clientid c })
  else
    let clientid := v.nextClientid
    let cv := viewFileid (clientid ^^^ verifier) (hash id)
    let c := { clientid, id, verifier, confirmVerf := cv, cbProgram, cbNetid, cbAddr, cbIdent }
    (⟨.ok, .clientid clientid cv⟩,
      { v with clients := v.clients.put clientid c, nextClientid := v.nextClientid + 1 })

/-- Drop another lease of a client that has come back. -/
def dropLease (v : NfsV4) (k : UInt64) : NfsV4 :=
  let v := v.purgeClientState k
  { v with clients := v.clients.del k }

def opSetClientidConfirm (pos : WalkOrder) (v : NfsV4) (clientid confirm : UInt64) : Reply4 × NfsV4 :=
  match v.clients.get clientid with
  | none => (⟨.staleClientid, .none⟩, v)
  | some c =>
    if c.confirmVerf ≠ confirm then (⟨.staleClientid, .none⟩, v)
    else if c.confirmed then (⟨.ok, .none⟩, v)
    else
      let others := (walk pos v.clients).filter (fun e => e.1 ≠ clientid && e.2.confirmed && e.2.id = c.id)
      let v := (others.map Prod.fst).foldl dropLease v
      (⟨.ok, .none⟩, { v with clients := v.clients.put clientid { c with confirmed := true } })

def opRenew (v : NfsV4) (clientid : UInt64) : Reply4 :=
  if v.clientConfirmed clientid then ⟨.ok, .none⟩ else ⟨.staleClientid, .none⟩

/-- Two sets of access and deny bits cannot be held together. -/
def conflicts (access deny : UInt32) (o : OpenState) : Bool :=
  access &&& o.deny ≠ 0 || deny &&& o.access ≠ 0

/-- An open-owner has to be confirmed once. -/
def rflags (v : NfsV4) (clientid : UInt64) (owner : Bytes) : UInt32 :=
  OPEN4_RESULT_LOCKTYPE_POSIX ||| (if (clientid, owner) ∈ v.confirmedOwners then 0 else OPEN4_RESULT_CONFIRM)

/-- `opOpen` under the state mutex, once the name is resolved to a file. -/
def openFile (pos : WalkOrder) (v : NfsV4) (access deny : UInt32) (clientid : UInt64) (owner : Bytes)
    (fileId : UInt64) : Reply4 × NfsV4 :=
  let rflags := v.rflags clientid owner
  let upId := firstKey pos v.opens (fun o => o.fileId = fileId && o.clientid = clientid && o.owner = owner)
  if upId ≠ 0 then
    let o := (v.opens.get upId).getD {}
    let o := { o with access := o.access ||| access, deny := o.deny ||| deny, seqid := o.seqid + 1 }
    (⟨.ok, .opened ⟨o.seqid, upId, 0⟩ rflags⟩, { v with opens := v.opens.put upId o })
  else if (walk pos v.opens).any (fun e => e.2.fileId = fileId && conflicts access deny e.2) then
    (⟨.shareDenied, .none⟩, v)
  else
    let o := { clientid, owner, fileId, access, deny, seqid := 1 }
    (⟨.ok, .opened ⟨1, v.nextState, 0⟩ rflags⟩,
      { v with opens := v.opens.put v.nextState o, nextState := v.nextState + 1 })

/-- `file` is what the store makes of the directory and the name: a file, or the status
it is refused with. -/
def opOpen (pos : WalkOrder) (v : NfsV4) (access deny : UInt32) (clientid : UInt64) (owner : Bytes)
    (file : Except Nfsstat4 UInt64) : Reply4 × NfsV4 :=
  if !v.clientConfirmed clientid then (⟨.staleClientid, .none⟩, v)
  else
    match file with
    | .error e => (⟨e, .none⟩, v)
    | .ok fileId => v.openFile pos access deny clientid owner fileId

def opClose (v : NfsV4) (sid : Stateid) : Reply4 × NfsV4 :=
  let done : Reply4 := ⟨.ok, .stateid { sid with seqid := sid.seqid + 1 }⟩
  if sid.special then (done, v)
  else
    match v.opens.get sid.id with
    | none => (⟨.badStateid, .none⟩, v)
    | some _ => (done, { v with opens := v.opens.del sid.id })

def opOpenConfirm (v : NfsV4) (sid : Stateid) : Reply4 × NfsV4 :=
  match v.opens.get sid.id with
  | none => (⟨.ok, .stateid sid⟩, v)
  | some o =>
    let o := { o with seqid := o.seqid + 1 }
    (⟨.ok, .stateid { sid with seqid := o.seqid }⟩,
      { v with opens := v.opens.put sid.id o, confirmedOwners := v.confirmedOwners.insert (o.clientid, o.owner) })

def opOpenDowngrade (v : NfsV4) (sid : Stateid) (access deny : UInt32) : Reply4 × NfsV4 :=
  match v.opens.get sid.id with
  | none => (⟨.badStateid, .none⟩, v)
  | some o =>
    let o := { o with access, deny, seqid := o.seqid + 1 }
    (⟨.ok, .stateid { sid with seqid := o.seqid }⟩, { v with opens := v.opens.put sid.id o })

/-- The first range held by another lock-owner that the requested one runs into. -/
def findConflict (pos : WalkOrder) (v : NfsV4) (write : Bool) (off len clientid : UInt64) (owner : Bytes)
    (fileId : UInt64) : Option (LockRange × LockState) :=
  (walk pos v.locks).findSome? (fun e =>
    if e.2.fileId ≠ fileId || (e.2.clientid = clientid && e.2.owner = owner) then none
    else
      (e.2.ranges.find? (fun rg => overlaps off len rg.off rg.len && (write || rg.type = WRITE_LT))).map
        (fun rg => (rg, e.2)))

def writes (locktype : UInt32) : Bool := locktype = WRITE_LT || locktype = WRITEW_LT

def grantedType (write : Bool) : UInt32 := if write then WRITE_LT else READ_LT

/-- The lock the owner has on the file, made if it has none. -/
def ownLock (pos : WalkOrder) (v : NfsV4) (clientid : UInt64) (owner : Bytes) (fileId : UInt64) : UInt64 × NfsV4 :=
  let lid := firstKey pos v.locks (fun l => l.fileId = fileId && l.clientid = clientid && l.owner = owner)
  if lid ≠ 0 then (lid, v)
  else
    let l := { clientid, owner, fileId, seqid := 1, ranges := [] }
    (v.nextState, { v with locks := v.locks.put v.nextState l, nextState := v.nextState + 1 })

/-- `opLock` under the state mutex, for a lock-owner and a file. -/
def lockFile (pos : WalkOrder) (v : NfsV4) (write : Bool) (off len clientid : UInt64) (owner : Bytes)
    (fileId : UInt64) : Reply4 × NfsV4 :=
  match v.findConflict pos write off len clientid owner fileId with
  | some (rg, l) => (⟨.denied, .denied rg l.clientid l.owner⟩, v)
  | none =>
    let (lid, v) := v.ownLock pos clientid owner fileId
    let l := (v.locks.get lid).getD {}
    let l := { l with ranges := l.ranges ++ [{ off, len, type := grantedType write }], seqid := l.seqid + 1 }
    (⟨.ok, .stateid ⟨l.seqid, lid, 1⟩⟩, { v with locks := v.locks.put lid l })

/-- A lock request comes from a new lock-owner, with the stateid of an open that the
server reads and ignores, or names a lock it holds. -/
inductive Locker
  | new (openSid : Stateid) (clientid : UInt64) (owner : Bytes)
  | existing (sid : Stateid)
  deriving DecidableEq, Repr

/-- `file` is the current file, if there is one. -/
def opLock (pos : WalkOrder) (v : NfsV4) (locktype : UInt32) (off len : UInt64) (locker : Locker)
    (file : Option UInt64) : Reply4 × NfsV4 :=
  match locker with
  | .new _ clientid owner =>
    if !v.clientConfirmed clientid then (⟨.staleClientid, .none⟩, v)
    else
      match file with
      | none => (⟨.nofilehandle, .none⟩, v)
      | some fileId => v.lockFile pos (writes locktype) off len clientid owner fileId
  | .existing sid =>
    match file with
    | none => (⟨.nofilehandle, .none⟩, v)
    | some fileId =>
      match v.locks.get sid.id with
      | none => (⟨.badStateid, .none⟩, v)
      | some l => v.lockFile pos (writes locktype) off len l.clientid l.owner fileId

def opLockt (pos : WalkOrder) (v : NfsV4) (locktype : UInt32) (off len clientid : UInt64) (owner : Bytes)
    (file : Option UInt64) : Reply4 :=
  match file with
  | none => ⟨.nofilehandle, .none⟩
  | some fileId =>
    match v.findConflict pos (writes locktype) off len clientid owner fileId with
    | some (rg, l) => ⟨.denied, .denied rg l.clientid l.owner⟩
    | none => ⟨.ok, .none⟩

def opLocku (v : NfsV4) (sid : Stateid) (off len : UInt64) : Reply4 × NfsV4 :=
  match v.locks.get sid.id with
  | none => (⟨.badStateid, .none⟩, v)
  | some l =>
    let l := { l with
      ranges := l.ranges.filter (fun rg => !overlaps off len rg.off rg.len), seqid := l.seqid + 1 }
    (⟨.ok, .stateid ⟨l.seqid, sid.id, 1⟩⟩, { v with locks := v.locks.put sid.id l })

def opReleaseLockowner (v : NfsV4) (clientid : UInt64) (owner : Bytes) : Reply4 × NfsV4 :=
  (⟨.ok, .none⟩, { v with locks := v.locks.filter (fun l => !(l.clientid = clientid && l.owner = owner)) })

/-- The access a stateid gives to a file. -/
def checkStateid (v : NfsV4) (s : Stateid) (fileId : UInt64) : Except Nfsstat4 UInt32 :=
  if s.special then .ok ACCESS_BOTH
  else if s.tag = 0 then
    match v.opens.get s.id with
    | none => .error .badStateid
    | some o => if o.fileId ≠ fileId then .error .badStateid else .ok o.access
  else
    match v.locks.get s.id with
    | none => .error .badStateid
    | some l => if l.fileId ≠ fileId then .error .badStateid else .ok ACCESS_BOTH

/-- The check READ and WRITE make, each with its own access bit. -/
def checkAccess (v : NfsV4) (s : Stateid) (file : Except Nfsstat4 UInt64) (bit : UInt32) : Reply4 :=
  match file with
  | .error e => ⟨e, .none⟩
  | .ok fileId =>
    match v.checkStateid s fileId with
    | .error e => ⟨e, .none⟩
    | .ok access => if access &&& bit = 0 then ⟨.openmode, .none⟩ else ⟨.ok, .none⟩

/-- The requests that read or write the tables, with decoded arguments. -/
inductive Req
  | setClientid (verifier : UInt64) (id : Bytes) (cbProgram : UInt32) (cbNetid cbAddr : Bytes) (cbIdent : UInt32)
  | setClientidConfirm (clientid confirm : UInt64)
  | renew (clientid : UInt64)
  | openFile (access deny : UInt32) (clientid : UInt64) (owner : Bytes) (file : Except Nfsstat4 UInt64)
  | openConfirm (sid : Stateid)
  | openDowngrade (sid : Stateid) (access deny : UInt32)
  | close (sid : Stateid)
  | lock (locktype : UInt32) (off len : UInt64) (locker : Locker) (file : Option UInt64)
  | lockt (locktype : UInt32) (off len clientid : UInt64) (owner : Bytes) (file : Option UInt64)
  | locku (sid : Stateid) (off len : UInt64)
  | releaseLockowner (clientid : UInt64) (owner : Bytes)
  | read (sid : Stateid) (file : Except Nfsstat4 UInt64)
  | write (sid : Stateid) (file : Except Nfsstat4 UInt64)

def exec (hash : Bytes → UInt64) (pos : WalkOrder) (v : NfsV4) : Req → Reply4 × NfsV4
  | .setClientid verifier id cbProgram cbNetid cbAddr cbIdent =>
    v.opSetClientid hash pos verifier id cbProgram cbNetid cbAddr cbIdent
  | .setClientidConfirm clientid confirm => v.opSetClientidConfirm pos clientid confirm
  | .renew clientid => (v.opRenew clientid, v)
  | .openFile access deny clientid owner file => v.opOpen pos access deny clientid owner file
  | .openConfirm sid => v.opOpenConfirm sid
  | .openDowngrade sid access deny => v.opOpenDowngrade sid access deny
  | .close sid => v.opClose sid
  | .lock locktype off len locker file => v.opLock pos locktype off len locker file
  | .lockt locktype off len clientid owner file => (v.opLockt pos locktype off len clientid owner file, v)
  | .locku sid off len => v.opLocku sid off len
  | .releaseLockowner clientid owner => v.opReleaseLockowner clientid owner
  | .read sid file => (v.checkAccess sid file ACCESS_READ, v)
  | .write sid file => (v.checkAccess sid file ACCESS_WRITE, v)

/-- The tables after one request, whatever order its maps are walked in. -/
def step (hash : Bytes → UInt64) (v : NfsV4) (i : WalkOrder × Req) : NfsV4 := (v.exec hash i.1 i.2).2

end NfsV4

theorem mem_walk {V : Type} {pos : WalkOrder} {m : OrdMap UInt64 V} {k : UInt64} {x : V} :
    (k, x) ∈ walk pos m ↔ m.get k = some x := by
  rw [← OrdMap.mem_iff_get]
  exact (List.perm_insertionSort _ _).mem_iff

theorem firstKey_spec {V : Type} {pos : WalkOrder} {m : OrdMap UInt64 V} {p : V → Bool}
    (h : firstKey pos m p ≠ 0) : ∃ x, m.get (firstKey pos m p) = some x ∧ p x = true := by
  unfold firstKey at h ⊢
  cases hf : (walk pos m).find? (fun e => p e.2) with
  | none => simp [hf] at h
  | some e =>
    have hp : p e.2 = true := by simpa using List.find?_some hf
    exact ⟨e.2, mem_walk.mp (List.mem_of_find?_eq_some hf), hp⟩

/-- Zero stands for nothing found as long as it is no key. -/
theorem firstKey_zero {V : Type} {pos : WalkOrder} {m : OrdMap UInt64 V} {p : V → Bool} (hz : m.get 0 = none)
    (h : firstKey pos m p = 0) {k : UInt64} {x : V} (hx : m.get k = some x) : p x = false := by
  unfold firstKey at h
  cases hf : (walk pos m).find? (fun e => p e.2) with
  | none =>
    rw [List.find?_eq_none] at hf
    simpa using hf (k, x) (mem_walk.mpr hx)
  | some e =>
    rw [hf, Option.map_some, Option.getD_some] at h
    have he := mem_walk.mp (List.mem_of_find?_eq_some hf)
    rw [h, hz] at he
    cases he

/-- A counter that has not come round is above what it gave out. -/
theorem lt_next {n : UInt64} (h : n + 1 ≠ 0) : n < n + 1 := by
  have hn := n.toNat_lt
  have hne : (n + 1).toNat ≠ 0 := fun he => h (UInt64.toNat_inj.mp he)
  rw [UInt64.lt_iff_toNat_lt]
  rw [UInt64.toNat_add, UInt64.toNat_one] at hne ⊢
  omega

end Prfs
