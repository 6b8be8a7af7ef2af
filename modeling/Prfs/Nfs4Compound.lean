import Prfs.Nfs4Write

namespace Prfs

/-- The operations that are served. -/
inductive Op4
  | access | close | commit | create | getattr | getfh | link | lock | lockt | locku | lookup | lookupp | openFile
  | openConfirm | openDowngrade | putfh | putpubfh | putrootfh | read | readdir | readlink | remove | rename | renew
  | restorefh | savefh | setattr | setclientid | setclientidConfirm | write | releaseLockowner
  deriving DecidableEq, Repr

def Op4.ofCode (op : UInt32) : Option Op4 :=
  match op.toNat with
  | 3 => some .access
  | 4 => some .close
  | 5 => some .commit
  | 6 => some .create
  | 9 => some .getattr
  | 10 => some .getfh
  | 11 => some .link
  | 12 => some .lock
  | 13 => some .lockt
  | 14 => some .locku
  | 15 => some .lookup
  | 16 => some .lookupp
  | 18 => some .openFile
  | 20 => some .openConfirm
  | 21 => some .openDowngrade
  | 22 => some .putfh
  | 23 => some .putpubfh
  | 24 => some .putrootfh
  | 25 => some .read
  | 26 => some .readdir
  | 27 => some .readlink
  | 28 => some .remove
  | 29 => some .rename
  | 30 => some .renew
  | 31 => some .restorefh
  | 32 => some .savefh
  | 34 => some .setattr
  | 35 => some .setclientid
  | 36 => some .setclientidConfirm
  | 38 => some .write
  | 39 => some .releaseLockowner
  | _ => none

namespace NfsV4

def OPEN4_CREATE : UInt32 := 1

def GUARDED4 : UInt32 := 1

def EXCLUSIVE4 : UInt32 := 2

def CLAIM_NULL : UInt32 := 0

def encodeBody : Body4 → Writer → Writer
  | .none, w => w
  | .clientid id confirm, w => (w.u64 id).u64 confirm
  | .stateid sid, w => writeStateid w sid
  | .opened sid rflags, w => (writeStateid w sid).u32 rflags
  | .denied rg clientid owner, w => writeDenied w rg clientid owner

/-- How an OPEN may create its file; the reader stands at the attributes it is created with. -/
structure OpenHow where
  opentype : UInt32
  createmode : UInt32 := 0
  attrsAt : Option Reader := none
  deriving DecidableEq, Repr

def readOpenHow (m : Msg) (r : Reader) : OpenHow × Reader :=
  let (opentype, r) := r.u32 m
  if opentype = OPEN4_CREATE then
    let (createmode, r) := r.u32 m
    if createmode = EXCLUSIVE4 then ({ opentype, createmode }, r.skip m 8)
    else ({ opentype, createmode, attrsAt := some r }, skipFattr m r)
  else ({ opentype }, r)

def readLocker (m : Msg) (r : Reader) : Locker × Reader :=
  let (isNew, r) := r.u32 m
  if isNew ≠ 0 then
    let (_, r) := r.u32 m
    let (openSid, r) := readStateid m r
    let (_, r) := r.u32 m
    let (clientid, r) := r.u64 m
    let (owner, r) := r.str m
    (.new openSid clientid owner, r)
  else
    let (sid, r) := readStateid m r
    let (_, r) := r.u32 m
    (.existing sid, r)

namespace Call4

section Opens

variable (c : Call4) (isLive : UInt64 → Bool) (pos : WalkOrder) (m : Msg)

/-- The answer of the tables. -/
def exitReply (x : Reply4 × NfsV4) : Out4 := { c with v := x.2 }.exitWith x.1.status (encodeBody x.1.body)

/-- The open state of a file that is there, and the result of an OPEN. -/
def openState (access deny : UInt32) (clientid : UInt64) (owner : Bytes) (dir : Node) (before : UInt64)
    (created : Bool) (child : Node) : Out4 :=
  let c := { c with cfh := some child }
  match c.v.openFile pos access deny clientid owner child.id with
  | (⟨.ok, .opened sid rflags⟩, v) =>
    { c with v }.exitWith .ok (fun w =>
      let w := changeInfo (writeStateid w sid) before (if created then (c.fs.attrs dir).ctime else before)
      ((((w.u32 rflags).u32 2).u32 0).u32 0).u32 0)
  | (x, v) => { c with v }.exit x.status

/-- The file of a name, made where the OPEN creates it. -/
def openName (access deny : UInt32) (clientid : UInt64) (owner : Bytes) (how : OpenHow) (dir : Node) (name : Bytes) :
    Out4 :=
  let before := (c.fs.attrs dir).ctime
  match c.fs.lookup dir name with
  | none =>
    if how.opentype ≠ OPEN4_CREATE then c.exit .noent
    else
      let (child, fs) := c.fs.mkfile []
      match fs.link dir name child with
      | (.OK, fs) =>
        let fs :=
          match how.attrsAt with
          | some r => (applyFattr4 m r child fs).2.2
          | none => fs
        openState { c with fs := touchDir fs dir } pos access deny clientid owner dir before true child
      | (_, fs) => { c with fs }.exit .io
  | some child =>
    if how.opentype = OPEN4_CREATE ∧ how.createmode = GUARDED4 then c.exit .exist
    else openState c pos access deny clientid owner dir before false child

def opOpen : Out4 :=
  let (_, r) := c.r.u32 m
  let (access, r) := r.u32 m
  let (deny, r) := r.u32 m
  let (clientid, r) := r.u64 m
  let (owner, r) := r.str m
  if !c.v.clientConfirmed clientid then { c with r }.exit .staleClientid
  else
    let (how, r) := readOpenHow m r
    let (claim, r) := r.u32 m
    if claim ≠ CLAIM_NULL then { c with r }.exit .notsupp
    else
      let (name, r) := r.str m
      let c := { c with r }
      if !r.ok then c.exit .inval
      else
        match c.cur with
        | none => c.exit .notdir
        | some dir =>
          if (c.fs.attrs dir).type ≠ .DIR then c.exit .notdir
          else if how.opentype = OPEN4_CREATE ∧ c.liveCfh isLive = false then c.exit .rofs
          else openName c pos m access deny clientid owner how dir name

end Opens

section State

variable (c : Call4) (isLive : UInt64 → Bool) (hash : Bytes → UInt64) (pos : WalkOrder) (m : Msg)

def opClose : Out4 :=
  let (_, r) := c.r.u32 m
  let (sid, r) := readStateid m r
  exitReply { c with r } (c.v.opClose sid)

def opOpenConfirm : Out4 :=
  let (sid, r) := readStateid m c.r
  let (_, r) := r.u32 m
  exitReply { c with r } (c.v.opOpenConfirm sid)

def opOpenDowngrade : Out4 :=
  let (sid, r) := readStateid m c.r
  let (_, r) := r.u32 m
  let (access, r) := r.u32 m
  let (deny, r) := r.u32 m
  exitReply { c with r } (c.v.opOpenDowngrade sid access deny)

def opLock : Out4 :=
  let (locktype, r) := c.r.u32 m
  let (_, r) := r.u32 m
  let (off, r) := r.u64 m
  let (len, r) := r.u64 m
  let (locker, r) := readLocker m r
  exitReply { c with r } (c.v.opLock pos locktype off len locker (c.cur.map Node.id))

def opLockt : Out4 :=
  let (locktype, r) := c.r.u32 m
  let (off, r) := r.u64 m
  let (len, r) := r.u64 m
  let (clientid, r) := r.u64 m
  let (owner, r) := r.str m
  exitReply { c with r } (c.v.opLockt pos locktype off len clientid owner (c.cur.map Node.id), c.v)

def opLocku : Out4 :=
  let (_, r) := c.r.u32 m
  let (_, r) := r.u32 m
  let (sid, r) := readStateid m r
  let (off, r) := r.u64 m
  let (len, r) := r.u64 m
  exitReply { c with r } (c.v.opLocku sid off len)

def opReleaseLockowner : Out4 :=
  let (clientid, r) := c.r.u64 m
  let (owner, r) := r.str m
  exitReply { c with r } (c.v.opReleaseLockowner clientid owner)

def opSetClientid : Out4 :=
  let (verifier, r) := c.r.u64 m
  let (id, r) := r.str m
  let (cbProgram, r) := r.u32 m
  let (cbNetid, r) := r.str m
  let (cbAddr, r) := r.str m
  let (cbIdent, r) := r.u32 m
  let c := { c with r }
  if !r.ok then c.exit .inval
  else exitReply c (c.v.opSetClientid hash pos verifier id cbProgram cbNetid cbAddr cbIdent)

def opSetClientidConfirm : Out4 :=
  let (clientid, r) := c.r.u64 m
  let (confirm, r) := r.u64 m
  exitReply { c with r } (c.v.opSetClientidConfirm pos clientid confirm)

def opRenew : Out4 :=
  let (clientid, r) := c.r.u64 m
  exitReply { c with r } (c.v.opRenew clientid, c.v)

/-- One operation of the COMPOUND, after its number has been written. -/
def runOp (h : Host) : Op4 → Out4
  | .putrootfh => c.opPutrootfh
  | .putpubfh => c.opPutrootfh
  | .putfh => c.opPutfh m
  | .savefh => c.opSavefh
  | .restorefh => c.opRestorefh
  | .getfh => c.opGetfh
  | .lookup => c.opLookup m
  | .lookupp => c.opLookupp
  | .access => c.opAccess m
  | .getattr => c.opGetattr m
  | .readlink => c.opReadlink
  | .read => c.opRead h m
  | .readdir => c.opReaddir m
  | .openFile => c.opOpen isLive pos m
  | .openConfirm => c.opOpenConfirm m
  | .openDowngrade => c.opOpenDowngrade m
  | .close => c.opClose m
  | .lock => c.opLock pos m
  | .lockt => c.opLockt pos m
  | .locku => c.opLocku m
  | .renew => c.opRenew m
  | .setclientid => c.opSetClientid hash pos m
  | .setclientidConfirm => c.opSetClientidConfirm pos m
  | .write => c.opWrite isLive m
  | .setattr => c.opSetattr isLive m
  | .create => c.opCreate isLive m
  | .remove => c.opRemove isLive m
  | .rename => c.opRename isLive m
  | .link => c.opLink isLive m
  | .commit => c.opCommit m
  | .releaseLockowner => c.opReleaseLockowner m

def doOp (h : Host) (op : UInt32) : Out4 :=
  let c := { c with w := c.w.u32 op }
  match Op4.ofCode op with
  | some o => c.runOp live hash pos m h o
  | none => c.exit .notsupp

end State

/-- The operations in turn, until one fails or the message ends: the last status, their
number, and the call after them. The maps may be walked in another order by each. -/
def opsLoop (h : Host) (hash : Bytes → UInt64) (pos : Nat → WalkOrder) (m : Msg) :
    Nat → Nat → Nfsstat4 → Call4 → Nfsstat4 × Nat × Call4
  | 0, done, last, c => (last, done, c)
  | left + 1, done, last, c =>
    if !c.r.ok then (last, done, c)
    else
      let (op, r) := c.r.u32 m
      match { c with r }.doOp hash (pos done) m h op with
      | (.ok, c) => opsLoop h hash pos m left (done + 1) .ok c
      | (st, c) => (st, done + 1, c)

end Call4

/-- The state a server keeps between calls. -/
structure Server4 where
  v : NfsV4 := {}
  fs : PrfsStore
  ckName : OrdMap UInt64 Bytes := .empty

/-- The number of operations of a COMPOUND, its tag, and the reader at the first of them. -/
def readCompound (m : Msg) (r : Reader) : UInt32 × Bytes × Reader :=
  let (tag, r) := r.str m
  let (_, r) := r.u32 m
  let (nops, r) := r.u32 m
  (nops, tag, r)

def NFS_V4 : UInt32 := 4

def compound (h : Host) (hash : Bytes → UInt64) (pos : Nat → WalkOrder) (m : Msg) (s : Server4) (r : Reader) :
    Writer × Server4 :=
  let (nops, tag, r) := readCompound m r
  if !r.ok || 4096 < nops then (((({} : Writer).u32 Nfsstat4.resource.code).str tag).u32 0, s)
  else
    let (last, done, c) :=
      Call4.opsLoop h hash pos m nops.toNat 0 .ok { v := s.v, fs := s.fs, ckName := s.ckName, r }
    let last := if !c.r.ok then .inval else last
    (((((({} : Writer).u32 last.code).str tag).u32 (UInt32.ofNat done)).append c.w.v),
      { v := c.v, fs := c.fs, ckName := c.ckName })

/-- One call: the record-marked reply, with the result of a COMPOUND where it is accepted. -/
def reply (h : Host) (hash : Bytes → UInt64) (pos : Nat → WalkOrder) (m : Msg) (s : Server4) : Bytes × Server4 :=
  let (xid, r) := ({} : Reader).u32 m
  let (_, r) := r.u32 m
  let (_, r) := r.u32 m
  let (prog, r) := r.u32 m
  let (vers, r) := r.u32 m
  let (proc, r) := r.u32 m
  let r := (r.skipAuth m).skipAuth m
  let (astat, body, s) :=
    if prog ≠ PROG_NFS ∨ vers ≠ NFS_V4 then (AcceptStat.progMismatch, ({} : Writer), s)
    else if proc = 0 then (.success, {}, s)
    else if proc = 1 then
      let (w, s) := compound h hash pos m s r
      (.success, w, s)
    else (.procUnavail, {}, s)
  let w : Writer := (((((({} : Writer).u32 xid).u32 RPC_REPLY).u32 MSG_ACCEPTED).u32 0).u32 0).u32 astat.code
  let rep := w.v ++ body.v
  (word (0x80000000 ||| UInt32.ofNat rep.length) ++ rep, s)

end NfsV4

end Prfs
