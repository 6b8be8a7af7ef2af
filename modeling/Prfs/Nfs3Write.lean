import Prfs.Nfs3Read

namespace Prfs

namespace NfsV3

/-- A setter of a handle that may be missing. -/
def setOn (fs : PrfsStore) (n : Option Node) (a : Setter) : PrfsStore :=
  match n with
  | some n => fs.setAttr n a
  | none => fs

section Sattr

variable (m : Msg) (r : Reader) (n : Option Node) (fs : PrfsStore)

/-- An optional word of an `sattr3`, set as soon as it is read. -/
def sattrWord (field : UInt32 → Setter) : Reader × PrfsStore :=
  let (set, r) := r.u32 m
  if set ≠ 0 then
    let (x, r) := r.u32 m
    (r, setOn fs n (field x))
  else (r, fs)

def sattrSize : Reader × PrfsStore :=
  let (set, r) := r.u32 m
  if set ≠ 0 then
    let (x, r) := r.u64 m
    (r, setOn fs n (.size x))
  else (r, fs)

def SET_TO_SERVER_TIME : UInt32 := 1

def SET_TO_CLIENT_TIME : UInt32 := 2

def sattrTime (time : UInt64 → Setter) (nsec : UInt32 → Setter) : Reader × PrfsStore :=
  let (how, r) := r.u32 m
  if how = SET_TO_SERVER_TIME then (r, setOn fs n (time fs.now))
  else if how = SET_TO_CLIENT_TIME then
    let (sec, r) := r.u32 m
    let (ns, r) := r.u32 m
    (r, setOn (setOn fs n (time sec.toUInt64)) n (nsec ns))
  else (r, fs)

/-- Read an `sattr3` and apply its fields to `n` one by one; without `n` it is only consumed. -/
def applySattr : Reader × PrfsStore :=
  let (r, fs) := sattrWord m r n fs .mode
  let (r, fs) := sattrWord m r n fs .uid
  let (r, fs) := sattrWord m r n fs .gid
  let (r, fs) := sattrSize m r n fs
  let (r, fs) := sattrTime m r n fs .atime .atimeNsec
  sattrTime m r n fs .mtime .mtimeNsec

end Sattr

def encodeNewObject (h : Host) (fs : PrfsStore) (w : Writer) (child : Node) (dirPre : Option PreAttr) (dir : Node) :
    Writer :=
  encodeWcc h fs (encodePostOp h fs ((w.u32 1).fh child.id LATEST) (some child)) dirPre (some dir)

section Files

variable (isLive : UInt64 → Bool) (h : Host) (v : NfsV3) (m : Msg) (r : Reader) (w : Writer)

def nfsSetattr : Out :=
  match r.fh3 m with
  | (none, _) => garbage v w
  | (some (id, snap), r) =>
    match v.fs.nodeById id snap with
    | none => answer v (encodeWcc h v.fs (w.u32 Nfsstat3.stale.code) none none)
    | some n =>
      let pre := preOf v.fs (some n)
      if !isLive snap then answer v (encodeWcc h v.fs (w.u32 Nfsstat3.rofs.code) pre (some n))
      else
        -- The guard's time is read and not looked at; nor is the reader's flag.
        let (_, fs) := applySattr m r (some n) v.fs
        let fs := fs.setAttr n (.ctime fs.now)
        answer { v with fs } (encodeWcc h fs (w.u32 Nfsstat3.ok.code) pre (some n))

def WRITE_FILE_SYNC : UInt32 := 2

def nfsWrite : Out :=
  match r.fh3 m with
  | (none, _) => garbage v w
  | (some (id, snap), r) =>
    let (off, r) := r.u64 m
    let (_, r) := r.u32 m
    let (_, r) := r.u32 m
    let (data, r) := r.str m
    if !r.ok then garbage v w
    else
      match v.fs.nodeById id snap with
      | none => answer v (encodeWcc h v.fs (w.u32 Nfsstat3.stale.code) none none)
      | some n =>
        let pre := preOf v.fs (some n)
        if (v.fs.attrs n).type ≠ .REG then answer v (encodeWcc h v.fs (w.u32 Nfsstat3.inval.code) pre (some n))
        else if !isLive snap then answer v (encodeWcc h v.fs (w.u32 Nfsstat3.rofs.code) pre (some n))
        else
          let fs := writeData v.fs n off data
          let w := encodeWcc h fs (w.u32 Nfsstat3.ok.code) pre (some n)
          answer { v with fs } ((((w.u32 (UInt32.ofNat data.length)).u32 WRITE_FILE_SYNC).u32 0).u32 0)

/-- What `diropParent` returns other than `NFS3_OK`; no caller looks at which it is. -/
inductive DiropError
  | garbageArgs
  | status (st : Nfsstat3)
  deriving DecidableEq, Repr

/-- The directory and name of a `diropargs3`, with the directory's state before the call; or
the failing result, written out. -/
def diropParent : Except DiropError (Node × Option PreAttr × Bytes) × Reader × Writer :=
  match r.fh3 m with
  | (none, r) => (.error .garbageArgs, r, w)
  | (some (id, snap), r) =>
    let (name, r) := r.str m
    if !r.ok then (.error .garbageArgs, r, w)
    else
      match v.fs.nodeById id snap with
      | none => (.error (.status .stale), r, encodeWcc h v.fs (w.u32 Nfsstat3.stale.code) none none)
      | some dir =>
        let pre := preOf v.fs (some dir)
        if (v.fs.attrs dir).type ≠ .DIR then
          (.error (.status .notdir), r, encodeWcc h v.fs (w.u32 Nfsstat3.notdir.code) pre (some dir))
        else if !isLive snap then
          (.error (.status .rofs), r, encodeWcc h v.fs (w.u32 Nfsstat3.rofs.code) pre (some dir))
        else (.ok (dir, pre, name), r, w)

/-- Link a new child and encode the result. -/
def finishCreate (fs : PrfsStore) (dir : Node) (pre : Option PreAttr) (name : Bytes) (child : Node) : Out :=
  match fs.link dir name child with
  | (.OK, fs) =>
    let fs := touchDir fs dir
    answer { v with fs } (encodeNewObject h fs (w.u32 Nfsstat3.ok.code) child pre dir)
  | (e, fs) => answer { v with fs } (encodeWcc h fs (w.u32 (toNfsStat e).code) pre (some dir))

def CREATE_GUARDED : UInt32 := 1

def CREATE_EXCLUSIVE : UInt32 := 2

/-- The verifier of an exclusive create, or the attributes of the others, applied as they are read. -/
def createHow (mode : UInt32) (n : Option Node) (fs : PrfsStore) : Reader × PrfsStore :=
  if mode = CREATE_EXCLUSIVE then (r.skip m 8, fs) else applySattr m r n fs

def nfsCreate (cred : Cred) : Out :=
  match diropParent isLive h v m r w with
  | (.error _, _, w) => answer v w
  | (.ok (dir, pre, name), r, w) =>
    let (mode, r) := r.u32 m
    if !r.ok then garbage v w
    else
      match v.fs.lookup dir name with
      | some existing =>
        if mode = CREATE_GUARDED then answer v (encodeWcc h v.fs (w.u32 Nfsstat3.exist.code) pre (some dir))
        else
          let (_, fs) := createHow m r mode (some existing) v.fs
          answer { v with fs } (encodeNewObject h fs (w.u32 Nfsstat3.ok.code) existing pre dir)
      | none =>
        let (child, fs) := v.fs.mkfile []
        let fs := applyCred cred fs child
        let (_, fs) := createHow m r mode (some child) fs
        finishCreate h v w fs dir pre name child

def nfsMkdir (cred : Cred) : Out :=
  match diropParent isLive h v m r w with
  | (.error _, _, w) => answer v w
  | (.ok (dir, pre, name), r, w) =>
    let (child, fs) := v.fs.mkdir
    let fs := applyCred cred fs child
    let (_, fs) := applySattr m r (some child) fs
    finishCreate h v w fs dir pre name child

def nfsSymlink (cred : Cred) : Out :=
  match diropParent isLive h v m r w with
  | (.error _, _, w) => answer v w
  | (.ok (dir, pre, name), r, w) =>
    let (child, fs) := v.fs.symlink []
    let fs := applyCred cred fs child
    let (r, fs) := applySattr m r (some child) fs
    let (target, r) := r.str m
    if !r.ok then garbage { v with fs } w
    else finishCreate h v w (fs.setTarget child target).2 dir pre name child

def NF3BLK : UInt32 := 3

def NF3CHR : UInt32 := 4

def NF3SOCK : UInt32 := 6

def NF3FIFO : UInt32 := 7

def nfsMknod (cred : Cred) : Out :=
  match diropParent isLive h v m r w with
  | (.error _, _, w) => answer v w
  | (.ok (dir, pre, name), r, w) =>
    let (type, r) := r.u32 m
    if type = NF3BLK ∨ type = NF3CHR then
      let (child, fs) := v.fs.mknod (if type = NF3BLK then .BLK else .CHR) 0 0
      let fs := applyCred cred fs child
      let (r, fs) := applySattr m r (some child) fs
      let (maj, r) := r.u32 m
      let (min, _) := r.u32 m
      finishCreate h v w (fs.setRdev child maj min).2 dir pre name child
    else if type = NF3FIFO then
      let (child, fs) := v.fs.mkfifo
      let fs := applyCred cred fs child
      let (_, fs) := applySattr m r (some child) fs
      finishCreate h v w fs dir pre name child
    else if type = NF3SOCK then
      let (child, fs) := v.fs.mksock
      let fs := applyCred cred fs child
      let (_, fs) := applySattr m r (some child) fs
      finishCreate h v w fs dir pre name child
    else answer v (encodeWcc h v.fs (w.u32 Nfsstat3.badtype.code) pre (some dir))

/-- The names of a directory have changed, if the status says so. -/
def touched (e : Error) (fs : PrfsStore) (dir : Node) : PrfsStore :=
  if e = .OK then touchDir fs dir else fs

def nfsRemove : Out :=
  match diropParent isLive h v m r w with
  | (.error _, _, w) => answer v w
  | (.ok (dir, pre, name), _, w) =>
    let (e, fs) := v.fs.unlink dir name
    let fs := touched e fs dir
    answer { v with fs } (encodeWcc h fs (w.u32 (toNfsStat e).code) pre (some dir))

def nfsRmdir : Out :=
  match diropParent isLive h v m r w with
  | (.error _, _, w) => answer v w
  | (.ok (dir, pre, name), _, w) =>
    match v.fs.lookup dir name with
    | none => answer v (encodeWcc h v.fs (w.u32 Nfsstat3.noent.code) pre (some dir))
    | some child =>
      if (v.fs.attrs child).type ≠ .DIR then
        answer v (encodeWcc h v.fs (w.u32 Nfsstat3.notdir.code) pre (some dir))
      else if !(v.fs.readdir child).isEmpty then
        answer v (encodeWcc h v.fs (w.u32 Nfsstat3.notempty.code) pre (some dir))
      else
        let (e, fs) := v.fs.unlink dir name
        let fs := touched e fs dir
        answer { v with fs } (encodeWcc h fs (w.u32 (toNfsStat e).code) pre (some dir))

def nfsRename : Out :=
  match r.fh3 m with
  | (none, _) => garbage v w
  | (some (fid, fsnap), r) =>
    let (fromName, r) := r.str m
    match r.fh3 m with
    | (none, _) => garbage v w
    | (some (tid, tsnap), r) =>
      let (toName, r) := r.str m
      if !r.ok then garbage v w
      else
        let fromDir := v.fs.nodeById fid fsnap
        let toDir := v.fs.nodeById tid tsnap
        let fpre := preOf v.fs fromDir
        let tpre := preOf v.fs toDir
        match fromDir, toDir with
        | some fd, some td =>
          let (st, fs) :=
            if isLive fsnap && isLive tsnap then
              let (e, fs) := v.fs.move fd fromName td toName
              (toNfsStat e, touched e (touched e fs fd) td)
            else (.rofs, v.fs)
          answer { v with fs }
            (encodeWcc h fs (encodeWcc h fs (w.u32 st.code) fpre fromDir) tpre toDir)
        | _, _ =>
          answer v (encodeWcc h v.fs (encodeWcc h v.fs (w.u32 Nfsstat3.stale.code) fpre fromDir) tpre toDir)

/-- Only the directory's handle is asked to be live. -/
def nfsLink : Out :=
  match r.fh3 m with
  | (none, _) => garbage v w
  | (some (fid, fsnap), r) =>
    match r.fh3 m with
    | (none, _) => garbage v w
    | (some (did, dsnap), r) =>
      let (name, r) := r.str m
      if !r.ok then garbage v w
      else
        let file := v.fs.nodeById fid fsnap
        let dir := v.fs.nodeById did dsnap
        let pre := preOf v.fs dir
        match file, dir with
        | some f, some d =>
          let (st, fs) :=
            if isLive dsnap then
              let (e, fs) := v.fs.link d name f
              (toNfsStat e, touched e fs d)
            else (.rofs, v.fs)
          answer { v with fs } (encodeWcc h fs (encodePostOp h fs (w.u32 st.code) file) pre dir)
        | _, _ => answer v (encodeWcc h v.fs (encodePostOp h v.fs (w.u32 Nfsstat3.stale.code) file) pre dir)

end Files

end NfsV3

end Prfs
