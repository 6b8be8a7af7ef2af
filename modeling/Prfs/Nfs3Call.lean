import Prfs.Nfs3Write

namespace Prfs

def PROG_MOUNT : UInt32 := 100005

def NFS_V3 : UInt32 := 3

def MOUNT_V3 : UInt32 := 3

/-- The procedures of the NFS program. -/
inductive Proc3
  | null | getattr | setattr | lookup | access | readlink | read | write | create | mkdir | symlink | mknod
  | remove | rmdir | rename | link | readdir | readdirplus | fsstat | fsinfo | pathconf | commit
  deriving DecidableEq, Repr

def Proc3.ofCode (proc : UInt32) : Option Proc3 :=
  match proc.toNat with
  | 0 => some .null
  | 1 => some .getattr
  | 2 => some .setattr
  | 3 => some .lookup
  | 4 => some .access
  | 5 => some .readlink
  | 6 => some .read
  | 7 => some .write
  | 8 => some .create
  | 9 => some .mkdir
  | 10 => some .symlink
  | 11 => some .mknod
  | 12 => some .remove
  | 13 => some .rmdir
  | 14 => some .rename
  | 15 => some .link
  | 16 => some .readdir
  | 17 => some .readdirplus
  | 18 => some .fsstat
  | 19 => some .fsinfo
  | 20 => some .pathconf
  | 21 => some .commit
  | _ => none

def Proc3.isMutating : Proc3 → Bool
  | .setattr | .write | .create | .mkdir | .symlink | .mknod | .remove | .rmdir | .rename | .link => true
  | _ => false

namespace NfsV3

section Dispatch

variable (h : Host) (v : NfsV3) (m : Msg) (r : Reader)

/-- `isLive` is the test that write handles go through. -/
def runProc (isLive : UInt64 → Bool) (w : Writer) (cred : Cred) : Proc3 → Out
  | .null => answer v w
  | .getattr => nfsGetattr h v m r w
  | .setattr => nfsSetattr isLive h v m r w
  | .readlink => nfsReadlink h v m r w
  | .lookup => nfsLookup h v m r w
  | .access => nfsAccess h v m r w
  | .read => nfsRead h v m r w
  | .write => nfsWrite isLive h v m r w
  | .create => nfsCreate isLive h v m r w cred
  | .mkdir => nfsMkdir isLive h v m r w cred
  | .symlink => nfsSymlink isLive h v m r w cred
  | .mknod => nfsMknod isLive h v m r w cred
  | .remove => nfsRemove isLive h v m r w
  | .rmdir => nfsRmdir isLive h v m r w
  | .rename => nfsRename isLive h v m r w
  | .link => nfsLink isLive h v m r w
  | .commit => nfsCommit h v m r w
  | .readdir => nfsReaddir h v m r w
  | .readdirplus => nfsReaddirPlus h v m r w
  | .fsstat => nfsFsstat h v m r w
  | .fsinfo => nfsFsinfo h v m r w
  | .pathconf => nfsPathconf h v m r w

def nfsCall (w : Writer) (proc : UInt32) (cred : Cred) : Out :=
  match Proc3.ofCode proc with
  | some p => runProc h v m r live w cred p
  | none => (.procUnavail, w, v)

def mountCall (w : Writer) (proc : UInt32) : Out :=
  match proc.toNat with
  | 0 => answer v w
  | 1 => mountMnt v m r w
  | 3 => mountUmnt v m r w
  | 5 => mountExport v w
  | _ => (.procUnavail, w, v)

/-- The call of a program's procedure, without the locks and the clock. -/
def run (prog vers proc : UInt32) (cred : Cred) : Out :=
  if prog = PROG_NFS then
    if vers = NFS_V3 then nfsCall h v m r {} proc cred else (.progMismatch, {}, v)
  else if prog = PROG_MOUNT then
    if vers = MOUNT_V3 then mountCall v m r {} proc else (.progMismatch, {}, v)
  else (.progUnavail, {}, v)

/-- A mutation advances the logical clock, where the option asks for it. -/
def dispatch (prog vers proc : UInt32) (cred : Cred) : Out :=
  let (st, w, v) := run h v m r prog vers proc cred
  if prog = PROG_NFS ∧ (Proc3.ofCode proc).any Proc3.isMutating = true ∧ h.advance = true then
    (st, w, { v with fs := v.fs.setTime (v.fs.now + 1) })
  else (st, w, v)

/-- The record-marked accepted reply. -/
def reply (xid prog vers proc : UInt32) (cred : Cred) : Bytes × NfsV3 :=
  let (astat, result, v) := dispatch h v m r prog vers proc cred
  let w : Writer := (((((({} : Writer).u32 xid).u32 RPC_REPLY).u32 MSG_ACCEPTED).u32 0).u32 0).u32 astat.code
  let w := if astat = .progMismatch then (w.u32 NFS_V3).u32 NFS_V3 else w
  let rep := w.v ++ result.v
  ((({} : Writer).u32 (0x80000000 ||| UInt32.ofNat rep.length)).v ++ rep, v)

/-- The header of a call: its numbers and credential, and the reader at the arguments. -/
structure Header where
  xid : UInt32
  prog : UInt32
  vers : UInt32
  proc : UInt32
  cred : Cred
  args : Reader
  deriving DecidableEq, Repr

/-- None where the record is not a call. -/
def readHeader : Option Header :=
  let (xid, r) := r.u32 m
  let (type, r) := r.u32 m
  if type ≠ RPC_CALL then none
  else
    let (_, r) := r.u32 m
    let (prog, r) := r.u32 m
    let (vers, r) := r.u32 m
    let (proc, r) := r.u32 m
    let (cred, r) := r.readCred m
    some ⟨xid, prog, vers, proc, cred, r.skipAuth m⟩

/-- One record of a session: the frame it is answered with, or none where the session ends. -/
def session : Option (Bytes × NfsV3) :=
  if m.buf.length < 24 ∨ 0x100000 < m.buf.length then none
  else (readHeader m {}).map (fun c => reply h v m c.args c.xid c.prog c.vers c.proc c.cred)

end Dispatch

end NfsV3

end Prfs
