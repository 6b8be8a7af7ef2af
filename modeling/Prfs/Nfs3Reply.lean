import Prfs.Host
import Prfs.XdrReader

namespace Prfs

inductive Nfsstat3
  | ok | perm | noent | exist | notdir | isdir | inval | fbig | rofs | notempty | stale | badCookie | badtype
  deriving DecidableEq, Repr

def Nfsstat3.code : Nfsstat3 → UInt32
  | .ok => 0
  | .perm => 1
  | .noent => 2
  | .exist => 17
  | .notdir => 20
  | .isdir => 21
  | .inval => 22
  | .fbig => 27
  | .rofs => 30
  | .notempty => 66
  | .stale => 70
  | .badCookie => 10003
  | .badtype => 10007

def toNfsStat : Error → Nfsstat3
  | .OK => .ok
  | .NOENT => .noent
  | .EXIST => .exist
  | .NOTDIR => .notdir
  | .ISDIR => .isdir
  | .NOTEMPTY => .notempty
  | .PERM => .perm
  | .INVAL => .inval

/-- The service of version 3: the store it serves and its cache of directory cookies. -/
structure NfsV3 where
  fs : PrfsStore
  ckName : OrdMap UInt64 Bytes := .empty

namespace NfsV3

/-- A display id for a node seen through a snapshot; the live view keeps the raw id. -/
def viewFileid (id snap : UInt64) : UInt64 :=
  if snap = LATEST then id
  else
    let h := id ^^^ (snap * 0x9E3779B97F4A7C15)
    let h := (h ^^^ (h >>> 30)) * 0xbf58476d1ce4e5b9
    let h := (h ^^^ (h >>> 27)) * 0x94d049bb133111eb
    (h ^^^ (h >>> 31)) ||| 1

def ftype3 : FType → UInt32
  | .REG => 1
  | .DIR => 2
  | .LNK => 5
  | .BLK => 3
  | .CHR => 4
  | .FIFO => 7
  | .SOCK => 6

def encodeFattr (h : Host) (fs : PrfsStore) (w : Writer) (n : Node) : Writer :=
  let a := fs.attrs n
  let (maj, min) := if a.type = .BLK ∨ a.type = .CHR then a.rdev else (0, 0)
  let w := ((((w.u32 (ftype3 a.type)).u32 a.mode).u32 a.nlink).u32 a.uid).u32 a.gid
  let w := (((w.u64 a.size).u64 (h.usedBytes fs n)).u32 maj).u32 min
  let w := (w.u64 (if n.snap = LATEST then 0 else n.snap)).u64 (viewFileid n.id n.snap)
  ((w.timeNs a.atime a.atimeNsec).timeNs a.mtime a.mtimeNsec).time a.ctime

def encodePostOp (h : Host) (fs : PrfsStore) (w : Writer) : Option Node → Writer
  | some n => encodeFattr h fs (w.u32 1) n
  | none => w.u32 0

/-- What a mutation reports of a node as it was before. -/
structure PreAttr where
  size : UInt64
  mtime : UInt64
  ctime : UInt64
  deriving DecidableEq, Repr

def preOf (fs : PrfsStore) (n : Option Node) : Option PreAttr :=
  n.map (fun n =>
    let a := fs.attrs n
    ⟨a.size, a.mtime, a.ctime⟩)

def encodePre (w : Writer) : Option PreAttr → Writer
  | some p => (((w.u32 1).u64 p.size).time p.mtime).time p.ctime
  | none => w.u32 0

def encodeWcc (h : Host) (fs : PrfsStore) (w : Writer) (before : Option PreAttr) (after : Option Node) : Writer :=
  encodePostOp h fs (encodePre w before) after

/-- The new owner of a node that a caller with an identity has made. -/
def applyCred (cred : Cred) (fs : PrfsStore) (n : Node) : PrfsStore :=
  if cred.sys then (fs.setAttr n (.uid cred.uid)).setAttr n (.gid cred.gid) else fs

/-- What a procedure hands back: the accept status, its result, and the service after it. -/
abbrev Out := AcceptStat × Writer × NfsV3

/-- A result that starts with a status and changes nothing. -/
def answer (v : NfsV3) (w : Writer) : Out := (.success, w, v)

/-- Arguments that do not decode. -/
def garbage (v : NfsV3) (w : Writer) : Out := (.garbageArgs, w, v)

end NfsV3

end Prfs
