import Prfs.Host
import Prfs.Nfs4State
import Prfs.XdrReader

namespace Prfs

/-- The attributes that are reported. -/
inductive Fattr4
  | supportedAttrs | type | fhExpireType | change | size | linkSupport | symlinkSupport | namedAttr | fsid
  | uniqueHandles | leaseTime | rdattrError | filehandle | fileid | maxfilesize | maxlink | maxname | maxread
  | maxwrite | mode | noTrunc | numlinks | owner | ownerGroup | spaceUsed | timeAccess | timeMetadata | timeModify
  | mountedOnFileid
  deriving DecidableEq, Repr

def Fattr4.ofBit : Nat → Option Fattr4
  | 0 => some .supportedAttrs
  | 1 => some .type
  | 2 => some .fhExpireType
  | 3 => some .change
  | 4 => some .size
  | 5 => some .linkSupport
  | 6 => some .symlinkSupport
  | 7 => some .namedAttr
  | 8 => some .fsid
  | 9 => some .uniqueHandles
  | 10 => some .leaseTime
  | 11 => some .rdattrError
  | 19 => some .filehandle
  | 20 => some .fileid
  | 27 => some .maxfilesize
  | 28 => some .maxlink
  | 29 => some .maxname
  | 30 => some .maxread
  | 31 => some .maxwrite
  | 33 => some .mode
  | 34 => some .noTrunc
  | 35 => some .numlinks
  | 36 => some .owner
  | 37 => some .ownerGroup
  | 45 => some .spaceUsed
  | 47 => some .timeAccess
  | 52 => some .timeMetadata
  | 53 => some .timeModify
  | 55 => some .mountedOnFileid
  | _ => none

def toNfs4 : Error → Nfsstat4
  | .OK => .ok
  | .NOENT => .noent
  | .EXIST => .exist
  | .NOTDIR => .notdir
  | .ISDIR => .isdir
  | .NOTEMPTY => .notempty
  | .PERM => .perm
  | .INVAL => .inval

namespace NfsV4

def ftype4 : FType → UInt32
  | .REG => 1
  | .DIR => 2
  | .BLK => 3
  | .CHR => 4
  | .LNK => 5
  | .SOCK => 6
  | .FIFO => 7

def attrSupported (bit : Nat) : Bool := (Fattr4.ofBit bit).isSome

/-- One word of a bitmap with the given attribute bits. -/
def maskWord (bits : List Nat) (word : Nat) : UInt32 :=
  bits.foldl (fun acc b => if b / 32 = word then acc ||| (1 <<< UInt32.ofNat (b % 32)) else acc) 0

def supportedBitmap (w : Writer) : Writer :=
  let bits := (List.range 64).filter attrSupported
  ((w.u32 2).u32 (maskWord bits 0)).u32 (maskWord bits 1)

def LEASE_TIME : UInt32 := 90

def MAX_IO : UInt32 := 0x100000

def encodeAttrValue (fs : PrfsStore) (w : Writer) (n : Node) (id snap : UInt64) : Fattr4 → Writer
  | .supportedAttrs => supportedBitmap w
  | .type => w.u32 (ftype4 (fs.attrs n).type)
  | .fhExpireType => w.u32 0
  | .change => w.u64 (fs.attrs n).ctime
  | .size => w.u64 (fs.attrs n).size
  | .linkSupport => w.u32 1
  | .symlinkSupport => w.u32 1
  | .uniqueHandles => w.u32 1
  | .noTrunc => w.u32 1
  | .namedAttr => w.u32 0
  | .fsid => (w.u64 (if snap = LATEST then 0 else snap)).u64 0
  | .leaseTime => w.u32 LEASE_TIME
  | .rdattrError => w.u32 Nfsstat4.ok.code
  | .filehandle => w.fh id snap
  | .fileid => w.u64 (viewFileid id snap)
  | .mountedOnFileid => w.u64 (viewFileid id snap)
  | .maxfilesize => w.u64 0x4000000000000000
  | .maxlink => w.u32 0xFFFF
  | .maxname => w.u32 255
  | .maxread => w.u64 MAX_IO.toUInt64
  | .maxwrite => w.u64 MAX_IO.toUInt64
  | .mode => w.u32 ((fs.attrs n).mode &&& 0xFFF)
  | .numlinks => w.u32 (fs.attrs n).nlink
  | .owner => w.str (toString (fs.attrs n).uid.toUInt64)
  | .ownerGroup => w.str (toString (fs.attrs n).gid.toUInt64)
  | .spaceUsed => w.u64 (fs.attrs n).size
  | .timeAccess => w.time4 (fs.attrs n).atime (fs.attrs n).atimeNsec
  | .timeMetadata => w.time4 (fs.attrs n).ctime 0
  | .timeModify => w.time4 (fs.attrs n).mtime (fs.attrs n).mtimeNsec

/-- A bit of a bitmap, false past its last word. -/
def requested (bm : List UInt32) (b : Nat) : Bool :=
  match bm[b / 32]? with
  | some word => word &&& (1 <<< UInt32.ofNat (b % 32)) ≠ 0
  | none => false

def encodeFattr4 (fs : PrfsStore) (w : Writer) (req : List UInt32) (n : Node) (id snap : UInt64) : Writer :=
  let bits := (List.range 64).filter (fun b => requested req b && attrSupported b)
  let vals := (bits.filterMap Fattr4.ofBit).foldl (fun vw a => encodeAttrValue fs vw n id snap a) {}
  (((w.u32 2).u32 (maskWord bits 0)).u32 (maskWord bits 1)).bytes vals.v

/-- A COMPOUND on its way: the server, the two handles, and the reader and the writer. -/
structure Call4 where
  v : NfsV4
  fs : PrfsStore
  ckName : OrdMap UInt64 Bytes := .empty
  cfh : Option Node := none
  sfh : Option Node := none
  r : Reader := {}
  w : Writer := {}

/-- What an operation returns, and the call after it. -/
abbrev Out4 := Nfsstat4 × Call4

namespace Call4

/-- Write a status and return it. -/
def exit (c : Call4) (st : Nfsstat4) : Out4 := (st, { c with w := c.w.u32 st.code })

/-- The same with a result behind the status. -/
def exitWith (c : Call4) (st : Nfsstat4) (body : Writer → Writer) : Out4 :=
  (st, { c with w := body (c.w.u32 st.code) })

def cur (c : Call4) : Option Node := c.cfh.bind (fun n => c.fs.nodeById n.id n.snap)

/-- The current handle passes the test that write handles go through. -/
def liveCfh (c : Call4) (isLive : UInt64 → Bool) : Bool := c.cfh.any (fun n => isLive n.snap)

end Call4

def zeros8 (w : Writer) : Writer := w.append (List.replicate 8 0)

def changeInfo (w : Writer) (before after : UInt64) : Writer := ((w.u32 1).u64 before).u64 after

def writeStateid (w : Writer) (s : Stateid) : Writer := ((w.u32 s.seqid).u64 s.id).u32 s.tag

def readStateid (m : Msg) (r : Reader) : Stateid × Reader :=
  let (seqid, r) := r.u32 m
  let (id, r) := r.u64 m
  let (tag, r) := r.u32 m
  (⟨seqid, id, tag⟩, r)

def writeDenied (w : Writer) (rg : LockRange) (clientid : UInt64) (owner : Bytes) : Writer :=
  ((((w.u64 rg.off).u64 rg.len).u32 rg.type).u64 clientid).str owner

end NfsV4

end Prfs
