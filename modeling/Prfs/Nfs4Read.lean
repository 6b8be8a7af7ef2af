import Prfs.DirCookies
import Prfs.Nfs4Reply

namespace Prfs

namespace NfsV4

/-- The status a stateid is refused with where READ or WRITE asks it for access. -/
def refuses (v : NfsV4) (sid : Stateid) (fileId : UInt64) (bit : UInt32) : Option Nfsstat4 :=
  match v.checkStateid sid fileId with
  | .error e => some e
  | .ok access => if access &&& bit = 0 then some .openmode else none

namespace Call4

section Handles

variable (c : Call4)

def opPutrootfh : Out4 := { c with cfh := some ⟨c.fs.rwRoot.id, LATEST⟩ }.exit .ok

def opPutfh (m : Msg) : Out4 :=
  match c.r.fh4 m with
  | (none, r) => { c with r }.exit .badhandle
  | (some (id, snap), r) => { c with r, cfh := some ⟨id, snap⟩ }.exit .ok

def opSavefh : Out4 :=
  match c.cfh with
  | none => c.exit .nofilehandle
  | some n => { c with sfh := some n }.exit .ok

def opRestorefh : Out4 :=
  match c.sfh with
  | none => c.exit .nofilehandle
  | some n => { c with cfh := some n }.exit .ok

def opGetfh : Out4 :=
  match c.cfh with
  | none => c.exit .nofilehandle
  | some n => c.exitWith .ok (fun w => w.fh n.id n.snap)

/-- LOOKUP of a name and LOOKUPP of the parent, once the target is found. -/
def enter (c : Call4) (child : Option Node) : Out4 :=
  match child with
  | none => c.exit .noent
  | some n => { c with cfh := some n }.exit .ok

/-- `step` finds the target in a directory. -/
def lookupIn (step : Node → Option Node) : Out4 :=
  match c.cur with
  | none => c.exit .nofilehandle
  | some dir => if (c.fs.attrs dir).type ≠ .DIR then c.exit .notdir else enter c (step dir)

def opLookup (m : Msg) : Out4 :=
  let (name, r) := c.r.str m
  lookupIn { c with r } (fun dir => c.fs.lookup dir name)

def opLookupp : Out4 := lookupIn c (fun dir => some (firstParent c.fs dir))

def opAccess (m : Msg) : Out4 :=
  let (want, r) := c.r.u32 m
  let c := { c with r }
  match c.cur with
  | none => c.exit .nofilehandle
  | some _ => c.exitWith .ok (fun w => (w.u32 want).u32 want)

def opGetattr (m : Msg) : Out4 :=
  let (req, r) := c.r.bitmap m
  let c := { c with r }
  match c.cur with
  | none => c.exit .nofilehandle
  | some n => c.exitWith .ok (fun w => encodeFattr4 c.fs w req n n.id n.snap)

def opReadlink : Out4 :=
  match c.cur with
  | none => c.exit .nofilehandle
  | some n =>
    if (c.fs.attrs n).type ≠ .LNK then c.exit .inval
    else c.exitWith .ok (fun w => w.str (c.fs.attrs n).target)

def opRead (h : Host) (m : Msg) : Out4 :=
  let (sid, r) := readStateid m c.r
  let (off, r) := r.u64 m
  let (cnt, r) := r.u32 m
  let c := { c with r }
  match c.cur with
  | none => c.exit .nofilehandle
  | some n =>
    if (c.fs.attrs n).type = .DIR then c.exit .isdir
    else
      match refuses c.v sid n.id ACCESS_READ with
      | some st => c.exit st
      | none =>
        let cnt := if MAX_IO < cnt then MAX_IO else cnt
        let buf := h.read c.fs n off cnt.toNat
        let eof := (c.fs.attrs n).size ≤ off + UInt64.ofNat buf.length
        c.exitWith .ok (fun w => (w.u32 (if eof then 1 else 0)).bytes buf)

/-- The write verifier; nothing is buffered. -/
def opCommit (m : Msg) : Out4 :=
  let (_, r) := c.r.u64 m
  let (_, r) := r.u32 m
  { c with r }.exitWith .ok zeros8

end Handles

end Call4

/-- The bytes an entry is counted with and the reply so far, with the cache. -/
structure Listing where
  budget : Nat := 96
  w : Writer
  ckName : OrdMap UInt64 Bytes

def encodeEntry (fs : PrfsStore) (req : List UInt32) (name : Bytes) (node : Node) : Bytes :=
  (encodeFattr4 fs ((({} : Writer).u64 (nameCookie name)).str name) req node node.id node.snap).v

/-- Entries of a store page until one does not fit; true when all did. -/
def listEntries (fs : PrfsStore) (req : List UInt32) (mx : Nat) : List (Bytes × Node) → Listing → Bool × Listing
  | [], l => (true, l)
  | (name, node) :: es, l =>
    let one := encodeEntry fs req name node
    if mx < l.budget + one.length + 8 then (false, l)
    else
      listEntries fs req mx es
        { budget := l.budget + (one.length + 4), w := (l.w.u32 1).append one
          ckName := rememberCookie l.ckName (nameCookie name) name }

/-- The end flag and the reply from the store's cursor on. -/
def listPages (fs : PrfsStore) (dir : Node) (req : List UInt32) (mx : Nat) : Nat → Bytes → Listing → Bool × Listing
  | 0, _, l => (false, l)
  | fuel + 1, after, l =>
    let pg := fs.readdirPage dir after 512
    match listEntries fs req mx pg.entries l with
    | (false, l) => (false, l)
    | (true, l) =>
      if pg.entries.isEmpty || pg.eof then (true, l) else listPages fs dir req mx fuel pg.cookie l

namespace Call4

/-- The listing after a name, behind an OK status. -/
def listFrom (c : Call4) (dir : Node) (req : List UInt32) (mx : Nat) (after : Bytes) : Out4 :=
  let (eof, l) := listPages c.fs dir req mx (pageFuel c.fs dir) after
    { w := zeros8 (c.w.u32 Nfsstat4.ok.code), ckName := c.ckName }
  (.ok, { c with w := (l.w.u32 0).u32 (if eof then 1 else 0), ckName := l.ckName })

def opReaddir (c : Call4) (m : Msg) : Out4 :=
  let (cookie, r) := c.r.u64 m
  let r := r.skip m 8
  let (_, r) := r.u32 m
  let (mx, r) := r.u32 m
  let (req, r) := r.bitmap m
  let c := { c with r }
  match c.cur with
  | none => c.exit .nofilehandle
  | some dir =>
    if (c.fs.attrs dir).type ≠ .DIR then c.exit .notdir
    else if cookie = 0 then listFrom c dir req mx.toNat []
    else
      match resumeName c.ckName c.fs dir cookie with
      | none => c.exit .badCookie
      | some after => listFrom c dir req mx.toNat after

end Call4

end NfsV4

end Prfs
