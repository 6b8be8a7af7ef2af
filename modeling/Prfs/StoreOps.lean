import Prfs.Store

namespace Prfs

/-- One attribute setter of a handle with the value it is given. -/
inductive Setter
  | mode (x : UInt32)
  | uid (x : UInt32)
  | gid (x : UInt32)
  | size (x : UInt64)
  | atime (x : UInt64)
  | mtime (x : UInt64)
  | ctime (x : UInt64)
  | atimeNsec (x : UInt32)
  | mtimeNsec (x : UInt32)
  deriving DecidableEq, Repr

/-- A whole-second time setter clears the nanoseconds. -/
def Setter.apply (r : NodeRec) : Setter → NodeRec
  | .mode x => { r with mode := x }
  | .uid x => { r with uid := x }
  | .gid x => { r with gid := x }
  | .size x => { r with size := x }
  | .atime x => { r with atime := x, atimeNs := 0 }
  | .mtime x => { r with mtime := x, mtimeNs := 0 }
  | .ctime x => { r with ctime := x }
  | .atimeNsec x => { r with atimeNs := x }
  | .mtimeNsec x => { r with mtimeNs := x }

def devSpec (maj min : UInt32) : UInt64 := (maj.toUInt64 <<< 32) ||| min.toUInt64

namespace PrfsStore

/-- The constructor over the contents of an engine: initialise or reload. -/
def mk' (kv : Data) : PrfsStore :=
  match getMeta kv metaRoot with
  | none =>
    let r : NodeRec := { type := FType.DIR.code, mode := 0o755, nlink := 1, dnLinkVer := 1, upLinkVer := 1 }
    let kv := storeNode kv 1 1 r
    let kv := putMeta kv metaRoot 1
    let kv := putMeta kv metaNextNode 2
    let kv := putMeta kv metaCurSnap 1
    let kv := putMeta kv metaClock 0
    { kv, next := 2, cur := 1, root := 1, clock := 0 }
  | some root =>
    { kv, root
      next := (getMeta kv metaNextNode).getD 1
      cur := (getMeta kv metaCurSnap).getD 1
      clock := (getMeta kv metaClock).getD 0 }

def empty : PrfsStore := mk' {}

def rwRoot (s : PrfsStore) : Node := ⟨s.root, LATEST⟩

def alloc (s : PrfsStore) (type : FType) (blob : Bytes) (spec : UInt64) : Node × PrfsStore :=
  let id := s.next
  let kv := putMeta s.kv metaNextNode (s.next + 1)
  let r : NodeRec :=
    { type := type.code, mode := defaultMode type, spec, blob, dnLinkVer := s.cur,
      upLinkVer := s.cur, atime := s.clock, mtime := s.clock, ctime := s.clock }
  (⟨id, LATEST⟩, { s with kv := storeNode kv id s.cur r, next := s.next + 1 })

def link (s : PrfsStore) (dir : Node) (name : Bytes) (child : Node) : Error × PrfsStore :=
  let (e, kv) := linkT s.cur s.kv dir.id name child.id
  (e, { s with kv })

def unlink (s : PrfsStore) (dir : Node) (name : Bytes) : Error × PrfsStore :=
  let (e, kv) := unlinkT s.cur s.kv dir.id name
  (e, { s with kv })

def move (s : PrfsStore) (sdir : Node) (sn : Bytes) (ddir : Node) (dn : Bytes) : Error × PrfsStore :=
  match loadNode s.kv sdir.id s.cur with
  | none => (.NOENT, s)
  | some sr =>
    match s.kv.downLinks.get (be sdir.id ++ be sr.dnLinkVer ++ sn) with
    | none => (.NOENT, s)
    | some child =>
      match linkT s.cur s.kv ddir.id dn (rdbe child) with
      | (.OK, kv) =>
        let (e, kv) := unlinkT s.cur kv sdir.id sn
        (e, { s with kv })
      | (e, kv) => (e, { s with kv })

/-- A type-guarded rewrite of the live record; `setBlob`, `setRdev` and
`setContentSeed` have this shape. -/
def guardedSet (s : PrfsStore) (id : UInt64) (want : UInt32 → Bool) (f : NodeRec → NodeRec) :
    Error × PrfsStore :=
  match loadNode s.kv id s.cur with
  | none => (.NOENT, s)
  | some r =>
    if want r.type then (.OK, { s with kv := storeNode s.kv id s.cur (f r) }) else (.INVAL, s)

def setBlob (s : PrfsStore) (n : Node) (want : FType) (blob : Bytes) : Error × PrfsStore :=
  s.guardedSet n.id (fun t => t == want.code) (fun r => { r with blob })

def setContent (s : PrfsStore) (reg : Node) (c : Bytes) : Error × PrfsStore := s.setBlob reg .REG c

def setTarget (s : PrfsStore) (lnk : Node) (t : Bytes) : Error × PrfsStore := s.setBlob lnk .LNK t

def setRdev (s : PrfsStore) (dev : Node) (maj min : UInt32) : Error × PrfsStore :=
  s.guardedSet dev.id (fun t => t == FType.BLK.code || t == FType.CHR.code)
    (fun r => { r with spec := devSpec maj min })

def setContentSeed (s : PrfsStore) (reg : Node) (seed : UInt64) : Error × PrfsStore :=
  s.guardedSet reg.id (fun t => t == FType.REG.code) (fun r => { r with spec := seed })

/-- Attribute setters rewrite the live record whatever view the handle has. -/
def mutateNode (s : PrfsStore) (id : UInt64) (f : NodeRec → NodeRec) : PrfsStore :=
  match loadNode s.kv id s.cur with
  | none => s
  | some r => { s with kv := storeNode s.kv id s.cur (f r) }

def setAttr (s : PrfsStore) (n : Node) (a : Setter) : PrfsStore :=
  s.mutateNode n.id (fun r => a.apply r)

def setTime (s : PrfsStore) (t : UInt64) : PrfsStore :=
  { s with clock := t, kv := putMeta s.kv metaClock t }

def setContentConfig (s : PrfsStore) (blob : Bytes) : PrfsStore :=
  { s with kv := { s.kv with metaKv := s.kv.metaKv.put metaContentConfig blob } }

def snapshot (s : PrfsStore) (label : Bytes) : SnapId × PrfsStore :=
  let v := s.cur
  let kv := putMeta s.kv metaCurSnap (v + 1)
  (v, { s with cur := v + 1, kv := { kv with snaps := kv.snaps.put (be v) (be s.clock ++ label) } })

end PrfsStore

/-- The public operations that can change a store. -/
inductive Op
  | mkdir
  | mkfile (content : Bytes)
  | symlink (target : Bytes)
  | mkfifo
  | mksock
  | mknod (t : FType) (maj min : UInt32)
  | link (dir : Node) (name : Bytes) (child : Node)
  | unlink (dir : Node) (name : Bytes)
  | move (sdir : Node) (sn : Bytes) (ddir : Node) (dn : Bytes)
  | setContent (reg : Node) (c : Bytes)
  | setTarget (lnk : Node) (t : Bytes)
  | setRdev (dev : Node) (maj min : UInt32)
  | setContentSeed (reg : Node) (seed : UInt64)
  | setAttr (n : Node) (a : Setter)
  | setTime (t : UInt64)
  | setContentConfig (blob : Bytes)
  | snapshot (label : Bytes)
  deriving DecidableEq

/-- What an operation hands back. -/
inductive Res
  | node (n : Node)
  | err (e : Error)
  | snap (v : SnapId)
  | unit
  deriving DecidableEq, Repr

def Res.ofNode {σ : Type} (x : Node × σ) : Res × σ := (.node x.1, x.2)

def Res.ofErr {σ : Type} (x : Error × σ) : Res × σ := (.err x.1, x.2)

def PrfsStore.exec (s : PrfsStore) : Op → Res × PrfsStore
  | .mkdir => Res.ofNode (s.alloc .DIR [] 0)
  | .mkfile c => Res.ofNode (s.alloc .REG c 0)
  | .symlink t => Res.ofNode (s.alloc .LNK t 0)
  | .mkfifo => Res.ofNode (s.alloc .FIFO [] 0)
  | .mksock => Res.ofNode (s.alloc .SOCK [] 0)
  | .mknod t maj min => Res.ofNode (s.alloc t [] (devSpec maj min))
  | .link dir name child => Res.ofErr (s.link dir name child)
  | .unlink dir name => Res.ofErr (s.unlink dir name)
  | .move sdir sn ddir dn => Res.ofErr (s.move sdir sn ddir dn)
  | .setContent reg c => Res.ofErr (s.setContent reg c)
  | .setTarget lnk t => Res.ofErr (s.setTarget lnk t)
  | .setRdev dev maj min => Res.ofErr (s.setRdev dev maj min)
  | .setContentSeed reg seed => Res.ofErr (s.setContentSeed reg seed)
  | .setAttr n a => (.unit, s.setAttr n a)
  | .setTime t => (.unit, s.setTime t)
  | .setContentConfig blob => (.unit, s.setContentConfig blob)
  | .snapshot label => let (v, s) := s.snapshot label; (.snap v, s)

end Prfs
