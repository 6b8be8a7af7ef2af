import Mathlib.Data.Prod.Lex
import Prfs.StoreRead
import Prfs.VersionLists

namespace Prfs

structure Attr where
  type : FType := .REG
  mode : UInt32 := 0
  uid : UInt32 := 0
  gid : UInt32 := 0
  nlink : UInt32 := 0
  atimeNs : UInt32 := 0
  mtimeNs : UInt32 := 0
  size : UInt64 := 0
  atime : UInt64 := 0
  mtime : UInt64 := 0
  ctime : UInt64 := 0
  spec : UInt64 := 0
  deriving DecidableEq, Repr

structure NodeVer where
  snap : SnapId
  a : Attr := {}
  blob : Bytes := []
  deriving DecidableEq, Repr

/-- A lifetime of a link; it is live while `dead` is zero. -/
structure LinkIv where
  born : SnapId
  dead : SnapId
  child : UInt64
  deriving DecidableEq, Repr

/-- The in-memory reference implementation; a set is a map to `Unit`. -/
structure MemStore where
  nodes : OrdMap UInt64 (List NodeVer) := .empty
  links : OrdMap (UInt64 ×ₗ Bytes) (List LinkIv) := .empty
  names : OrdMap UInt64 (OrdMap Bytes Unit) := .empty
  changes : OrdMap SnapId (OrdMap UInt64 Unit) := .empty
  snaps : OrdMap SnapId SnapInfo := .empty
  contentConfig : Bytes := []
  next : UInt64 := 1
  cur : SnapId := 1
  root : UInt64 := 0
  clock : UInt64 := 0

def liveAt (iv : LinkIv) (rg : SnapId) : Bool := iv.born ≤ rg && (iv.dead = 0 || rg < iv.dead)

def liveIv (ivs : List LinkIv) (rg : SnapId) : Option LinkIv := ivs.find? (fun iv => liveAt iv rg)

def liveAtR (ivs : List LinkIv) (rg : SnapId) : Option UInt64 := (liveIv ivs rg).map LinkIv.child

/-- End the first live lifetime: one born in the current snapshot leaves no trace. -/
def closeLive (cur : SnapId) : List LinkIv → List LinkIv
  | [] => []
  | iv :: ivs =>
    if liveAt iv cur then (if iv.born = cur then ivs else { iv with dead := cur } :: ivs)
    else iv :: closeLive cur ivs

def Setter.applyAttr (a : Attr) : Setter → Attr
  | .mode x => { a with mode := x }
  | .uid x => { a with uid := x }
  | .gid x => { a with gid := x }
  | .size x => { a with size := x }
  | .atime x => { a with atime := x, atimeNs := 0 }
  | .mtime x => { a with mtime := x, mtimeNs := 0 }
  | .ctime x => { a with ctime := x }
  | .atimeNsec x => { a with atimeNs := x }
  | .mtimeNsec x => { a with mtimeNs := x }

namespace MemStore

def resolve (m : MemStore) (g : SnapId) : SnapId := if g = LATEST then m.cur else g

def vers (m : MemStore) (id : UInt64) : List NodeVer := (m.nodes.get id).getD []

def effR (m : MemStore) (id : UInt64) (rg : SnapId) : Option NodeVer := effAt NodeVer.snap rg (m.vers id)

def eff (m : MemStore) (id : UInt64) (g : SnapId) : Option NodeVer := m.effR id (m.resolve g)

def attrOf (m : MemStore) (id : UInt64) (g : SnapId) : Attr := ((m.eff id g).map NodeVer.a).getD {}

/-- A snapshot directory mirrors its base node's times. -/
def effAttr (m : MemStore) (id : UInt64) (g : SnapId) : Attr :=
  if isSnapDir id then
    let base := m.attrOf (snapBase id) g
    { type := .DIR, mode := 0o555, nlink := 1, atime := base.atime, mtime := base.mtime, ctime := base.ctime }
  else m.attrOf id g

def ivs (m : MemStore) (d : UInt64) (n : Bytes) : List LinkIv := (m.links.get (toLex (d, n))).getD []

def linkLiveAt (m : MemStore) (d : UInt64) (n : Bytes) (g : SnapId) : Option UInt64 :=
  liveAtR (m.ivs d n) (m.resolve g)

def namesOf (m : MemStore) (d : UInt64) : List Bytes :=
  ((m.names.get d).getD .empty).entries.map Prod.fst

def touch (m : MemStore) (id : UInt64) : MemStore :=
  { m with changes := m.changes.put m.cur (((m.changes.get m.cur).getD .empty).put id ()) }

/-- The copy of a version that `liveVer` makes at the current snapshot. -/
def copyVer (cur : SnapId) : Option NodeVer → NodeVer
  | some v => { v with snap := cur }
  | none => { snap := cur }

/-- Write through the reference that `liveVer` returns. -/
def setLive (m : MemStore) (id : UInt64) (f : NodeVer → NodeVer) : MemStore :=
  { m with nodes := m.nodes.put id (onNewest NodeVer.snap m.cur (copyVer m.cur) f (m.vers id)) }

def rwRoot (m : MemStore) : Node := ⟨m.root, LATEST⟩

def empty : MemStore :=
  let m : MemStore := { root := 1, next := 2 }
  { m with
    nodes := m.nodes.put 1 [{ snap := 1, a := { type := .DIR, mode := 0o755, nlink := 1 } }]
    changes := m.changes.put 1 (OrdMap.empty.put 1 ()) }

def alloc (m : MemStore) (t : FType) (blob : Bytes) (spec : UInt64) : Node × MemStore :=
  let a : Attr :=
    { type := t, mode := defaultMode t, spec, atime := m.clock, mtime := m.clock, ctime := m.clock }
  let id := m.next
  let v : NodeVer := { snap := m.cur, a, blob }
  let m := { m with next := m.next + 1, nodes := m.nodes.put id (m.vers id ++ [v]) }
  (⟨id, LATEST⟩, m.touch id)

/-- Directories one live link below `n`, in the order they are pushed. -/
def dirChildren (m : MemStore) (n : UInt64) : List UInt64 :=
  ((m.namesOf n).filterMap (fun name => m.linkLiveAt n name LATEST)).filter (fun child =>
    (m.eff child LATEST).any (fun cv => cv.a.type = .DIR))

/-- The search pushes each name at most once, so this fuel is always enough. -/
def reachable (m : MemStore) (src dst : UInt64) : Bool :=
  (search m.dirChildren dst ((m.names.entries.map (fun e => e.2.entries.length)).sum + 2) [src] []).getD false

def addLink (m : MemStore) (dir : UInt64) (name : Bytes) (child : UInt64) : MemStore :=
  { m with
    links := m.links.put (toLex (dir, name)) (m.ivs dir name ++ [⟨m.cur, 0, child⟩])
    names := m.names.put dir (((m.names.get dir).getD .empty).put name ()) }

def link (m : MemStore) (dir : Node) (name : Bytes) (child : Node) : Error × MemStore :=
  if name = SNAPSHOT_NAME then (.INVAL, m)
  else if (m.effAttr dir.id dir.snap).type ≠ .DIR then (.NOTDIR, m)
  else if (m.effAttr child.id child.snap).type = .DIR ∧ m.reachable child.id dir.id = true then (.INVAL, m)
  else if (m.linkLiveAt dir.id name LATEST).isSome then (.EXIST, m)
  else
    let m := m.addLink dir.id name child.id
    let m := m.setLive child.id (fun v => { v with a := { v.a with nlink := v.a.nlink + 1 } })
    (.OK, (m.touch dir.id).touch child.id)

def unlink (m : MemStore) (dir : Node) (name : Bytes) : Error × MemStore :=
  match m.links.get (toLex (dir.id, name)) with
  | none => (.NOENT, m)
  | some ivs =>
    match liveIv ivs m.cur with
    | none => (.NOENT, m)
    | some iv =>
      let m := { m with links := m.links.put (toLex (dir.id, name)) (closeLive m.cur ivs) }
      let m := m.setLive iv.child (fun v => { v with a := { v.a with nlink := v.a.nlink - 1 } })
      (.OK, (m.touch dir.id).touch iv.child)

def move (m : MemStore) (sdir : Node) (sn : Bytes) (ddir : Node) (dn : Bytes) : Error × MemStore :=
  match m.linkLiveAt sdir.id sn LATEST with
  | none => (.NOENT, m)
  | some child =>
    match m.link ddir dn ⟨child, LATEST⟩ with
    | (.OK, m) => m.unlink sdir sn
    | (e, m) => (e, m)

/-- A type-guarded write to the live version; the four setters have this shape. -/
def guardedSet (m : MemStore) (n : Node) (want : FType → Bool) (f : NodeVer → NodeVer) : Error × MemStore :=
  if want (m.effAttr n.id n.snap).type then (.OK, (m.setLive n.id f).touch n.id) else (.INVAL, m)

def setContent (m : MemStore) (reg : Node) (c : Bytes) : Error × MemStore :=
  m.guardedSet reg (fun t => t == .REG) (fun v => { v with blob := c })

def setTarget (m : MemStore) (lnk : Node) (t : Bytes) : Error × MemStore :=
  m.guardedSet lnk (fun t => t == .LNK) (fun v => { v with blob := t })

def setRdev (m : MemStore) (dev : Node) (maj min : UInt32) : Error × MemStore :=
  m.guardedSet dev (fun t => t == .BLK || t == .CHR) (fun v => { v with a := { v.a with spec := devSpec maj min } })

def setContentSeed (m : MemStore) (reg : Node) (seed : UInt64) : Error × MemStore :=
  m.guardedSet reg (fun t => t == .REG) (fun v => { v with a := { v.a with spec := seed } })

def setAttr (m : MemStore) (n : Node) (x : Setter) : MemStore :=
  (m.setLive n.id (fun v => { v with a := x.applyAttr v.a })).touch n.id

def snapshot (m : MemStore) (label : Bytes) : SnapId × MemStore :=
  (m.cur, { m with cur := m.cur + 1, snaps := m.snaps.put m.cur ⟨m.cur, m.clock, label⟩ })

def exec (m : MemStore) : Op → Res × MemStore
  | .mkdir => Res.ofNode (m.alloc .DIR [] 0)
  | .mkfile c => Res.ofNode (m.alloc .REG c 0)
  | .symlink t => Res.ofNode (m.alloc .LNK t 0)
  | .mkfifo => Res.ofNode (m.alloc .FIFO [] 0)
  | .mksock => Res.ofNode (m.alloc .SOCK [] 0)
  | .mknod t maj min => Res.ofNode (m.alloc t [] (devSpec maj min))
  | .link dir name child => Res.ofErr (m.link dir name child)
  | .unlink dir name => Res.ofErr (m.unlink dir name)
  | .move sdir sn ddir dn => Res.ofErr (m.move sdir sn ddir dn)
  | .setContent reg c => Res.ofErr (m.setContent reg c)
  | .setTarget lnk t => Res.ofErr (m.setTarget lnk t)
  | .setRdev dev maj min => Res.ofErr (m.setRdev dev maj min)
  | .setContentSeed reg seed => Res.ofErr (m.setContentSeed reg seed)
  | .setAttr n x => (.unit, m.setAttr n x)
  | .setTime t => (.unit, { m with clock := t })
  | .setContentConfig blob => (.unit, { m with contentConfig := blob })
  | .snapshot label => let (v, m) := m.snapshot label; (.snap v, m)

end MemStore

end Prfs
