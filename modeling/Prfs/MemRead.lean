import Prfs.MemStore

namespace Prfs

/-- A version as a record of the other engine; it has no link versions. -/
def NodeVer.toRec (v : NodeVer) : NodeRec :=
  { type := v.a.type.code, mode := v.a.mode, uid := v.a.uid, gid := v.a.gid, nlink := v.a.nlink,
    atimeNs := v.a.atimeNs, mtimeNs := v.a.mtimeNs, size := v.a.size, atime := v.a.atime, mtime := v.a.mtime,
    ctime := v.a.ctime, spec := v.a.spec, blob := v.blob }

namespace MemStore

def snapshots (m : MemStore) : List SnapId := snapRange 1 m.cur

def snapInfo (m : MemStore) (g : SnapId) : SnapInfo := (m.snaps.get g).getD { id := g }

def lookup (m : MemStore) (dir : Node) (name : Bytes) : Option Node :=
  if isSnapDir dir.id then
    let base := snapBase dir.id
    match parseSnap name with
    | none => none
    | some n => if n < 1 ∨ m.cur ≤ n ∨ m.effR base n = none then none else some ⟨base, n⟩
  else if name = SNAPSHOT_NAME ∧ dir.snap = LATEST ∧ (m.effAttr dir.id dir.snap).type = .DIR then
    some ⟨dir.id ||| SNAP_BIT, LATEST⟩
  else (m.linkLiveAt dir.id name dir.snap).map (fun child => ⟨child, dir.snap⟩)

/-- Entries of a synthesized snapshot directory from snapshot `start` on. -/
def snapEntries (m : MemStore) (base : UInt64) (start : SnapId) : List (Bytes × Node) :=
  ((snapRange start m.cur).filter (fun n => (m.effR base n).isSome)).map (fun n => (toString n, ⟨base, n⟩))

/-- The names of a directory that are live in a view, with what they name. -/
def liveNames (m : MemStore) (dir : Node) : List (Bytes × Node) :=
  (m.namesOf dir.id).filterMap (fun name =>
    (m.linkLiveAt dir.id name dir.snap).map (fun child => (name, ⟨child, dir.snap⟩)))

def readdir (m : MemStore) (dir : Node) : List (Bytes × Node) :=
  if isSnapDir dir.id then m.snapEntries (snapBase dir.id) 1 else m.liveNames dir

def readdirPage (m : MemStore) (dir : Node) (after : Bytes) (max : Nat) : DirPage :=
  if isSnapDir dir.id then
    let start := if after.isEmpty then 1 else match parseSnap after with
      | some c => c + 1
      | none => 1
    pageLoop max (m.snapEntries (snapBase dir.id) start) {}
  else pageLoop max ((m.liveNames dir).filter (fun e => !(e.1 ≤ after))) {}

/-- Each container once, in the order of the links. -/
def parents (m : MemStore) (node : Node) : List Node :=
  let containers := m.links.entries.flatMap (fun e =>
    (e.2.filter (fun iv => iv.child = node.id && liveAt iv (m.resolve node.snap))).map (fun _ => (ofLex e.1).1))
  let distinct := containers.foldl (fun out c => if out.contains c then out else out ++ [c]) []
  distinct.map (fun c => ⟨c, node.snap⟩)

/-- Ids with a change recorded in the snapshots after `ra` up to `rb`. -/
def candidates (m : MemStore) (ra rb : SnapId) : OrdMap UInt64 Unit :=
  ((m.changes.entries.filter (fun e => ra < e.1 && e.1 ≤ rb)).flatMap (fun e => e.2.entries)).foldl
    (fun out x => out.put x.1 ()) OrdMap.empty

/-- The two engines classify a change by the same tests. -/
def diffNodes (m : MemStore) (a b : SnapId) : List NodeDiff :=
  let ra := m.resolve a
  let rb := m.resolve b
  ((m.candidates ra rb).entries.map Prod.fst).filterMap (fun id =>
    (nodeChange ((m.effR id ra).map NodeVer.toRec) ((m.effR id rb).map NodeVer.toRec)).map (fun c => ⟨id, c⟩))

def countVer (st : Stats) (v : NodeVer) : Stats :=
  if v.a.nlink = 0 then st
  else
    { st with
      nodes := st.nodes.modify v.a.type.code.toNat (· + 1)
      totalSize := if v.a.type = .REG then st.totalSize + v.a.size else st.totalSize }

def countAt (m : MemStore) (rg : SnapId) (st : Stats) (id : UInt64) : Stats :=
  match m.effR id rg with
  | some v => countVer st v
  | none => st

def stats (m : MemStore) (g : SnapId) : Stats :=
  let rg := m.resolve g
  let st := m.nodes.entries.foldl (fun st e => m.countAt rg st e.1) {}
  m.links.entries.foldl (fun st e =>
    e.2.foldl (fun st iv => if liveAt iv rg then { st with links := st.links + 1 } else st) st) st

def attrs (m : MemStore) (n : Node) : Attrs :=
  let a := m.effAttr n.id n.snap
  let v := m.eff n.id n.snap
  let blob := (v.map NodeVer.blob).getD []
  let spec := (v.map (fun v => v.a.spec)).getD 0
  { type := a.type, mode := a.mode, nlink := a.nlink, uid := a.uid, gid := a.gid, size := a.size, atime := a.atime
    mtime := a.mtime, ctime := a.ctime, atimeNsec := a.atimeNs, mtimeNsec := a.mtimeNs
    target := if a.type = .LNK then blob else []
    rdev := rdevOf spec
    content := if a.type = .REG then blob else []
    contentSeed := if a.type = .REG ∧ spec ≠ 0 then spec else n.id }

end MemStore

end Prfs
