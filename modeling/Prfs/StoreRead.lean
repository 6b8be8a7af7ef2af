import Prfs.StoreOps
import Mathlib.Data.Nat.Digits.Defs

namespace Prfs

structure DirPage where
  entries : List (Bytes × Node) := []
  cookie : Bytes := []
  eof : Bool := false
  deriving DecidableEq, Repr

structure SnapInfo where
  id : SnapId := 0
  ctime : UInt64 := 0
  label : Bytes := []
  deriving DecidableEq, Repr

structure Stats where
  nodes : List UInt64 := [0, 0, 0, 0, 0, 0, 0]
  links : UInt64 := 0
  totalSize : UInt64 := 0
  deriving DecidableEq, Repr

inductive NodeChange
  | CREATED | REMOVED | MODIFIED_CONTENT | MODIFIED_ATTRS
  deriving DecidableEq, Repr

structure NodeDiff where
  id : UInt64
  change : NodeChange
  deriving DecidableEq, Repr

inductive PathChange
  | ADDED | REMOVED
  deriving DecidableEq, Repr

structure PathDiff where
  change : PathChange
  parent : UInt64
  name : Bytes
  child : UInt64
  deriving DecidableEq, Repr

/-- Everything a handle reports about its node. -/
structure Attrs where
  type : FType
  mode : UInt32
  nlink : UInt32
  uid : UInt32
  gid : UInt32
  size : UInt64
  atime : UInt64
  mtime : UInt64
  ctime : UInt64
  atimeNsec : UInt32
  mtimeNsec : UInt32
  target : Bytes
  rdev : UInt32 × UInt32
  content : Bytes
  contentSeed : UInt64
  deriving DecidableEq, Repr

def rdevOf (spec : UInt64) : UInt32 × UInt32 := ((spec >>> 32).toUInt32, (spec &&& 0xffffffff).toUInt32)

/-- `std::to_string` of a snapshot id. -/
def toString (n : SnapId) : Bytes :=
  if n = 0 then [48] else ((Nat.digits 10 n.toNat).map (fun d => UInt8.ofNat (48 + d))).reverse

def parseSnap (s : Bytes) : Option SnapId :=
  if s.isEmpty then none
  else s.foldl (fun acc c => acc.bind (fun v =>
    if c < 48 ∨ 57 < c then none else some (v * 10 + (c - 48).toUInt64))) (some 0)

/-- The ids `start`, `start + 1`, ... below `stop`. -/
def snapRange (start stop : SnapId) : List SnapId :=
  (List.range (stop.toNat - start.toNat)).map (fun i => start + UInt64.ofNat i)

/-- Fill a page from the entries still to come; a full page with an entry left over
is not the last one. -/
def pageLoop (max : Nat) : List (Bytes × Node) → DirPage → DirPage
  | [], page => { page with eof := true }
  | e :: es, page =>
    if page.entries.length = max then page
    else pageLoop max es { page with entries := page.entries ++ [e], cookie := e.1 }

/-- The change of one node between its effective records at two views. -/
def nodeChange (va vb : Option NodeRec) : Option NodeChange :=
  let eA := va.any (fun r => 0 < r.nlink)
  let eB := vb.any (fun r => 0 < r.nlink)
  let va := va.getD {}
  let vb := vb.getD {}
  if !eA && !eB then none
  else if !eA && eB then some .CREATED
  else if eA && !eB then some .REMOVED
  else if va.blob ≠ vb.blob ∨ va.spec ≠ vb.spec ∨ va.size ≠ vb.size then some .MODIFIED_CONTENT
  else if va.mode ≠ vb.mode ∨ va.uid ≠ vb.uid ∨ va.gid ≠ vb.gid ∨ va.mtime ≠ vb.mtime then
    some .MODIFIED_ATTRS
  else none

namespace PrfsStore

def rr (s : PrfsStore) (g : SnapId) : SnapId := if g = LATEST then s.cur else g

theorem rr_latest (s : PrfsStore) : s.rr LATEST = s.cur := if_pos rfl

/-- A version that is sealed is read as itself. -/
theorem rr_of_lt {s : PrfsStore} {g : SnapId} (hg : g < s.cur) : s.rr g = g := by
  refine if_neg fun he => ?_
  have hmax := s.cur.toNat_lt
  have hlatest : LATEST.toNat = 2 ^ 64 - 1 := rfl
  rw [he, UInt64.lt_iff_toNat_lt] at hg
  omega

def existedAt (s : PrfsStore) (id : UInt64) (n : SnapId) : Bool := (loadNode s.kv id n).isSome

def snapshotRoot (s : PrfsStore) (n : SnapId) : Node := ⟨s.root, n⟩

def nodeById (s : PrfsStore) (id : UInt64) (snap : SnapId) : Option Node :=
  let base := if isSnapDir id then snapBase id else id
  if s.existedAt base (s.rr snap) then some ⟨id, snap⟩ else none

theorem nodeById_eq {s : PrfsStore} {n : Node} {id : UInt64} {snap : SnapId} (h : s.nodeById id snap = some n) :
    n = ⟨id, snap⟩ := by
  unfold nodeById at h
  dsimp only at h
  split_ifs at h
  · exact (Option.some.inj h).symm
  · exact (Option.some.inj h).symm

theorem nodeById_snap {s : PrfsStore} {n : Node} {id : UInt64} {snap : SnapId} (h : s.nodeById id snap = some n) :
    n.snap = snap := by
  rw [nodeById_eq h]

def snapshots (s : PrfsStore) : List SnapId := snapRange 1 s.cur

def contentConfig (s : PrfsStore) : Bytes := (s.kv.metaKv.get metaContentConfig).getD []

def now (s : PrfsStore) : UInt64 := s.clock

def lookup (s : PrfsStore) (dir : Node) (name : Bytes) : Option Node :=
  if isSnapDir dir.id then
    let base := snapBase dir.id
    match parseSnap name with
    | none => none
    | some n => if n < 1 ∨ s.cur ≤ n ∨ ¬ s.existedAt base n then none else some ⟨base, n⟩
  else
    match loadNode s.kv dir.id (s.rr dir.snap) with
    | none => none
    | some dr =>
      if name = SNAPSHOT_NAME ∧ dir.snap = LATEST ∧ dr.type = FType.DIR.code then
        some ⟨dir.id ||| SNAP_BIT, LATEST⟩
      else
        match s.kv.downLinks.get (be dir.id ++ be dr.dnLinkVer ++ name) with
        | none => none
        | some child => some ⟨rdbe child, dir.snap⟩

/-- Entries of a synthesized snapshot directory from snapshot `start` on. -/
def snapEntries (s : PrfsStore) (base : UInt64) (start : SnapId) : List (Bytes × Node) :=
  ((snapRange start s.cur).filter (fun n => s.existedAt base n)).map (fun n => (toString n, ⟨base, n⟩))

def readdir (s : PrfsStore) (dir : Node) : List (Bytes × Node) :=
  if isSnapDir dir.id then s.snapEntries (snapBase dir.id) 1
  else
    match loadNode s.kv dir.id (s.rr dir.snap) with
    | none => []
    | some dr => (scanDownlinks s.kv dir.id dr.dnLinkVer).map (fun e => (e.1, ⟨e.2, dir.snap⟩))

def readdirPage (s : PrfsStore) (dir : Node) (after : Bytes) (max : Nat) : DirPage :=
  if isSnapDir dir.id then
    let start := if after.isEmpty then 1 else match parseSnap after with
      | some c => c + 1
      | none => 1
    pageLoop max (s.snapEntries (snapBase dir.id) start) {}
  else
    match loadNode s.kv dir.id (s.rr dir.snap) with
    | none => { eof := true }
    | some dr =>
      let pfx := be dir.id ++ be dr.dnLinkVer
      let met := (s.kv.downLinks.seek (pfx ++ after)).after.takeWhile
        (fun e => !(e.1.length < 16 || e.1.take 16 != pfx))
      let rest := met.filter (fun e => !(e.1.drop 16 ≤ after))
      pageLoop max (rest.map (fun e => (e.1.drop 16, ⟨rdbe e.2, dir.snap⟩))) {}

/-- Each container once, in the order of its first up-link. -/
def parents (s : PrfsStore) (node : Node) : List Node :=
  match loadNode s.kv node.id (s.rr node.snap) with
  | none => []
  | some nr =>
    let containers := (scanUplinks s.kv node.id nr.upLinkVer).map rdbe
    let distinct := containers.foldl (fun out c => if out.contains c then out else out ++ [c]) []
    distinct.map (fun c => ⟨c, node.snap⟩)

def snapInfo (s : PrfsStore) (g : SnapId) : SnapInfo :=
  match s.kv.snaps.get (be g) with
  | some rec => if 8 ≤ rec.length then { id := g, ctime := rdbe rec, label := rec.drop 8 } else { id := g }
  | none => { id := g }

def diffNodes (s : PrfsStore) (a b : SnapId) : List NodeDiff :=
  let ra := s.rr a
  let rb := s.rr b
  ((candidates s.kv ra rb).entries.map Prod.fst).filterMap (fun id =>
    (nodeChange (loadNode s.kv id ra) (loadNode s.kv id rb)).map (fun c => ⟨id, c⟩))

def diffPaths (s : PrfsStore) (a b : SnapId) : List PathDiff :=
  let ra := s.rr a
  let rb := s.rr b
  ((candidates s.kv ra rb).entries.map Prod.fst).flatMap (fun dir =>
    let sa := linkSet s.kv dir ra
    let sb := linkSet s.kv dir rb
    ((sb.entries.filter (fun e => (sa.get e.1).isNone)).map (fun e => ⟨.ADDED, dir, e.1, e.2⟩)) ++
    ((sa.entries.filter (fun e => (sb.get e.1).isNone)).map (fun e => ⟨.REMOVED, dir, e.1, e.2⟩)))

def countNode (st : Stats) (n : NodeRec) : Stats :=
  if n.nlink = 0 then st
  else
    { st with
      nodes := st.nodes.modify n.type.toNat (· + 1)
      totalSize := if n.type = FType.REG.code then st.totalSize + n.size else st.totalSize }

def stats (s : PrfsStore) (g : SnapId) : Stats :=
  let eff := eachEffNode s.kv (s.rr g)
  let st := eff.foldl (fun st e => countNode st e.2) {}
  eff.foldl (fun st e =>
    if e.2.type = FType.DIR.code then
      (scanDownlinks s.kv e.1 e.2.dnLinkVer).foldl (fun st _ => { st with links := st.links + 1 }) st
    else st) st

/-- The record behind a handle; a snapshot directory mirrors its base node's times. -/
def readNode (s : PrfsStore) (id : UInt64) (snap : SnapId) : NodeRec :=
  if isSnapDir id then
    let base := (loadNode s.kv (snapBase id) (s.rr snap)).getD {}
    { type := FType.DIR.code, mode := 0o555, nlink := 1, atime := base.atime, mtime := base.mtime,
      ctime := base.ctime }
  else (loadNode s.kv id (s.rr snap)).getD {}

def attrs (s : PrfsStore) (n : Node) : Attrs :=
  let r := s.readNode n.id n.snap
  { type := FType.ofCode r.type, mode := r.mode, nlink := r.nlink, uid := r.uid, gid := r.gid
    size := r.size, atime := r.atime, mtime := r.mtime, ctime := r.ctime
    atimeNsec := r.atimeNs, mtimeNsec := r.mtimeNs
    target := if r.type = FType.LNK.code then r.blob else []
    rdev := rdevOf r.spec
    content := if r.type = FType.REG.code then r.blob else []
    contentSeed := if r.type = FType.REG.code ∧ r.spec ≠ 0 then r.spec else n.id }

end PrfsStore

end Prfs
