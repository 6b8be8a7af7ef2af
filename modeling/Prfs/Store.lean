import Prfs.NodeRec
import Prfs.Search

namespace Prfs

inductive Error
  | OK | NOENT | EXIST | NOTDIR | ISDIR | INVAL | NOTEMPTY | PERM
  deriving DecidableEq, Repr

abbrev SnapId := UInt64

def LATEST : SnapId := 0xffffffffffffffff

def SNAP_BIT : UInt64 := 0x8000000000000000

def isSnapDir (id : UInt64) : Bool := (id &&& SNAP_BIT) != 0

def snapBase (id : UInt64) : UInt64 := id &&& ~~~SNAP_BIT

/-- Text of the source's string literals, one byte a character. -/
def ascii (cs : List Char) : Bytes := cs.map (fun c => UInt8.ofNat c.toNat)

def SNAPSHOT_NAME : Bytes := ascii ['.', 's', 'n', 'a', 'p', 's', 'h', 'o', 't']

/-- A handle: the node and the view it reads at. -/
structure Node where
  id : UInt64
  snap : SnapId
  deriving DecidableEq, Repr

/-- The six sub-stores of the memory engine. A transaction writes them directly,
and its `commit` and `abort` do nothing. -/
structure Data where
  nodes : OrdMap Bytes Bytes := OrdMap.empty
  downLinks : OrdMap Bytes Bytes := OrdMap.empty
  upLinks : OrdMap Bytes Bytes := OrdMap.empty
  changes : OrdMap Bytes Bytes := OrdMap.empty
  metaKv : OrdMap Bytes Bytes := OrdMap.empty
  snaps : OrdMap Bytes Bytes := OrdMap.empty
  deriving DecidableEq

structure PrfsStore where
  kv : Data := {}
  next : UInt64 := 1
  cur : SnapId := 1
  root : UInt64 := 0
  clock : UInt64 := 0
  deriving DecidableEq

def metaRoot : Bytes := ascii ['r', 'o', 'o', 't']

def metaNextNode : Bytes := ascii ['n', 'e', 'x', 't', '_', 'n', 'o', 'd', 'e']

def metaCurSnap : Bytes := ascii ['c', 'u', 'r', '_', 's', 'n', 'a', 'p']

def metaClock : Bytes := ascii ['c', 'l', 'o', 'c', 'k']

def metaContentConfig : Bytes :=
  ascii ['c', 'o', 'n', 't', 'e', 'n', 't', '_', 'c', 'o', 'n', 'f', 'i', 'g']

def getMeta (kv : Data) (key : Bytes) : Option UInt64 :=
  (kv.metaKv.get key).map (fun v => (u64Field v).1)

def putMeta (kv : Data) (key : Bytes) (val : UInt64) : Data :=
  { kv with metaKv := kv.metaKv.put key (leBytes 8 val.toNat) }

/-- The newest record of `id` at or before `rg`, by a seek and a step back. -/
def loadNode (kv : Data) (id : UInt64) (rg : SnapId) : Option NodeRec :=
  let c := kv.nodes.seek (be id ++ be rg)
  let found :=
    match c.entry with
    | some e =>
      if e.1.length = 16 ∧ rdbe e.1 = id ∧ rdbe (e.1.drop 8) = rg then c.entry else c.prev.entry
    | none => c.last.entry
  match found with
  | some e =>
    if e.1.length = 16 ∧ rdbe e.1 = id ∧ rdbe (e.1.drop 8) ≤ rg then some (deserialize e.2) else none
  | none => none

def storeNode (kv : Data) (id : UInt64) (snap : SnapId) (r : NodeRec) : Data :=
  { kv with
    nodes := kv.nodes.put (be id ++ be snap) (serialize r)
    changes := kv.changes.put (be snap ++ be id) [] }

/-- The entries a cursor meets from `pfx` on until a key leaves the 16-byte prefix. -/
def scanPrefix (m : OrdMap Bytes Bytes) (pfx : Bytes) : List (Bytes × Bytes) :=
  (m.seek pfx).after.takeWhile (fun e => !(e.1.length < 16 || e.1.take 16 != pfx))

def scanDownlinks (kv : Data) (dir dv : UInt64) : List (Bytes × UInt64) :=
  (scanPrefix kv.downLinks (be dir ++ be dv)).map (fun e => (e.1.drop 16, rdbe e.2))

/-- Suffixes (container and name) of the up-link keys of one node version. -/
def scanUplinks (kv : Data) (node uv : UInt64) : List Bytes :=
  (scanPrefix kv.upLinks (be node ++ be uv)).map (fun e => e.1.drop 16)

def linkSet (kv : Data) (dir : UInt64) (rg : SnapId) : OrdMap Bytes UInt64 :=
  match loadNode kv dir rg with
  | none => OrdMap.empty
  | some dr =>
    if dr.type ≠ FType.DIR.code then OrdMap.empty
    else (scanDownlinks kv dir dr.dnLinkVer).foldl (fun out e => out.put e.1 e.2) OrdMap.empty

def effFinish (curId : UInt64) : Option NodeRec → List (UInt64 × NodeRec)
  | some r => [(curId, r)]
  | none => []

/-- The loop of `eachEffNode`: `chosen` is the newest version of `curId` seen so far
that is not after `rg`. -/
def effLoop (rg : SnapId) : List (Bytes × Bytes) → UInt64 → Option NodeRec → List (UInt64 × NodeRec)
  | [], curId, chosen => effFinish curId chosen
  | e :: es, curId, chosen =>
    let id := rdbe e.1
    let snap := rdbe (e.1.drop 8)
    let done := if id ≠ curId then effFinish curId chosen else []
    let kept := if id ≠ curId then none else chosen
    done ++ effLoop rg es id (if snap ≤ rg then some (deserialize e.2) else kept)

def eachEffNode (kv : Data) (rg : SnapId) : List (UInt64 × NodeRec) :=
  effLoop rg kv.nodes.first.after 0 none

/-- Ids with a change recorded in the snapshots after `ra` up to `rb`. -/
def candidates (kv : Data) (ra rb : SnapId) : OrdMap UInt64 Unit :=
  ((kv.changes.seek (be (ra + 1))).after.takeWhile (fun e => !(rb < rdbe e.1))).foldl
    (fun out e => out.put (rdbe (e.1.drop 8)) ()) OrdMap.empty

def putDown (kv : Data) (key val : Bytes) : Data := { kv with downLinks := kv.downLinks.put key val }

def putUp (kv : Data) (key : Bytes) : Data := { kv with upLinks := kv.upLinks.put key [] }

def delDown (kv : Data) (key : Bytes) : Data := { kv with downLinks := kv.downLinks.del key }

def delUp (kv : Data) (key : Bytes) : Data := { kv with upLinks := kv.upLinks.del key }

/-- Copy the down-links of `dir` to the current version, unless they are there. -/
def ensureWritableDnLinks (cur : SnapId) (kv : Data) (dir : UInt64) : UInt64 × Data :=
  let r := (loadNode kv dir cur).getD {}
  if r.dnLinkVer = cur then (cur, kv)
  else
    let copies := scanDownlinks kv dir r.dnLinkVer
    let kv := copies.foldl (fun kv e => putDown kv (be dir ++ be cur ++ e.1) (be e.2)) kv
    (cur, storeNode kv dir cur { r with dnLinkVer := cur })

def ensureWritableUpLinks (cur : SnapId) (kv : Data) (node : UInt64) : UInt64 × Data :=
  let r := (loadNode kv node cur).getD {}
  if r.upLinkVer = cur then (cur, kv)
  else
    let copies := scanUplinks kv node r.upLinkVer
    let kv := copies.foldl (fun kv suffix => putUp kv (be node ++ be cur ++ suffix)) kv
    (cur, storeNode kv node cur { r with upLinkVer := cur })

/-- Directories one live down-link below `n`, in the order they are pushed. -/
def dirChildren (kv : Data) (cur : SnapId) (n : UInt64) : List UInt64 :=
  match loadNode kv n cur with
  | none => []
  | some r =>
    if r.type ≠ FType.DIR.code then []
    else ((scanDownlinks kv n r.dnLinkVer).map Prod.snd).filter (fun child =>
      match loadNode kv child cur with
      | some cr => cr.type = FType.DIR.code
      | none => false)

def reachLoop (kv : Data) (cur : SnapId) (dst : UInt64) :
    Nat → List UInt64 → List UInt64 → Option Bool :=
  search (dirChildren kv cur) dst

/-- The search pushes each down-link at most once, so this fuel is always enough. -/
def reachable (kv : Data) (cur : SnapId) (src dst : UInt64) : Bool :=
  (reachLoop kv cur dst (kv.downLinks.entries.length + 2) [src] []).getD false

def linkT (cur : SnapId) (kv : Data) (dir : UInt64) (name : Bytes) (child : UInt64) : Error × Data :=
  if name = SNAPSHOT_NAME then (.INVAL, kv)
  else
    match loadNode kv dir cur with
    | none => (.NOENT, kv)
    | some dr =>
      if dr.type ≠ FType.DIR.code then (.NOTDIR, kv)
      else
        match loadNode kv child cur with
        | none => (.NOENT, kv)
        | some cr =>
          if cr.type = FType.DIR.code ∧ reachable kv cur child dir = true then (.INVAL, kv)
          else
            match kv.downLinks.get (be dir ++ be dr.dnLinkVer ++ name) with
            | some _ => (.EXIST, kv)
            | none =>
              let (dv, kv) := ensureWritableDnLinks cur kv dir
              let (uv, kv) := ensureWritableUpLinks cur kv child
              let kv := putDown kv (be dir ++ be dv ++ name) (be child)
              let kv := putUp kv (be child ++ be uv ++ be dir ++ name)
              let cr := (loadNode kv child cur).getD cr
              (.OK, storeNode kv child cur { cr with nlink := cr.nlink + 1 })

def unlinkT (cur : SnapId) (kv : Data) (dir : UInt64) (name : Bytes) : Error × Data :=
  match loadNode kv dir cur with
  | none => (.NOENT, kv)
  | some dr =>
    match kv.downLinks.get (be dir ++ be dr.dnLinkVer ++ name) with
    | none => (.NOENT, kv)
    | some child =>
      let cid := rdbe child
      let (dv, kv) := ensureWritableDnLinks cur kv dir
      let (uv, kv) := ensureWritableUpLinks cur kv cid
      let kv := delDown kv (be dir ++ be dv ++ name)
      let kv := delUp kv (be cid ++ be uv ++ be dir ++ name)
      let cr := (loadNode kv cid cur).getD {}
      let cr := if cr.nlink ≠ 0 then { cr with nlink := cr.nlink - 1 } else cr
      (.OK, storeNode kv cid cur cr)

end Prfs
