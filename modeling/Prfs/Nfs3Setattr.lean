import Prfs.DiffCoverage
import Prfs.SnapshotNames
import Prfs.StoreStamps
import Prfs.XdrAhead

namespace Prfs

namespace PrfsStore

variable {s t : PrfsStore} {n o : Node} {r : NodeRec}

/-- A handle shows what the record behind it says, and that is the base's for a snapshot directory. -/
theorem attrs_congr (hload : loadNode t.kv (snapBase o.id) (t.rr o.snap) = loadNode s.kv (snapBase o.id) (s.rr o.snap)) :
    t.attrs o = s.attrs o := by
  have hread : t.readNode o.id o.snap = s.readNode o.id o.snap := by
    unfold readNode
    cases hd : isSnapDir o.id with
    | true => simp only [if_true, hload]
    | false =>
      rw [snapBase_of_real hd] at hload
      simp only [Bool.false_eq_true, if_false, hload]
  unfold attrs
  rw [hread]

theorem Sound.loadNode_withNode (hs : s.Sound) {i : UInt64} {g : SnapId} (h : i ≠ n.id ∨ g < s.cur) :
    loadNode (s.withNode n.id r).kv i g = loadNode s.kv i g := by
  have hcur : ¬ (i = n.id ∧ s.cur ≤ g) := by
    rintro ⟨hi, hg⟩
    rcases h with h | h
    · exact h hi
    · exact not_le.mpr h hg
  rw [withNode, hs.base.loadNode_storeNode, if_neg hcur]

/-- Another record of a live node shows through no handle of another node, nor of an earlier version. -/
theorem Sound.attrs_withNode (hs : s.Sound) (ho : snapBase o.id ≠ n.id ∨ o.snap < s.cur) :
    (s.withNode n.id r).attrs o = s.attrs o := by
  refine attrs_congr (hs.loadNode_withNode ?_)
  refine ho.imp_right fun hlt => ?_
  have hrr : (s.withNode n.id r).rr o.snap = o.snap := rr_of_lt hlt
  rw [hrr]
  exact hlt

/-- Nor does it change a name, in any view. -/
theorem Sound.entry_withNode (hs : s.Sound) {old : NodeRec} (hold : loadNode s.kv n.id s.cur = some old)
    (hlink : r.dnLinkVer = old.dnLinkVer) {g : SnapId} : (viewAt (s.withNode n.id r).kv g).entry = (viewAt s.kv g).entry := by
  funext d name
  unfold viewAt
  dsimp only
  rw [withNode, dnAt_storeNode, hs.base.loadNode_storeNode]
  split_ifs with hc
  · obtain ⟨rfl, hg⟩ := hc
    rw [hs.base.loadNode_live hg, hold, Option.bind_some, Option.bind_some, hlink]
  · rfl

theorem attrs_of_live (hr : loadNode s.kv n.id s.cur = some r) (hl : n.snap = LATEST) (hd : isSnapDir n.id = false) :
    s.attrs n = Attrs.of n.id r := by
  refine attrs_of_load hd ?_
  rw [hl, rr_latest]
  exact hr

end PrfsStore

namespace NfsV3

/-- What an `sattr3` asks of one of the two times. -/
inductive SetTime
  | dont | server
  | client (sec nsec : UInt32)
  deriving DecidableEq, Repr

/-- The fields of an `sattr3`, each there or not. -/
structure Sattr3 where
  mode : Option UInt32 := none
  uid : Option UInt32 := none
  gid : Option UInt32 := none
  size : Option UInt64 := none
  atime : SetTime := .dont
  mtime : SetTime := .dont
  deriving DecidableEq, Repr

/-- An optional value on the wire: its discriminant, and the value if that is 1. -/
def optional {α : Type} (encode : α → Bytes) : Option α → Bytes
  | some x => word 1 ++ encode x
  | none => word 0

def SetTime.encode : SetTime → Bytes
  | .dont => word 0
  | .server => word SET_TO_SERVER_TIME
  | .client sec nsec => word SET_TO_CLIENT_TIME ++ (word sec ++ word nsec)

def Sattr3.encode (a : Sattr3) : Bytes :=
  optional word a.mode ++ (optional word a.uid ++ (optional word a.gid ++ (optional be a.size ++
    (a.atime.encode ++ a.mtime.encode))))

/-- The guard of a SETATTR: a change time to compare with, or none. -/
def encodeGuard (g : Option (UInt32 × UInt32)) : Bytes := optional (fun t => word t.1 ++ word t.2) g

/-- The setters that a time is set by; the seconds go first, since they clear the nanoseconds. -/
def SetTime.setters (now : UInt64) (time : UInt64 → Setter) (nsec : UInt32 → Setter) : SetTime → List Setter
  | .dont => []
  | .server => [time now]
  | .client sec ns => [time sec.toUInt64, nsec ns]

def Sattr3.setters (now : UInt64) (a : Sattr3) : List Setter :=
  a.mode.toList.map .mode ++ (a.uid.toList.map .uid ++ (a.gid.toList.map .gid ++ (a.size.toList.map .size ++
    (a.atime.setters now .atime .atimeNsec ++ a.mtime.setters now .mtime .mtimeNsec))))

section Reads

variable {m : Msg} {r : Reader} {n : Node} {fs : PrfsStore} {bs : Bytes}

theorem setAttrs_append (as as' : List Setter) : fs.setAttrs n (as ++ as') = (fs.setAttrs n as).setAttrs n as' := by
  simp [PrfsStore.setAttrs]

theorem sattrWord_ahead {x : Option UInt32} (h : r.Ahead m (optional word x ++ bs)) (field : UInt32 → Setter) :
    (sattrWord m r (some n) fs field).1.Ahead m bs ∧
      (sattrWord m r (some n) fs field).2 = fs.setAttrs n (x.toList.map field) := by
  unfold sattrWord
  cases x with
  | none =>
    obtain ⟨h0, hr, -⟩ := h.u32
    dsimp only
    rw [h0]
    exact ⟨hr, rfl⟩
  | some x =>
    rw [optional, List.append_assoc] at h
    obtain ⟨h1, hr, -⟩ := h.u32
    obtain ⟨hx, hr', -⟩ := hr.u32
    dsimp only
    rw [h1, if_pos (by decide), hx]
    exact ⟨hr', rfl⟩

theorem sattrSize_ahead {x : Option UInt64} (h : r.Ahead m (optional be x ++ bs)) :
    (sattrSize m r (some n) fs).1.Ahead m bs ∧
      (sattrSize m r (some n) fs).2 = fs.setAttrs n (x.toList.map .size) := by
  unfold sattrSize
  cases x with
  | none =>
    obtain ⟨h0, hr, -⟩ := h.u32
    dsimp only
    rw [h0]
    exact ⟨hr, rfl⟩
  | some x =>
    rw [optional, List.append_assoc] at h
    obtain ⟨h1, hr, -⟩ := h.u32
    obtain ⟨hx, hr', -⟩ := hr.u64
    dsimp only
    generalize (r.u32 m).2.u64 m = y at hx hr' ⊢
    rw [h1, if_pos (by decide), hx]
    exact ⟨hr', rfl⟩

theorem sattrTime_ahead {t : SetTime} (h : r.Ahead m (t.encode ++ bs)) (time : UInt64 → Setter) (nsec : UInt32 → Setter) :
    (sattrTime m r (some n) fs time nsec).1.Ahead m bs ∧
      (sattrTime m r (some n) fs time nsec).2 = fs.setAttrs n (t.setters fs.now time nsec) := by
  unfold sattrTime
  cases t with
  | dont =>
    obtain ⟨h0, hr, -⟩ := h.u32
    dsimp only
    rw [h0]
    exact ⟨hr, rfl⟩
  | server =>
    obtain ⟨h1, hr, -⟩ := h.u32
    dsimp only
    rw [h1]
    exact ⟨hr, rfl⟩
  | client sec ns =>
    rw [SetTime.encode, List.append_assoc, List.append_assoc] at h
    obtain ⟨h2, hr, -⟩ := h.u32
    obtain ⟨hsec, hr', -⟩ := hr.u32
    obtain ⟨hns, hr'', -⟩ := hr'.u32
    dsimp only
    rw [h2, if_neg (by decide), if_pos rfl, hsec, hns]
    generalize (((r.u32 m).2.u32 m).2.u32 m).2 = r3 at hr'' ⊢
    exact ⟨hr'', rfl⟩

/-- The fields are applied as they stand in the message, whatever follows them. -/
theorem applySattr_ahead {a : Sattr3} (h : r.Ahead m (a.encode ++ bs)) :
    (applySattr m r (some n) fs).2 = fs.setAttrs n (a.setters fs.now) := by
  simp only [Sattr3.encode, List.append_assoc] at h
  unfold applySattr
  dsimp only
  obtain ⟨h1, hs1⟩ := @sattrWord_ahead m _ n fs _ _ h .mode
  generalize sattrWord m r (some n) fs .mode = x1 at h1 hs1 ⊢
  obtain ⟨h2, hs2⟩ := @sattrWord_ahead m _ n x1.2 _ _ h1 .uid
  generalize sattrWord m x1.1 (some n) x1.2 .uid = x2 at h2 hs2 ⊢
  obtain ⟨h3, hs3⟩ := @sattrWord_ahead m _ n x2.2 _ _ h2 .gid
  generalize sattrWord m x2.1 (some n) x2.2 .gid = x3 at h3 hs3 ⊢
  obtain ⟨h4, hs4⟩ := @sattrSize_ahead m _ n x3.2 _ _ h3
  generalize sattrSize m x3.1 (some n) x3.2 = x4 at h4 hs4 ⊢
  obtain ⟨h5, hs5⟩ := @sattrTime_ahead m _ n x4.2 _ _ h4 .atime .atimeNsec
  generalize sattrTime m x4.1 (some n) x4.2 .atime .atimeNsec = x5 at h5 hs5 ⊢
  obtain ⟨-, hs6⟩ := @sattrTime_ahead m _ n x5.2 _ _ h5 .mtime .mtimeNsec
  rw [hs6, hs5, hs4, hs3, hs2, hs1]
  simp only [NfsV4.setAttrs_now, Sattr3.setters, setAttrs_append]

end Reads

/-- A time after it was set. -/
def SetTime.onto (now : UInt64) (old : UInt64 × UInt32) : SetTime → UInt64 × UInt32
  | .dont => old
  | .server => (now, 0)
  | .client sec nsec => (sec.toUInt64, nsec)

/-- A record after a SETATTR. -/
def Sattr3.record (now : UInt64) (a : Sattr3) (r : NodeRec) : NodeRec :=
  { r with
    mode := a.mode.getD r.mode
    uid := a.uid.getD r.uid
    gid := a.gid.getD r.gid
    size := a.size.getD r.size
    atime := (a.atime.onto now (r.atime, r.atimeNs)).1
    atimeNs := (a.atime.onto now (r.atime, r.atimeNs)).2
    mtime := (a.mtime.onto now (r.mtime, r.mtimeNs)).1
    mtimeNs := (a.mtime.onto now (r.mtime, r.mtimeNs)).2
    ctime := now }

/-- An optional field that is not there is as if set to the value it has. -/
theorem foldl_field {α : Type} (field : α → Setter) (get : NodeRec → α) (hget : ∀ r, (field (get r)).apply r = r)
    (x : Option α) (r : NodeRec) :
    (x.toList.map field).foldl Setter.apply r = (field (x.getD (get r))).apply r := by
  cases x with
  | none => exact (hget r).symm
  | some x => rfl

theorem Sattr3.foldl_setters (now : UInt64) (a : Sattr3) (r : NodeRec) :
    (a.setters now ++ [Setter.ctime now]).foldl Setter.apply r = a.record now r := by
  have hatime : ∀ r, (a.atime.setters now .atime .atimeNsec).foldl Setter.apply r =
      { r with atime := (a.atime.onto now (r.atime, r.atimeNs)).1, atimeNs := (a.atime.onto now (r.atime, r.atimeNs)).2 } := by
    intro r
    cases a.atime <;> rfl
  have hmtime : ∀ r, (a.mtime.setters now .mtime .mtimeNsec).foldl Setter.apply r =
      { r with mtime := (a.mtime.onto now (r.mtime, r.mtimeNs)).1, mtimeNs := (a.mtime.onto now (r.mtime, r.mtimeNs)).2 } := by
    intro r
    cases a.mtime <;> rfl
  simp only [Sattr3.setters, List.foldl_append, hatime, hmtime]
  rw [foldl_field .mode NodeRec.mode (fun _ => rfl), foldl_field .uid NodeRec.uid (fun _ => rfl),
    foldl_field .gid NodeRec.gid (fun _ => rfl), foldl_field .size NodeRec.size (fun _ => rfl)]
  rfl

/-- The values of an `fattr3`. -/
structure Fattr3 where
  type : UInt32
  mode : UInt32
  nlink : UInt32
  uid : UInt32
  gid : UInt32
  size : UInt64
  used : UInt64
  rdev : UInt32 × UInt32
  fsid : UInt64
  fileid : UInt64
  atime : UInt32 × UInt32
  mtime : UInt32 × UInt32
  ctime : UInt32 × UInt32
  deriving DecidableEq, Repr

def Fattr3.encode (w : Writer) (a : Fattr3) : Writer :=
  let w := ((((w.u32 a.type).u32 a.mode).u32 a.nlink).u32 a.uid).u32 a.gid
  let w := (((w.u64 a.size).u64 a.used).u32 a.rdev.1).u32 a.rdev.2
  let w := (w.u64 a.fsid).u64 a.fileid
  let w := ((w.u32 a.atime.1).u32 a.atime.2).u32 a.mtime.1
  ((w.u32 a.mtime.2).u32 a.ctime.1).u32 a.ctime.2

/-- What is reported of a node. -/
def fattr3 (h : Host) (fs : PrfsStore) (n : Node) : Fattr3 where
  type := ftype3 (fs.attrs n).type
  mode := (fs.attrs n).mode
  nlink := (fs.attrs n).nlink
  uid := (fs.attrs n).uid
  gid := (fs.attrs n).gid
  size := (fs.attrs n).size
  used := h.usedBytes fs n
  rdev := if (fs.attrs n).type = .BLK ∨ (fs.attrs n).type = .CHR then (fs.attrs n).rdev else (0, 0)
  fsid := if n.snap = LATEST then 0 else n.snap
  fileid := viewFileid n.id n.snap
  atime := ((fs.attrs n).atime.toUInt32, (fs.attrs n).atimeNsec)
  mtime := ((fs.attrs n).mtime.toUInt32, (fs.attrs n).mtimeNsec)
  ctime := ((fs.attrs n).ctime.toUInt32, 0)

theorem encodeFattr_eq (h : Host) (fs : PrfsStore) (w : Writer) (n : Node) :
    encodeFattr h fs w n = (fattr3 h fs n).encode w := rfl

/-- A reported time after it was set. -/
def SetTime.reported (now : UInt64) (old : UInt32 × UInt32) : SetTime → UInt32 × UInt32
  | .dont => old
  | .server => (now.toUInt32, 0)
  | .client sec nsec => (sec, nsec)

/-- The report after a SETATTR, but for the space in use. -/
def Sattr3.reported (now : UInt64) (a : Sattr3) (old : Fattr3) : Fattr3 :=
  { old with
    mode := a.mode.getD old.mode
    uid := a.uid.getD old.uid
    gid := a.gid.getD old.gid
    size := a.size.getD old.size
    atime := a.atime.reported now old.atime
    mtime := a.mtime.reported now old.mtime
    ctime := (now.toUInt32, 0) }

section Setattr

variable {h : Host} {v : NfsV3} {m : Msg} {r : Reader} {w : Writer} {n : Node} {a : Sattr3}

theorem SetTime.reported_onto (now : UInt64) (t : SetTime) (old : UInt64 × UInt32) :
    ((t.onto now old).1.toUInt32, (t.onto now old).2) = t.reported now (old.1.toUInt32, old.2) := by
  cases t with
  | dont => rfl
  | server => rfl
  | client sec nsec => simp [SetTime.onto, SetTime.reported]

/-- The arguments of a SETATTR of the node. -/
structure SetsAttrs (v : NfsV3) (m : Msg) (r : Reader) (n : Node) (a : Sattr3) (g : Option (UInt32 × UInt32)) : Prop where
  ok : r.ok = true
  ahead : r.Ahead m (Reader.handle n.id n.snap ++ (a.encode ++ encodeGuard g))
  node : v.fs.nodeById n.id n.snap = some n
  live : n.snap = LATEST
  real : isSnapDir n.id = false

/-- The arguments of a GETATTR of the node. -/
def GetsAttrs (m : Msg) (r : Reader) (n : Node) : Prop := r.ok = true ∧ r.Ahead m (Reader.handle n.id n.snap)

/-- A SETATTR stores one record, that of its node. -/
theorem nfsSetattr_record {g : Option (UInt32 × UInt32)} (ha : SetsAttrs v m r n a g) :
    ∃ old, loadNode v.fs.kv n.id v.fs.cur = some old ∧ Answered (nfsSetattr live h v m r {}) .ok ∧
      (nfsSetattr live h v m r {}).2.2 = { v with fs := v.fs.withNode n.id (a.record v.fs.now old) } := by
  obtain ⟨old, hold⟩ := PrfsStore.load_of_nodeById ha.node ha.live ha.real
  obtain ⟨r', hfh, hr', -⟩ := ha.ahead.fh3 ha.ok
  refine ⟨old, hold, ?_⟩
  have hlive : (!live n.snap) = false := by simp [live, ha.live]
  have hset : ((applySattr m r' (some n) v.fs).2.setAttr n (.ctime (applySattr m r' (some n) v.fs).2.now)) =
      v.fs.withNode n.id (a.record v.fs.now old) := by
    have hone : ∀ fs x, PrfsStore.setAttr fs n x = fs.setAttrs n [x] := fun fs x => rfl
    rw [applySattr_ahead hr', NfsV4.setAttrs_now, hone, ← setAttrs_append, PrfsStore.setAttrs_of_some hold (by simp),
      Sattr3.foldl_setters]
  unfold nfsSetattr
  rw [hfh]
  dsimp only
  rw [ha.node]
  dsimp only
  rw [hlive, if_neg (by simp), hset]
  exact ⟨answered_answer (pre_encodeWcc (.refl _) _ _), rfl⟩

theorem nfsGetattr_eq (hn : v.fs.nodeById n.id n.snap = some n) (hg : GetsAttrs m r n) :
    nfsGetattr h v m r w = answer v ((fattr3 h v.fs n).encode (w.u32 Nfsstat3.ok.code)) := by
  obtain ⟨r', hfh, -, -⟩ := @Reader.Ahead.fh3 m r [] n.id n.snap (by simpa using hg.2) hg.1
  unfold nfsGetattr
  rw [hfh]
  dsimp only
  rw [hn, ← encodeFattr_eq]

/-- A SETATTR of a live node is answered OK; a GETATTR of the node then reports each field that was set as it was given and the
others as they were, and no other node, no earlier version and no name changes. -/
theorem setattr_getattr (hs : PrfsStore.Run .empty v.fs) {g : Option (UInt32 × UInt32)} (ha : SetsAttrs v m r n a g) :
    let v' := (nfsSetattr live h v m r {}).2.2
    Answered (nfsSetattr live h v m r {}) .ok ∧
      (∀ m' r' w, GetsAttrs m' r' n →
        nfsGetattr h v' m' r' w = answer v' ((fattr3 h v'.fs n).encode (w.u32 Nfsstat3.ok.code))) ∧
      fattr3 h v'.fs n = { a.reported v.fs.now (fattr3 h v.fs n) with used := h.usedBytes v'.fs n } ∧
      (a.size = none → h.usedBytes v'.fs n = h.usedBytes v.fs n) ∧
      (∀ o : Node, snapBase o.id ≠ n.id ∨ o.snap < v.fs.cur → v'.fs.attrs o = v.fs.attrs o) ∧
      ∀ g, (viewAt v'.fs.kv g).entry = (viewAt v.fs.kv g).entry := by
  obtain ⟨old, hold, hok, hv⟩ := @nfsSetattr_record h v m r n a g ha
  dsimp only
  rw [hv]
  dsimp only
  have hafter := @PrfsStore.loadNode_withNode v.fs n.id (a.record v.fs.now old)
  have hnode := PrfsStore.nodeById_of_load hafter ha.live ha.real
  have hattrs : v.fs.attrs n = Attrs.of n.id old := PrfsStore.attrs_of_live hold ha.live ha.real
  have hattrs' : PrfsStore.attrs _ n = Attrs.of n.id (a.record v.fs.now old) := PrfsStore.attrs_of_live hafter ha.live ha.real
  refine ⟨hok, fun m' r' w hg => nfsGetattr_eq hnode hg, ?_, ?_, fun o ho => hs.sound.attrs_withNode ho, ?_⟩
  · unfold fattr3 Sattr3.reported
    rw [hattrs, hattrs']
    simp only [Attrs.of, Sattr3.record, SetTime.reported_onto]
    rfl
  · intro hsize
    unfold Host.usedBytes
    rw [hattrs, hattrs']
    simp only [Attrs.of, Sattr3.record, hsize, Option.getD_none]
    rfl
  · intro g
    have hlink : (a.record v.fs.now old).dnLinkVer = old.dnLinkVer := rfl
    exact hs.sound.entry_withNode hold hlink

end Setattr

/-- A SETATTR of the mode and of the modification time, with nanoseconds, of the root. -/
def setMode : Sattr3 := { mode := some 0o700, mtime := .client 1000 123456789 }

def setModeArgs : Msg := ⟨Reader.handle 1 LATEST ++ (setMode.encode ++ encodeGuard none), fun _ => 0, by decide⟩

theorem setattr_getattr_root : fattr3 {} (nfsSetattr live {} ⟨.empty, .empty⟩ setModeArgs {} {}).2.2.fs ⟨1, LATEST⟩ =
    ⟨2, 0o700, 1, 0, 0, 0, 0, (0, 0), 0, 1, (0, 0), (1000, 123456789), (0, 0)⟩ := by
  have ha : SetsAttrs ⟨.empty, .empty⟩ setModeArgs {} ⟨1, LATEST⟩ setMode none :=
    ⟨rfl, ⟨Nat.zero_le _, List.prefix_refl _⟩, by decide, rfl, by decide⟩
  have hrun : PrfsStore.Run .empty .empty := Reaches.refl
  have hreport := (@setattr_getattr {} ⟨.empty, .empty⟩ _ _ _ _ hrun none ha).2.2.1
  rw [hreport]
  decide

end NfsV3

end Prfs
