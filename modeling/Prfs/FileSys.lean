import Prfs.StoreOps
import Prfs.View

namespace Prfs

theorem Setter.keeps (s : Setter) : View.Keeps (fun r => s.apply r) := by
  constructor <;> intro r <;> cases s <;> rfl

namespace View

open Classical in
/-- What a link of `child` under `name` in `dir` answers, from the view alone. -/
noncomputable def linkError (v : View) (dir : UInt64) (name : Bytes) (child : UInt64) : Error :=
  if name = SNAPSHOT_NAME then .INVAL
  else if v.node dir = none then .NOENT
  else if ¬ v.IsDir dir then .NOTDIR
  else if v.node child = none then .NOENT
  else if v.IsDir child ∧ Relation.ReflTransGen v.Edge child dir then .INVAL
  else if v.entry dir name ≠ none then .EXIST
  else .OK

noncomputable def linkOp (v : View) (dir : UInt64) (name : Bytes) (child : UInt64) : Error × View :=
  (v.linkError dir name child,
    if v.linkError dir name child = .OK then v.link dir name child else v)

def unlinkOp (v : View) (dir : UInt64) (name : Bytes) : Error × View :=
  match v.entry dir name with
  | none => (.NOENT, v)
  | some c => (.OK, v.unlink dir name c)

noncomputable def moveOp (v : View) (sdir : UInt64) (sn : Bytes) (ddir : UInt64) (dn : Bytes) : Error × View :=
  match v.entry sdir sn with
  | none => (.NOENT, v)
  | some c =>
    if v.linkError ddir dn c = .OK then (v.link ddir dn c).unlinkOp sdir sn
    else (v.linkError ddir dn c, v)

def setOp (v : View) (id : UInt64) (want : UInt32 → Bool) (f : NodeRec → NodeRec) : Error × View :=
  match v.node id with
  | none => (.NOENT, v)
  | some r => if want r.type then (.OK, v.modify id f) else (.INVAL, v)

/-- The ways a live view changes, each under the guard it is made with. -/
inductive Change : View → View → Prop
  | refl {v : View} : Change v v
  | link {v : View} {dir child : UInt64} {name : Bytes} (h : v.linkError dir name child = .OK) :
      Change v (v.link dir name child)
  | unlink {v : View} {dir child : UInt64} {name : Bytes} (h : v.entry dir name = some child) :
      Change v (v.unlink dir name child)
  | modify {v : View} {id : UInt64} {f : NodeRec → NodeRec} (h : Keeps f) : Change v (v.modify id f)
  | trans {u v w : View} : Change u v → Change v w → Change u w

theorem linkError_ok {v : View} {dir child : UInt64} {name : Bytes} :
    v.linkError dir name child = .OK ↔ name ≠ SNAPSHOT_NAME ∧ v.IsDir dir ∧ (∃ r, v.node child = some r) ∧
      (v.IsDir child → ¬ Relation.ReflTransGen v.Edge child dir) ∧ v.entry dir name = none := by
  have hdir : v.IsDir dir → v.node dir ≠ none := by
    rintro ⟨r, hr, -⟩ hn
    simp [hn] at hr
  constructor
  · intro h
    unfold linkError at h
    have h1 : name ≠ SNAPSHOT_NAME := fun hn => by simp [hn] at h
    have h2 : v.node dir ≠ none := fun hn => by simp [h1, hn] at h
    have h3 : v.IsDir dir := by
      by_contra hn
      simp [h1, h2, hn] at h
    have h4 : v.node child ≠ none := fun hn => by simp [h1, h2, h3, hn] at h
    have h5 : ¬ (v.IsDir child ∧ Relation.ReflTransGen v.Edge child dir) := fun hn => by
      simp [h1, h2, h3, h4, hn] at h
    have h6 : v.entry dir name = none := by
      by_contra hn
      simp [h1, h2, h3, h4, h5, hn] at h
    exact ⟨h1, h3, Option.ne_none_iff_exists'.mp h4, fun hd hp => h5 ⟨hd, hp⟩, h6⟩
  · rintro ⟨h1, h3, ⟨r, h4⟩, h5, h6⟩
    have h5' : ¬ (v.IsDir child ∧ Relation.ReflTransGen v.Edge child dir) := fun hn => h5 hn.1 hn.2
    simp [linkError, h1, hdir h3, h3, h4, h5', h6]

theorem linkOp_change (v : View) (dir child : UInt64) (name : Bytes) :
    Change v (v.linkOp dir name child).2 := by
  unfold linkOp
  split_ifs with h
  · exact .link h
  · exact .refl

theorem unlinkOp_change (v : View) (dir : UInt64) (name : Bytes) : Change v (v.unlinkOp dir name).2 := by
  unfold unlinkOp
  split
  · exact .refl
  · next c h => exact .unlink h

theorem moveOp_change (v : View) (sdir ddir : UInt64) (sn dn : Bytes) :
    Change v (v.moveOp sdir sn ddir dn).2 := by
  unfold moveOp
  split
  · exact .refl
  · next c h =>
    split_ifs with hok
    · exact .trans (.link hok) (unlinkOp_change ..)
    · exact .refl

theorem setOp_change (v : View) (id : UInt64) (want : UInt32 → Bool) {f : NodeRec → NodeRec}
    (hf : Keeps f) : Change v (v.setOp id want f).2 := by
  unfold setOp
  split
  · exact .refl
  · split_ifs
    · exact .modify hf
    · exact .refl

theorem Change.sound {v w : View} (h : Change v w) (hc : v.Consistent) (ha : v.Acyclic) :
    w.Consistent ∧ w.Acyclic := by
  induction h with
  | refl => exact ⟨hc, ha⟩
  | link h =>
    obtain ⟨-, hd, hch, hno, hfree⟩ := linkError_ok.mp h
    exact ⟨hc.link hd hch hfree, ha.link hno⟩
  | unlink h => exact ⟨hc.unlink h, ha.unlink⟩
  | modify h => exact ⟨hc.modify h.type, ha.modify h.type⟩
  | trans _ _ ih1 ih2 =>
    obtain ⟨hc, ha⟩ := ih1 hc ha
    exact ih2 hc ha

theorem Change.types {v w : View} (h : Change v w) (i : UInt64) :
    (w.node i).map NodeRec.type = (v.node i).map NodeRec.type := by
  induction h with
  | refl => rfl
  | link => exact modify_type incLink_type i
  | unlink => exact modify_type decLink_type i
  | modify h => exact modify_type h.type i
  | trans _ _ ih1 ih2 => exact ih2.trans ih1

end View

/-- The versioned file system the store is for: a live view, the views sealed under
it, and the counters. -/
structure FileSys where
  live : View
  past : SnapId → View
  next : UInt64
  cur : SnapId
  clock : UInt64
  config : Bytes
  snaps : SnapId → Option (UInt64 × Bytes)

namespace FileSys

def viewOf (a : FileSys) (g : SnapId) : View := if g < a.cur then a.past g else a.live

/-- A root directory and nothing else; it has one link by fiat. -/
def init : FileSys where
  live :=
    { node := fun id => if id = 1 then some { type := FType.DIR.code, mode := 0o755, nlink := 1 } else none
      entry := fun _ _ => none
      up := fun _ _ _ => False }
  past := fun _ => { node := fun _ => none, entry := fun _ _ => none, up := fun _ _ _ => False }
  next := 2
  cur := 1
  clock := 0
  config := []
  snaps := fun _ => none

def newRec (a : FileSys) (t : FType) (blob : Bytes) (spec : UInt64) : NodeRec :=
  { type := t.code, mode := defaultMode t, spec, blob, atime := a.clock, mtime := a.clock, ctime := a.clock }

def alloc (a : FileSys) (t : FType) (blob : Bytes) (spec : UInt64) : Res × FileSys :=
  (.node ⟨a.next, LATEST⟩,
    { a with live := a.live.alloc a.next (a.newRec t blob spec), next := a.next + 1 })

/-- An operation that changes the live view only. -/
def onLive (a : FileSys) (x : Error × View) : Res × FileSys := (.err x.1, { a with live := x.2 })

noncomputable def exec (a : FileSys) : Op → Res × FileSys
  | .mkdir => a.alloc .DIR [] 0
  | .mkfile c => a.alloc .REG c 0
  | .symlink t => a.alloc .LNK t 0
  | .mkfifo => a.alloc .FIFO [] 0
  | .mksock => a.alloc .SOCK [] 0
  | .mknod t maj min => a.alloc t [] (devSpec maj min)
  | .link dir name child => a.onLive (a.live.linkOp dir.id name child.id)
  | .unlink dir name => a.onLive (a.live.unlinkOp dir.id name)
  | .move sdir sn ddir dn => a.onLive (a.live.moveOp sdir.id sn ddir.id dn)
  | .setContent reg c =>
    a.onLive (a.live.setOp reg.id (fun t => t == FType.REG.code) (fun r => { r with blob := c }))
  | .setTarget lnk t =>
    a.onLive (a.live.setOp lnk.id (fun t => t == FType.LNK.code) (fun r => { r with blob := t }))
  | .setRdev dev maj min =>
    a.onLive (a.live.setOp dev.id (fun t => t == FType.BLK.code || t == FType.CHR.code)
      (fun r => { r with spec := devSpec maj min }))
  | .setContentSeed reg seed =>
    a.onLive (a.live.setOp reg.id (fun t => t == FType.REG.code) (fun r => { r with spec := seed }))
  | .setAttr n s => (.unit, { a with live := a.live.modify n.id (fun r => s.apply r) })
  | .setTime t => (.unit, { a with clock := t })
  | .setContentConfig blob => (.unit, { a with config := blob })
  | .snapshot label =>
    (.snap a.cur,
      { a with
        past := fun g => if g = a.cur then a.live else a.past g
        cur := a.cur + 1
        snaps := fun g => if g = a.cur then some (a.clock, label) else a.snaps g })

end FileSys

end Prfs
