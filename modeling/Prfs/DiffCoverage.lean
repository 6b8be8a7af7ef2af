import Prfs.NodeDiffs

namespace Prfs

namespace FileSys

variable {a b : FileSys}

/-- A node is of one type in all the views it is in. -/
def Typed (a : FileSys) : Prop :=
  ∀ g id r, (a.viewOf g).node id = some r → (a.live.node id).map NodeRec.type = some r.type

theorem Typed.init : FileSys.init.Typed := by
  intro g id r hr
  simp only [viewOf] at hr
  split_ifs at hr
  · simp [FileSys.init] at hr
  · rw [hr, Option.map_some]

/-- A change of the live view that retypes no node. -/
theorem Typed.of_live (h : a.Typed) (hcur : b.cur = a.cur) (hpast : b.past = a.past)
    (hlive : ∀ id r, a.live.node id = some r → (b.live.node id).map NodeRec.type = some r.type) : b.Typed := by
  refine Inv.forall_viewOf (P := fun v => ∀ id r, v.node id = some r → (b.live.node id).map NodeRec.type = some r.type)
    hcur hpast (fun g id r hr => ?_) (fun id r hr => by rw [hr, Option.map_some])
  obtain ⟨q, hq, ht⟩ := Option.map_eq_some_iff.mp (h g id r hr)
  rw [← ht]
  exact hlive id q hq

theorem Typed.change (h : a.Typed) {w : View} (hc : View.Change a.live w) : Typed { a with live := w } := by
  refine h.of_live rfl rfl fun id r hr => ?_
  rw [hc.types id, hr, Option.map_some]

theorem Typed.alloc (h : a.Typed) (hi : a.Inv) (t : FType) (blob : Bytes) (spec : UInt64) :
    (a.alloc t blob spec).2.Typed := by
  refine h.of_live rfl rfl fun id r hr => ?_
  have hne : id ≠ a.next := by
    rintro rfl
    rw [hi.next_free] at hr
    cases hr
  simp only [FileSys.alloc, View.alloc, if_neg hne, hr, Option.map_some]

theorem Typed.exec (h : a.Typed) (hi : a.Inv) {op : Op} (hf : op.Fits a.next a.cur) : (a.exec op).2.Typed := by
  cases op with
  | mkdir => exact h.alloc hi _ _ _
  | mkfile c => exact h.alloc hi _ _ _
  | symlink t => exact h.alloc hi _ _ _
  | mkfifo => exact h.alloc hi _ _ _
  | mksock => exact h.alloc hi _ _ _
  | mknod t maj min => exact h.alloc hi _ _ _
  | link dir name child => exact h.change (View.linkOp_change ..)
  | unlink dir name => exact h.change (View.unlinkOp_change ..)
  | move sdir sn ddir dn => exact h.change (View.moveOp_change ..)
  | setContent reg c => exact h.change (View.setOp_change _ _ _ ⟨fun _ => rfl, fun _ => rfl⟩)
  | setTarget lnk t => exact h.change (View.setOp_change _ _ _ ⟨fun _ => rfl, fun _ => rfl⟩)
  | setRdev dev maj min => exact h.change (View.setOp_change _ _ _ ⟨fun _ => rfl, fun _ => rfl⟩)
  | setContentSeed reg seed => exact h.change (View.setOp_change _ _ _ ⟨fun _ => rfl, fun _ => rfl⟩)
  | setAttr n s => exact h.change (.modify s.keeps)
  | setTime t => exact h
  | setContentConfig blob => exact h
  | snapshot label =>
    intro g id r hr
    rw [Inv.viewOf_snapshot hf] at hr
    exact h g id r hr

end FileSys

/-- What a client sees of a node, its access and change times apart. -/
structure Attrs.Same (x y : Attrs) : Prop where
  mode : x.mode = y.mode
  uid : x.uid = y.uid
  gid : x.gid = y.gid
  size : x.size = y.size
  content : x.content = y.content
  target : x.target = y.target
  rdev : x.rdev = y.rdev
  contentSeed : x.contentSeed = y.contentSeed
  mtime : x.mtime = y.mtime
  mtimeNsec : x.mtimeNsec = y.mtimeNsec

/-- The fields that `diffNodes` compares are equal. -/
def Unchanged (x y : NodeRec) : Prop :=
  (x.blob = y.blob ∧ x.spec = y.spec ∧ x.size = y.size) ∧
    x.mode = y.mode ∧ x.uid = y.uid ∧ x.gid = y.gid ∧ x.mtime = y.mtime

theorem nodeChange_live_none {x y : NodeRec} (hx : 0 < x.nlink) (hy : 0 < y.nlink) :
    nodeChange (some x) (some y) = none ↔ Unchanged x y := by
  simp only [nodeChange, Option.any_some, hx, hy, decide_true, Option.getD_some, Unchanged]
  split_ifs with h1 h2 h3 h4 h5
  · simp at h1
  · simp at h2
  · simp at h3
  · simp only [false_iff]
    tauto
  · simp only [false_iff]
    tauto
  · simp only [true_iff]
    tauto

/-- Equal fields show equal, as the types are equal too. -/
theorem Unchanged.same {x y : NodeRec} (h : Unchanged x y) (ht : x.type = y.type) (hns : x.mtimeNs = y.mtimeNs)
    (id : UInt64) : (Attrs.of id x).Same (Attrs.of id y) := by
  obtain ⟨⟨hblob, hspec, hsize⟩, hmode, huid, hgid, hmtime⟩ := h
  constructor <;> simp only [Attrs.of, hblob, hspec, ht] <;> assumption

namespace PrfsStore

variable {s : PrfsStore}

theorem Run.typed (h : Run empty s) : ∃ a, Refines s a ∧ a.Typed := by
  have hinv : ∃ a, (Refines s a ∧ a.Inv) ∧ a.Typed := by
    refine Reaches.invariant (P := fun s => ∃ a, (Refines s a ∧ a.Inv) ∧ a.Typed) ?_ ⟨_, ⟨.empty, .init⟩, .init⟩ h
    rintro t op ⟨a, ⟨hr, hi⟩, ht⟩ hf
    have hf' : op.Fits a.next a.cur := by
      rw [← hr.next, ← hr.cur]
      exact hf
    exact ⟨_, ⟨(hr.exec hi _ hf).2, hi.exec hf'⟩, ht.exec hi hf'⟩
  obtain ⟨a, ⟨hr, -⟩, ht⟩ := hinv
  exact ⟨a, hr, ht⟩

theorem type_eq (hs : Run empty s) {g g' : SnapId} {id : UInt64} {x y : NodeRec} (hx : loadNode s.kv id g = some x)
    (hy : loadNode s.kv id g' = some y) : x.type = y.type := by
  obtain ⟨a, hr, ht⟩ := hs.typed
  have hview : ∀ {g r}, loadNode s.kv id g = some r → (a.live.node id).map NodeRec.type = some r.type := by
    intro g r hl
    refine ht g id r.bare ?_
    rw [← hr.viewAt_eq]
    simp [viewAt, hl]
  exact Option.some.inj ((hview hx).symm.trans (hview hy))

theorem attrs_of_load {id : UInt64} {g : SnapId} {x : NodeRec} (hid : isSnapDir id = false)
    (hx : loadNode s.kv id (s.rr g) = some x) : s.attrs ⟨id, g⟩ = Attrs.of id x := by
  rw [attrs_eq hid]
  simp only [viewAt, hx, Option.map_some, Option.getD_some]
  rfl

/-- A node that is live at both of two views and not reported as changed shows the same at both, unless only the
nanoseconds of its modification time have changed. -/
theorem diff_covers_iff (hs : Run empty s) {a b : SnapId} (hab : s.rr a ≤ s.rr b) {id : UInt64} {x y : NodeRec}
    (hx : loadNode s.kv id (s.rr a) = some x ∧ 0 < x.nlink) (hy : loadNode s.kv id (s.rr b) = some y ∧ 0 < y.nlink) :
    ((∀ c, ⟨id, c⟩ ∉ s.diffNodes a b) → (s.attrs ⟨id, a⟩).Same (s.attrs ⟨id, b⟩)) ↔
      (Unchanged x y → x.mtimeNs = y.mtimeNs) := by
  have hss := hs.sound
  have hid : isSnapDir id = false := by
    refine hss.not_isSnapDir (g := s.rr a) (r := x.bare) ?_
    simp [viewAt, hx.1]
  have hreport : (∀ c, ⟨id, c⟩ ∉ s.diffNodes a b) ↔ Unchanged x y := by
    simp only [(diffNodes_diffs hss.base hss.cur_lt hab).mem, viewAt, nodeChange_bare, hx.1, hy.1]
    rw [← nodeChange_live_none hx.2 hy.2, Option.eq_none_iff_forall_ne_some]
  rw [hreport, attrs_of_load hid hx.1, attrs_of_load hid hy.1]
  refine forall_congr' fun hsame => ⟨fun h => h.mtimeNsec, fun hns => ?_⟩
  exact hsame.same (type_eq hs hx.1 hy.1) hns id

/-- A file that is given away and taken back after a snapshot. -/
def reowned : PrfsStore :=
  empty.after [.mkfile [], .link ⟨1, LATEST⟩ [97] ⟨2, LATEST⟩, .snapshot [], .setAttr ⟨2, LATEST⟩ (.uid 7),
    .setAttr ⟨2, LATEST⟩ (.uid 0)]

theorem diff_covers_iff_reowned : (reowned.attrs ⟨2, 1⟩).Same (reowned.attrs ⟨2, LATEST⟩) := by
  have hrun : Run empty reowned := run_after (by decide)
  have hnil : reowned.diffNodes 1 LATEST = [] := by decide
  obtain ⟨x, hx, hx0, y, hy, hy0, hns⟩ : ∃ x, loadNode reowned.kv 2 1 = some x ∧ 0 < x.nlink ∧
      ∃ y, loadNode reowned.kv 2 2 = some y ∧ 0 < y.nlink ∧ x.mtimeNs = y.mtimeNs :=
    ⟨_, rfl, by decide, _, rfl, by decide, by decide⟩
  refine (diff_covers_iff hrun (a := 1) (b := LATEST) (by decide) ⟨hx, hx0⟩ ⟨hy, hy0⟩).mpr (fun _ => hns) fun c hc => ?_
  rw [hnil] at hc
  cases hc

/-- A file whose modification time is changed by nanoseconds after a snapshot. -/
def retimed : PrfsStore :=
  empty.after [.mkfile [], .link ⟨1, LATEST⟩ [97] ⟨2, LATEST⟩, .snapshot [], .setAttr ⟨2, LATEST⟩ (.mtimeNsec 5)]

theorem nanoseconds_missed :
    Run empty retimed ∧ (retimed.attrs ⟨2, 1⟩).nlink = 1 ∧ (retimed.attrs ⟨2, LATEST⟩).nlink = 1 ∧
      retimed.diffNodes 1 LATEST = [] ∧ ¬ (retimed.attrs ⟨2, 1⟩).Same (retimed.attrs ⟨2, LATEST⟩) := by
  refine ⟨run_after (by decide), by decide, by decide, by decide, fun h => ?_⟩
  have hns := h.mtimeNsec
  revert hns
  decide

end PrfsStore

end Prfs
