import Prfs.WriteSizes

namespace Prfs

namespace PrfsStore

variable {s : PrfsStore} {n d : Node} {r : NodeRec}

/-- The live record of a node has the time of the clock as its change time. -/
def Stamped (s : PrfsStore) (n : Node) : Prop := ∃ r, loadNode s.kv n.id s.cur = some r ∧ r.ctime = s.now

theorem touchDir_of_some (hr : loadNode s.kv d.id s.cur = some r) :
    touchDir s d = s.withNode d.id { r with mtime := s.now, mtimeNs := 0, ctime := s.now } := by
  rw [touchDir, setAttr_of_some hr, setAttr_of_some loadNode_withNode, withNode_withNode]
  rfl

theorem touchDir_of_none (hr : loadNode s.kv d.id s.cur = none) : touchDir s d = s := by
  rw [touchDir, setAttr_of_none hr, setAttr_of_none hr]

/-- A stamp is two setters. -/
theorem touchDir_eq : touchDir s d = s.setAttrs d [.mtime s.now, .ctime s.now] := rfl

theorem touchDir_now : (touchDir s d).now = s.now := by
  rw [touchDir_eq, NfsV4.setAttrs_now]

theorem loadNode_withNode_ne {id i : UInt64} (hi : i ≠ id) :
    loadNode (s.withNode id r).kv i (s.withNode id r).cur = loadNode s.kv i s.cur := loadNode_storeNode_ne hi r

theorem stamped_touchDir (hr : loadNode s.kv d.id s.cur = some r) : (touchDir s d).Stamped d := by
  rw [touchDir_of_some hr]
  exact ⟨_, loadNode_withNode, rfl⟩

theorem stamped_setAttr (hr : ∃ r, loadNode s.kv n.id s.cur = some r) : (s.setAttr n (.ctime s.now)).Stamped n := by
  obtain ⟨r, hr⟩ := hr
  rw [setAttr_of_some hr]
  exact ⟨_, loadNode_withNode, rfl⟩

theorem setAttr_now (a : Setter) : (s.setAttr n a).now = s.now := @NfsV4.setAttrs_now s n [a]

/-- Another stamp leaves one where it is. -/
theorem Stamped.touchDir (h : s.Stamped n) (d : Node) : (touchDir s d).Stamped n := by
  obtain ⟨x, hx, ht⟩ := h
  cases hd : loadNode s.kv d.id s.cur with
  | none =>
    rw [touchDir_of_none hd]
    exact ⟨x, hx, ht⟩
  | some r =>
    rw [touchDir_of_some hd]
    by_cases hn : n.id = d.id
    · rw [← hn]
      exact ⟨_, loadNode_withNode, rfl⟩
    · exact ⟨x, (loadNode_withNode_ne hn).trans hx, ht⟩

theorem attrs_ctime (hr : loadNode s.kv n.id s.cur = some r) (hl : n.snap = LATEST) (hd : isSnapDir n.id = false) :
    (s.attrs n).ctime = r.ctime := by
  simp [attrs, readNode, hd, rr, hl, hr]

theorem Stamped.ctime (h : s.Stamped n) (hl : n.snap = LATEST) (hd : isSnapDir n.id = false) :
    (s.attrs n).ctime = s.now := by
  obtain ⟨x, hx, ht⟩ := h
  rw [attrs_ctime hx hl hd, ht]

/-- A directory that a link or a move has gone through has a record, in a real id space. -/
theorem Has.load {name : Bytes} {b : Bool} (h : s.Has d.id name b) : ∃ r, loadNode s.kv d.id s.cur = some r := by
  obtain ⟨⟨x, hx, -⟩, -⟩ := h
  exact ⟨x, hx⟩

theorem load_setAttrs {as : List Setter} (h : ∃ r, loadNode s.kv d.id s.cur = some r) :
    ∃ r, loadNode (s.setAttrs n as).kv d.id (s.setAttrs n as).cur = some r := by
  cases hn : loadNode s.kv n.id s.cur with
  | none => rwa [setAttrs_of_none hn]
  | some x =>
    by_cases has : as = []
    · rwa [has]
    · rw [setAttrs_of_some hn has]
      by_cases hd : d.id = n.id
      · rw [hd]
        exact ⟨_, loadNode_withNode⟩
      · rwa [loadNode_withNode_ne hd]

theorem load_touchDir (h : ∃ r, loadNode s.kv d.id s.cur = some r) :
    ∃ r, loadNode (touchDir s n).kv d.id (touchDir s n).cur = some r := by
  rw [touchDir_eq]
  exact load_setAttrs h

/-- Ids of snapshot directories have no record. -/
theorem Sound.loadNode_snapDir (hs : s.Sound) {id : UInt64} (hd : isSnapDir id = true) :
    loadNode s.kv id s.cur = none := by
  cases hr : loadNode s.kv id s.cur with
  | none => rfl
  | some r =>
    have hnode : (viewAt s.kv s.cur).node id = some r.bare := by simp [viewAt, hr]
    rw [hs.not_isSnapDir hnode] at hd
    cases hd

theorem nodeById_of_load (hr : loadNode s.kv n.id s.cur = some r) (hl : n.snap = LATEST) (hd : isSnapDir n.id = false) :
    s.nodeById n.id n.snap = some n := by
  have hex : s.existedAt n.id s.cur = true := Option.isSome_iff_exists.mpr ⟨r, hr⟩
  unfold nodeById
  simp only [hd, Bool.false_eq_true, if_false, rr, hl, if_true, hex]
  rw [← hl]

theorem Sound.next_free (hs : s.Sound) : loadNode s.kv s.next s.cur = none := by
  obtain ⟨a, ha, hi⟩ := hs
  rw [← viewAt_node_none, ha.live, ha.next]
  exact hi.next_free

/-- A new node has the id of no handle that is found. -/
theorem Sound.ne_next (hs : s.Sound) (hn : s.nodeById n.id n.snap = some n) (hl : n.snap = LATEST) : n.id ≠ s.next := by
  intro he
  cases hd : isSnapDir n.id with
  | false =>
    obtain ⟨x, hx⟩ := load_of_nodeById hn hl hd
    rw [he, hs.next_free] at hx
    cases hx
  | true =>
    have hle : s.next ≤ SNAP_BIT := by
      obtain ⟨a, ha, hi⟩ := hs
      rw [ha.next]
      exact hi.next_hi
    have hbit : s.next = SNAP_BIT := by
      refine le_antisymm hle (le_of_not_gt fun hlt => ?_)
      rw [he, isSnapDir_of_lt hlt] at hd
      cases hd
    have hbase : snapBase n.id = 0 := by
      rw [he, hbit]
      decide
    have hex : s.existedAt 0 s.cur = true := by
      by_contra hno
      simp [nodeById, hd, hbase, rr, hl, hno] at hn
    obtain ⟨x, hx⟩ := Option.isSome_iff_exists.mp hex
    exact (hs.known hx).1 rfl

theorem Sound.loadNode_alloc (hs : s.Sound) (hn : s.nodeById n.id n.snap = some n) (hl : n.snap = LATEST) (t : FType)
    (blob : Bytes) (spec : UInt64) : loadNode (s.alloc t blob spec).2.kv n.id s.cur = loadNode s.kv n.id s.cur :=
  loadNode_storeNode_ne (hs.ne_next hn hl) _

/-- A link that succeeds has gone through a directory with a record. -/
theorem load_of_link {child : Node} {name : Bytes} (hok : (s.link d name child).1 = .OK) :
    (∃ r, loadNode s.kv d.id s.cur = some r) ∧ ∃ r, loadNode (s.link d name child).2.kv d.id s.cur = some r := by
  have hlink : s.Linkable d.id name child.id := by
    by_contra hno
    exact (link_of_not_linkable hno).1 hok
  have hhas := (link_of_linkable hlink).2.load
  obtain ⟨-, dr, -, hd, -⟩ := hlink
  exact ⟨⟨dr, hd⟩, hhas⟩

theorem load_of_unlink {name : Bytes} (hok : (s.unlink d name).1 = .OK) :
    (∃ r, loadNode s.kv d.id s.cur = some r) ∧ ∃ r, loadNode (s.unlink d name).2.kv d.id s.cur = some r := by
  have hun : s.Unlinkable d.id name := by
    by_contra hno
    exact (unlink_of_not_unlinkable hno).1 hok
  have hhas := (unlink_of_unlinkable hun).2.load
  obtain ⟨dr, -, hd, -⟩ := hun
  exact ⟨⟨dr, hd⟩, hhas⟩

theorem live_load {id : UInt64} : (∃ r, s.liveView.node id = some r) ↔ ∃ r, loadNode s.kv id s.cur = some r := by
  simp [liveView, viewAt]

/-- So have both directories of a move. -/
theorem load_of_move (hs : s.Sound) {name name' : Bytes} (hok : (s.move n name d name').1 = .OK) {i : UInt64}
    (hi : i = n.id ∨ i = d.id) :
    (∃ r, loadNode s.kv i s.cur = some r) ∧
      ∃ r, loadNode (s.move n name d name').2.kv i (s.move n name d name').2.cur = some r := by
  obtain ⟨c, he, hl, hview⟩ := move_view hs hok
  have hbefore : ∃ r, s.liveView.node i = some r := by
    rcases hi with rfl | rfl
    · obtain ⟨r, hr, -⟩ := (hs.consistent s.cur).dir he
      exact ⟨r, hr⟩
    · obtain ⟨r, hr, -⟩ := (View.linkError_ok.mp hl).2.1
      exact ⟨r, hr⟩
  have hafter : ∃ r, (s.move n name d name').2.liveView.node i = some r := by
    rw [hview, View.unlink_exists_node, View.link_exists_node]
    exact hbefore
  exact ⟨live_load.mp hbefore, live_load.mp hafter⟩

theorem move_now {name name' : Bytes} : (s.move n name d name').2.now = s.now := by
  unfold move
  split
  · rfl
  · split
    · rfl
    · split <;> rfl

/-- A new node linked into a directory that is stamped last. -/
theorem Sound.stamped_of_made (hs : s.Sound) (hn : s.nodeById d.id d.snap = some d) (hl : d.snap = LATEST) {t : FType}
    {blob name : Bytes} {spec : UInt64} (hok : ((s.alloc t blob spec).2.link d name (s.alloc t blob spec).1).1 = .OK)
    (as : List Setter) :
    let u := touchDir (((s.alloc t blob spec).2.link d name (s.alloc t blob spec).1).2.setAttrs (s.alloc t blob spec).1 as) d
    u.Stamped d ∧ u.now = s.now ∧ isSnapDir d.id = false := by
  obtain ⟨hbefore, hafter⟩ := load_of_link hok
  have hload : ∃ r, loadNode s.kv d.id s.cur = some r := by
    rw [← hs.loadNode_alloc hn hl t blob spec]
    exact hbefore
  refine ⟨?_, ?_, ?_⟩
  · obtain ⟨r, hr⟩ := @load_setAttrs _ (s.alloc t blob spec).1 _ as hafter
    exact stamped_touchDir hr
  · rw [touchDir_now, NfsV4.setAttrs_now]
    rfl
  · by_contra hd
    rw [hs.loadNode_snapDir (by simpa using hd)] at hload
    simp at hload

end PrfsStore

end Prfs
