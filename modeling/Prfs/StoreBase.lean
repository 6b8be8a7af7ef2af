import Prfs.StoreWrites

namespace Prfs

/-- A record without its link-set versions: what a view shows of a node. -/
def NodeRec.bare (r : NodeRec) : NodeRec := { r with dnLinkVer := 0, upLinkVer := 0 }

/-- What the tables say at view `g`. -/
def viewAt (kv : Data) (g : SnapId) : View where
  node id := (loadNode kv id g).map NodeRec.bare
  entry d n := (loadNode kv d g).bind (fun r => dnAt kv d r.dnLinkVer n)
  up c d n := ∃ r, loadNode kv c g = some r ∧ upAt kv c r.upLinkVer d n

/-- The versions in the tables: no record is newer than `cur`, a record's link sets
are no newer than the record, and no link set is newer than the live record's. -/
structure Base (cur : SnapId) (kv : Data) : Prop where
  wf : kv.Wf
  rec_le : ∀ {id v r}, recAt kv id v = some r → v ≤ cur ∧ r.dnLinkVer ≤ v ∧ r.upLinkVer ≤ v
  dn_le : ∀ {d v n c}, dnAt kv d v n = some c → ∃ r, loadNode kv d cur = some r ∧ v ≤ r.dnLinkVer
  up_le : ∀ {c v x}, upRaw kv c v x → ∃ r, loadNode kv c cur = some r ∧ v ≤ r.upLinkVer
  ch : ∀ {id v r}, recAt kv id v = some r → chAt kv v id

/-- Nothing under a version other than `cur` differs. -/
structure Frame (cur : SnapId) (kv kv' : Data) : Prop where
  recs : ∀ {id v}, v ≠ cur → recAt kv' id v = recAt kv id v
  dns : ∀ {d v n}, v ≠ cur → dnAt kv' d v n = dnAt kv d v n
  ups : ∀ {c v x}, v ≠ cur → (upRaw kv' c v x ↔ upRaw kv c v x)
  chs : ∀ {v id}, v ≠ cur → (chAt kv' v id ↔ chAt kv v id)
  metaKv : kv'.metaKv = kv.metaKv
  snaps : kv'.snaps = kv.snaps

namespace Frame

variable {cur : SnapId} {kv kv' kv'' : Data}

theorem refl : Frame cur kv kv :=
  ⟨fun _ => rfl, fun _ => rfl, fun _ => Iff.rfl, fun _ => Iff.rfl, rfl, rfl⟩

theorem trans (h : Frame cur kv kv') (h' : Frame cur kv' kv'') : Frame cur kv kv'' :=
  ⟨fun hv => (h'.recs hv).trans (h.recs hv), fun hv => (h'.dns hv).trans (h.dns hv),
    fun hv => (h'.ups hv).trans (h.ups hv), fun hv => (h'.chs hv).trans (h.chs hv),
    h'.metaKv.trans h.metaKv, h'.snaps.trans h.snaps⟩

theorem storeNode (id : UInt64) (r : NodeRec) : Frame cur kv (Prfs.storeNode kv id cur r) :=
  ⟨fun hv => by simp [recAt_storeNode, hv], fun _ => rfl, fun _ => Iff.rfl,
    fun hv => by simp [chAt_storeNode, hv], rfl, rfl⟩

theorem putDown (dir : UInt64) (name : Bytes) (c : UInt64) :
    Frame cur kv (Prfs.putDown kv (be dir ++ be cur ++ name) (be c)) :=
  ⟨fun _ => rfl, fun hv => by rw [dnAt_putDown]; simp [hv], fun _ => Iff.rfl, fun _ => Iff.rfl, rfl, rfl⟩

theorem delDown (dir : UInt64) (name : Bytes) :
    Frame cur kv (Prfs.delDown kv (be dir ++ be cur ++ name)) :=
  ⟨fun _ => rfl, fun hv => by rw [dnAt_delDown]; simp [hv], fun _ => Iff.rfl, fun _ => Iff.rfl, rfl, rfl⟩

theorem putUp (node : UInt64) (x : Bytes) : Frame cur kv (Prfs.putUp kv (be node ++ be cur ++ x)) :=
  ⟨fun _ => rfl, fun _ => rfl, fun hv => by rw [upRaw_putUp]; simp [hv], fun _ => Iff.rfl, rfl, rfl⟩

theorem delUp (node : UInt64) (x : Bytes) : Frame cur kv (Prfs.delUp kv (be node ++ be cur ++ x)) :=
  ⟨fun _ => rfl, fun _ => rfl, fun hv => by rw [upRaw_delUp]; simp [hv], fun _ => Iff.rfl, rfl, rfl⟩

end Frame

namespace Base

variable {cur : SnapId} {kv : Data}

theorem loadNode_le (h : Base cur kv) {id : UInt64} {g : SnapId} {r : NodeRec}
    (hr : loadNode kv id g = some r) : r.dnLinkVer ≤ g ∧ r.upLinkVer ≤ g := by
  obtain ⟨v, hv, hrec, -⟩ := (loadNode_eq_some_iff h.wf).mp hr
  obtain ⟨-, h1, h2⟩ := h.rec_le hrec
  exact ⟨le_trans h1 hv, le_trans h2 hv⟩

/-- Every view from the current snapshot on shows the live tree. -/
theorem loadNode_live (h : Base cur kv) {id : UInt64} {g : SnapId} (hg : cur ≤ g) :
    loadNode kv id g = loadNode kv id cur := by
  refine (loadNode_eq_of_no_rec h.wf hg fun v hv _ => ?_).symm
  cases hr : recAt kv id v with
  | none => rfl
  | some r => exact absurd (h.rec_le hr).1 (not_le.mpr hv)

theorem viewAt_live (h : Base cur kv) {g : SnapId} (hg : cur ≤ g) : viewAt kv g = viewAt kv cur := by
  simp only [viewAt, h.loadNode_live hg]

theorem loadNode_storeNode (h : Base cur kv) (id : UInt64) (r : NodeRec) (i : UInt64) (g : SnapId) :
    loadNode (Prfs.storeNode kv id cur r) i g =
      if i = id ∧ cur ≤ g then some r else loadNode kv i g := by
  have hw := h.wf.storeNode id cur r
  split_ifs with hc
  · obtain ⟨rfl, hg⟩ := hc
    refine (loadNode_eq_some_iff hw).mpr ⟨cur, hg, by simp [recAt_storeNode], fun w hw' _ => ?_⟩
    have hne : w ≠ cur := ne_of_gt hw'
    cases hr : recAt kv i w with
    | none => simp [recAt_storeNode, hne, hr]
    | some r' => exact absurd (h.rec_le hr).1 (not_le.mpr hw')
  · refine loadNode_congr hw h.wf fun v hv => ?_
    have hne : ¬ (i = id ∧ v = cur) := by
      rintro ⟨hi, rfl⟩
      exact hc ⟨hi, hv⟩
    simp [recAt_storeNode, hne]

theorem loadNode_storeNode_live (h : Base cur kv) (id : UInt64) (r : NodeRec) (i : UInt64) :
    loadNode (Prfs.storeNode kv id cur r) i cur = if i = id then some r else loadNode kv i cur := by
  simp [h.loadNode_storeNode]

/-- A record may be stored when it keeps or advances the node's link-set versions. -/
theorem storeNode (h : Base cur kv) {id : UInt64} {r : NodeRec} (hd : r.dnLinkVer ≤ cur)
    (hu : r.upLinkVer ≤ cur)
    (hold : ∀ old, loadNode kv id cur = some old →
      old.dnLinkVer ≤ r.dnLinkVer ∧ old.upLinkVer ≤ r.upLinkVer) :
    Base cur (Prfs.storeNode kv id cur r) := by
  refine ⟨h.wf.storeNode id cur r, fun {i v q} hq => ?_, fun {d v n c} hc => ?_,
    fun {c v x} hx => ?_, fun {i v q} hq => ?_⟩
  · rw [recAt_storeNode] at hq
    split_ifs at hq with hiv
    · obtain rfl := Option.some.inj hq
      exact ⟨le_of_eq hiv.2, hiv.2 ▸ hd, hiv.2 ▸ hu⟩
    · exact h.rec_le hq
  · obtain ⟨q, hq, hle⟩ := h.dn_le hc
    rw [h.loadNode_storeNode_live]
    split_ifs with hdi
    · exact ⟨r, rfl, le_trans hle (hold q (hdi ▸ hq)).1⟩
    · exact ⟨q, hq, hle⟩
  · obtain ⟨q, hq, hle⟩ := h.up_le hx
    rw [h.loadNode_storeNode_live]
    split_ifs with hdi
    · exact ⟨r, rfl, le_trans hle (hold q (hdi ▸ hq)).2⟩
    · exact ⟨q, hq, hle⟩
  · rw [chAt_storeNode]
    rw [recAt_storeNode] at hq
    split_ifs at hq with hiv
    · exact Or.inl hiv.symm
    · exact Or.inr (h.ch hq)

theorem putDown (h : Base cur kv) {dir : UInt64} {r : NodeRec} (hr : loadNode kv dir cur = some r)
    (hv : r.dnLinkVer = cur) (name : Bytes) (c : UInt64) :
    Base cur (Prfs.putDown kv (be dir ++ be cur ++ name) (be c)) := by
  refine ⟨h.wf.putDown dir cur name c, h.rec_le, fun {d v n c'} hc => ?_, h.up_le, h.ch⟩
  rw [dnAt_putDown] at hc
  split_ifs at hc with hd
  · obtain ⟨⟨rfl, rfl⟩, -⟩ := hd
    exact ⟨r, hr, le_of_eq hv.symm⟩
  · exact h.dn_le hc

theorem putUp (h : Base cur kv) {node : UInt64} {r : NodeRec} (hr : loadNode kv node cur = some r)
    (hv : r.upLinkVer = cur) (dir : UInt64) (name : Bytes) :
    Base cur (Prfs.putUp kv (be node ++ be cur ++ (be dir ++ name))) := by
  refine ⟨h.wf.putUp node cur dir name, h.rec_le, h.dn_le, fun {c v x} hx => ?_, h.ch⟩
  rcases (upRaw_putUp ..).mp hx with ⟨⟨rfl, rfl⟩, -⟩ | hx
  · exact ⟨r, hr, le_of_eq hv.symm⟩
  · exact h.up_le hx

theorem delDown (h : Base cur kv) (dir : UInt64) (name : Bytes) :
    Base cur (Prfs.delDown kv (be dir ++ be cur ++ name)) := by
  refine ⟨h.wf.delDown _, h.rec_le, fun {d v n c} hc => ?_, h.up_le, h.ch⟩
  rw [dnAt_delDown] at hc
  split_ifs at hc
  exact h.dn_le hc

theorem delUp (h : Base cur kv) (node : UInt64) (x : Bytes) :
    Base cur (Prfs.delUp kv (be node ++ be cur ++ x)) := by
  refine ⟨h.wf.delUp _, h.rec_le, h.dn_le, fun {c v y} hy => ?_, h.ch⟩
  exact h.up_le ((upRaw_delUp ..).mp hy).2

end Base

/-- Sealed views do not see writes under the current version. -/
theorem Frame.viewAt_sealed {cur : SnapId} {kv kv' : Data} (h : Frame cur kv kv') (hb : Base cur kv)
    (hw : kv'.Wf) {g : SnapId} (hg : g < cur) : viewAt kv' g = viewAt kv g := by
  have hload : ∀ id, loadNode kv' id g = loadNode kv id g := fun id =>
    loadNode_congr hw hb.wf fun v hv => h.recs (ne_of_lt (lt_of_le_of_lt hv hg))
  ext d n c
  · simp [viewAt, hload]
  · simp only [viewAt, hload]
    cases hr : loadNode kv d g with
    | none => rfl
    | some r =>
      have hlt : r.dnLinkVer ≠ cur := ne_of_lt (lt_of_le_of_lt (hb.loadNode_le hr).1 hg)
      simp [h.dns hlt]
  · simp only [viewAt, hload, upAt_iff_raw]
    refine exists_congr fun r => and_congr_right fun hr => h.ups ?_
    exact ne_of_lt (lt_of_le_of_lt (hb.loadNode_le hr).2 hg)

/-- The tables moved on to `kv'`: sealed versions are untouched and the live view
became `v`. -/
structure Updates (cur : SnapId) (kv kv' : Data) (v : View) : Prop where
  base : Base cur kv'
  frame : Frame cur kv kv'
  live : viewAt kv' cur = v

theorem Updates.trans {cur : SnapId} {kv kv' kv'' : Data} {v w : View} (h : Updates cur kv kv' v)
    (h' : Updates cur kv' kv'' w) : Updates cur kv kv'' w :=
  ⟨h'.base, h.frame.trans h'.frame, h'.live⟩

end Prfs
