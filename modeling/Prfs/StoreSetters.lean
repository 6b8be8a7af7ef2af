import Prfs.StoreChanges

namespace Prfs

theorem storeNode_storeNode (kv : Data) (id : UInt64) (cur : SnapId) (r r' : NodeRec) :
    storeNode (storeNode kv id cur r) id cur r' = storeNode kv id cur r' := by
  simp [storeNode, OrdMap.put_put]

namespace PrfsStore

variable {s : PrfsStore} {n : Node}

/-- The setters of one handle, in order. -/
def setAttrs (s : PrfsStore) (n : Node) (as : List Setter) : PrfsStore := as.foldl (fun s a => s.setAttr n a) s

/-- The store has gone through setters of the handle only. -/
def Sets (n : Node) (s t : PrfsStore) : Prop := ∃ as, t = s.setAttrs n as

theorem Sets.trans {t u : PrfsStore} (h : Sets n s t) (h' : Sets n t u) : Sets n s u := by
  obtain ⟨as, rfl⟩ := h
  obtain ⟨bs, rfl⟩ := h'
  exact ⟨as ++ bs, by simp [setAttrs]⟩

theorem setAttr_next (a : Setter) : (s.setAttr n a).next = s.next := by
  unfold setAttr mutateNode
  split <;> rfl

theorem Sets.next {t : PrfsStore} (h : Sets n s t) : t.next = s.next := by
  obtain ⟨as, rfl⟩ := h
  unfold setAttrs
  induction as generalizing s with
  | nil => rfl
  | cons a as ih => rw [List.foldl_cons, ih, setAttr_next]

/-- The store with another record of a node. -/
def withNode (s : PrfsStore) (id : UInt64) (r : NodeRec) : PrfsStore := { s with kv := storeNode s.kv id s.cur r }

theorem withNode_withNode {id : UInt64} {r r' : NodeRec} : (s.withNode id r).withNode id r' = s.withNode id r' := by
  simp [withNode, storeNode_storeNode]

theorem loadNode_withNode {id : UInt64} {r : NodeRec} :
    loadNode (s.withNode id r).kv id (s.withNode id r).cur = some r := loadNode_storeNode_self id r

theorem setAttr_of_some {r : NodeRec} (hr : loadNode s.kv n.id s.cur = some r) (a : Setter) :
    s.setAttr n a = s.withNode n.id (a.apply r) := by
  simp [setAttr, mutateNode, hr, withNode]

theorem setAttr_of_none (hr : loadNode s.kv n.id s.cur = none) (a : Setter) : s.setAttr n a = s := by
  simp [setAttr, mutateNode, hr]

theorem setAttrs_of_none (hr : loadNode s.kv n.id s.cur = none) (as : List Setter) : s.setAttrs n as = s := by
  unfold setAttrs
  induction as with
  | nil => rfl
  | cons a as ih => rw [List.foldl_cons, setAttr_of_none hr, ih]

/-- A row of setters stores one record. -/
theorem setAttrs_of_some {r : NodeRec} (hr : loadNode s.kv n.id s.cur = some r) {as : List Setter} (hne : as ≠ []) :
    s.setAttrs n as = s.withNode n.id (as.foldl Setter.apply r) := by
  unfold setAttrs
  induction as generalizing s r with
  | nil => exact absurd rfl hne
  | cons a as ih =>
    rw [List.foldl_cons, List.foldl_cons, setAttr_of_some hr]
    cases as with
    | nil => rfl
    | cons b bs => rw [ih loadNode_withNode (by simp), withNode_withNode]

/-- The record of a file once the data of a WRITE has gone into it. -/
def written (s : PrfsStore) (n : Node) (off : UInt64) (data : Bytes) (r : NodeRec) : NodeRec :=
  let r := if r.type = FType.REG.code then { r with spec := mixSeed (s.attrs n).contentSeed off data } else r
  let stop := off + UInt64.ofNat data.length
  let r := if r.size < stop then { r with size := stop } else r
  { r with mtime := s.now, mtimeNs := 0 }

theorem attrs_size {r : NodeRec} (hr : loadNode s.kv n.id s.cur = some r) (hl : n.snap = LATEST)
    (hd : isSnapDir n.id = false) : (s.attrs n).size = r.size := by
  simp [attrs, readNode, hd, rr, hl, hr]

theorem setContentSeed_of_some {r : NodeRec} (hr : loadNode s.kv n.id s.cur = some r) (seed : UInt64) :
    (s.setContentSeed n seed).2 = if r.type = FType.REG.code then s.withNode n.id { r with spec := seed } else s := by
  simp only [setContentSeed, guardedSet, hr, beq_iff_eq]
  split_ifs <;> rfl

/-- The size and the time, over a record that is there. -/
theorem resize_of_some {r : NodeRec} (hr : loadNode s.kv n.id s.cur = some r) (hl : n.snap = LATEST)
    (hd : isSnapDir n.id = false) (stop : UInt64) :
    let t := if (s.attrs n).size < stop then s.setAttr n (.size stop) else s
    t.setAttr n (.mtime t.now) =
      s.withNode n.id { (if r.size < stop then { r with size := stop } else r) with mtime := s.now, mtimeNs := 0 } := by
  rw [attrs_size hr hl hd]
  dsimp only
  split_ifs
  · rw [setAttr_of_some hr, setAttr_of_some loadNode_withNode, withNode_withNode]
    rfl
  · rw [setAttr_of_some hr]
    rfl

theorem writeData_of_some {off : UInt64} {data : Bytes} {r : NodeRec} (hr : loadNode s.kv n.id s.cur = some r)
    (hl : n.snap = LATEST) (hd : isSnapDir n.id = false) :
    writeData s n off data = s.withNode n.id (s.written n off data r) := by
  unfold writeData written
  dsimp only
  rw [setContentSeed_of_some hr]
  by_cases ht : r.type = FType.REG.code
  · rw [if_pos ht, if_pos ht]
    have hr' := @loadNode_withNode s n.id { r with spec := mixSeed (s.attrs n).contentSeed off data }
    refine (resize_of_some hr' hl hd (off + UInt64.ofNat data.length)).trans ?_
    rw [withNode_withNode]
    rfl
  · rw [if_neg ht, if_neg ht]
    exact resize_of_some hr hl hd _

end PrfsStore

end Prfs
