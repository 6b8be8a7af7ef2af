import Prfs.StoreTables
import Prfs.View

namespace Prfs

def upRaw (kv : Data) (node ver : UInt64) (x : Bytes) : Prop :=
  (kv.upLinks.get (be node ++ be ver ++ x)).isSome

theorem upAt_iff_raw {kv : Data} {node ver dir : UInt64} {name : Bytes} :
    upAt kv node ver dir name ↔ upRaw kv node ver (be dir ++ name) := by
  simp only [upAt, upRaw, List.append_assoc]

theorem recAt_storeNode (kv : Data) (id : UInt64) (snap : SnapId) (r : NodeRec) (i : UInt64) (v : SnapId) :
    recAt (storeNode kv id snap r) i v = if i = id ∧ v = snap then some r else recAt kv i v := by
  simp only [recAt, storeNode, OrdMap.get_put, key2_inj]
  split_ifs <;> simp

@[simp] theorem dnAt_storeNode (kv : Data) (id : UInt64) (snap : SnapId) (r : NodeRec) :
    dnAt (storeNode kv id snap r) = dnAt kv := rfl

@[simp] theorem upRaw_storeNode (kv : Data) (id : UInt64) (snap : SnapId) (r : NodeRec) :
    upRaw (storeNode kv id snap r) = upRaw kv := rfl

theorem chAt_storeNode (kv : Data) (id : UInt64) (snap : SnapId) (r : NodeRec) (v : SnapId) (i : UInt64) :
    chAt (storeNode kv id snap r) v i ↔ (v = snap ∧ i = id) ∨ chAt kv v i := by
  simp only [chAt, storeNode, OrdMap.get_put, key2_inj]
  split_ifs with h <;> simp [h]

theorem dnAt_putDown (kv : Data) (dir ver : UInt64) (name : Bytes) (c d v : UInt64) (n : Bytes) :
    dnAt (putDown kv (be dir ++ be ver ++ name) (be c)) d v n =
      if (d = dir ∧ v = ver) ∧ n = name then some c else dnAt kv d v n := by
  simp only [dnAt, putDown, OrdMap.get_put, key3_inj]
  split_ifs <;> simp

theorem dnAt_delDown (kv : Data) (dir ver : UInt64) (name : Bytes) (d v : UInt64) (n : Bytes) :
    dnAt (delDown kv (be dir ++ be ver ++ name)) d v n =
      if (d = dir ∧ v = ver) ∧ n = name then none else dnAt kv d v n := by
  simp only [dnAt, delDown, OrdMap.get_del, key3_inj]
  split_ifs <;> simp

theorem upRaw_putUp (kv : Data) (node ver : UInt64) (x : Bytes) (m v : UInt64) (y : Bytes) :
    upRaw (putUp kv (be node ++ be ver ++ x)) m v y ↔
      ((m = node ∧ v = ver) ∧ y = x) ∨ upRaw kv m v y := by
  simp only [upRaw, putUp, OrdMap.get_put, key3_inj]
  split_ifs with h <;> simp [h]

theorem upRaw_delUp (kv : Data) (node ver : UInt64) (x : Bytes) (m v : UInt64) (y : Bytes) :
    upRaw (delUp kv (be node ++ be ver ++ x)) m v y ↔
      ¬ ((m = node ∧ v = ver) ∧ y = x) ∧ upRaw kv m v y := by
  simp only [upRaw, delUp, OrdMap.get_del, key3_inj]
  split_ifs with h <;> simp [h]

@[simp] theorem recAt_putDown (kv : Data) (k v : Bytes) : recAt (putDown kv k v) = recAt kv := rfl
@[simp] theorem recAt_delDown (kv : Data) (k : Bytes) : recAt (delDown kv k) = recAt kv := rfl
@[simp] theorem recAt_putUp (kv : Data) (k : Bytes) : recAt (putUp kv k) = recAt kv := rfl
@[simp] theorem recAt_delUp (kv : Data) (k : Bytes) : recAt (delUp kv k) = recAt kv := rfl
@[simp] theorem chAt_putDown (kv : Data) (k v : Bytes) : chAt (putDown kv k v) = chAt kv := rfl
@[simp] theorem chAt_delDown (kv : Data) (k : Bytes) : chAt (delDown kv k) = chAt kv := rfl
@[simp] theorem chAt_putUp (kv : Data) (k : Bytes) : chAt (putUp kv k) = chAt kv := rfl
@[simp] theorem chAt_delUp (kv : Data) (k : Bytes) : chAt (delUp kv k) = chAt kv := rfl
@[simp] theorem upRaw_putDown (kv : Data) (k v : Bytes) : upRaw (putDown kv k v) = upRaw kv := rfl
@[simp] theorem upRaw_delDown (kv : Data) (k : Bytes) : upRaw (delDown kv k) = upRaw kv := rfl
@[simp] theorem dnAt_putUp (kv : Data) (k : Bytes) : dnAt (putUp kv k) = dnAt kv := rfl
@[simp] theorem dnAt_delUp (kv : Data) (k : Bytes) : dnAt (delUp kv k) = dnAt kv := rfl
@[simp] theorem loadNode_putDown (kv : Data) (k v : Bytes) : loadNode (putDown kv k v) = loadNode kv := rfl
@[simp] theorem loadNode_delDown (kv : Data) (k : Bytes) : loadNode (delDown kv k) = loadNode kv := rfl
@[simp] theorem loadNode_putUp (kv : Data) (k : Bytes) : loadNode (putUp kv k) = loadNode kv := rfl
@[simp] theorem loadNode_delUp (kv : Data) (k : Bytes) : loadNode (delUp kv k) = loadNode kv := rfl

namespace Data.Wf

variable {kv : Data}

theorem storeNode (h : kv.Wf) (id : UInt64) (snap : SnapId) (r : NodeRec) :
    (Prfs.storeNode kv id snap r).Wf := by
  refine ⟨fun {k v} hk => ?_, h.down, h.up, fun {k v} hk => ?_⟩
  · simp only [Prfs.storeNode, OrdMap.get_put] at hk
    split_ifs at hk with he
    · exact ⟨id, snap, he⟩
    · exact h.node hk
  · simp only [Prfs.storeNode, OrdMap.get_put] at hk
    split_ifs at hk with he
    · exact ⟨snap, id, he⟩
    · exact h.change hk

theorem putDown (h : kv.Wf) (dir ver : UInt64) (name : Bytes) (c : UInt64) :
    (Prfs.putDown kv (be dir ++ be ver ++ name) (be c)).Wf := by
  refine ⟨h.node, fun {k v} hk => ?_, h.up, h.change⟩
  simp only [Prfs.putDown, OrdMap.get_put] at hk
  split_ifs at hk with he
  · exact ⟨dir, ver, name, c, he, (Option.some.inj hk).symm⟩
  · exact h.down hk

theorem putUp (h : kv.Wf) (node ver dir : UInt64) (name : Bytes) :
    (Prfs.putUp kv (be node ++ be ver ++ (be dir ++ name))).Wf := by
  refine ⟨h.node, h.down, fun {k v} hk => ?_, h.change⟩
  simp only [Prfs.putUp, OrdMap.get_put] at hk
  split_ifs at hk with he
  · exact ⟨node, ver, dir, name, by rw [he, List.append_assoc _ (be dir)]⟩
  · exact h.up hk

theorem delDown (h : kv.Wf) (k : Bytes) : (Prfs.delDown kv k).Wf := by
  refine ⟨h.node, fun {k' v} hk => ?_, h.up, h.change⟩
  simp only [Prfs.delDown, OrdMap.get_del] at hk
  split_ifs at hk
  exact h.down hk

theorem delUp (h : kv.Wf) (k : Bytes) : (Prfs.delUp kv k).Wf := by
  refine ⟨h.node, h.down, fun {k' v} hk => ?_, h.change⟩
  simp only [Prfs.delUp, OrdMap.get_del] at hk
  split_ifs at hk
  exact h.up hk

/-- An up-link suffix is a container and a name. -/
theorem suffix (h : kv.Wf) {node ver : UInt64} {x : Bytes} (hx : upRaw kv node ver x) :
    ∃ dir name, x = be dir ++ name := by
  obtain ⟨v, hv⟩ := Option.isSome_iff_exists.mp hx
  obtain ⟨n, w, dir, name, hk⟩ := h.up hv
  rw [List.append_assoc _ (be dir), key3_inj] at hk
  exact ⟨dir, name, hk.2⟩

end Data.Wf

theorem dnAt_foldl_putDown_other {dir cur d v : UInt64} {n : Bytes} (l : List (Bytes × UInt64)) (kv : Data)
    (h : (d = dir ∧ v = cur) → ∀ c, (n, c) ∉ l) :
    dnAt (l.foldl (fun kv e => putDown kv (be dir ++ be cur ++ e.1) (be e.2)) kv) d v n =
      dnAt kv d v n := by
  induction l generalizing kv with
  | nil => rfl
  | cons e l ih =>
    rw [List.foldl_cons, ih _ (fun hd c hc => h hd c (List.mem_cons_of_mem _ hc)), dnAt_putDown]
    have hne : ¬ ((d = dir ∧ v = cur) ∧ n = e.1) := by
      rintro ⟨hd, rfl⟩
      exact h hd e.2 (by simp)
    simp [hne]

theorem dnAt_foldl_putDown_mem {dir cur : UInt64} {n : Bytes} {c : UInt64} {l : List (Bytes × UInt64)}
    (hs : l.Pairwise (fun a b => a.1 < b.1)) (hm : (n, c) ∈ l) (kv : Data) :
    dnAt (l.foldl (fun kv e => putDown kv (be dir ++ be cur ++ e.1) (be e.2)) kv) dir cur n = some c := by
  induction l generalizing kv with
  | nil => simp at hm
  | cons e l ih =>
    obtain ⟨he, hs⟩ := List.pairwise_cons.mp hs
    rw [List.foldl_cons]
    rcases List.mem_cons.mp hm with rfl | hm
    · rw [dnAt_foldl_putDown_other, dnAt_putDown]
      · simp
      · exact fun _ c' hc' => absurd (he _ hc') (lt_irrefl _)
    · exact ih hs hm _

theorem upRaw_foldl_putUp {node cur m v : UInt64} {y : Bytes} (l : List Bytes) (kv : Data) :
    upRaw (l.foldl (fun kv x => putUp kv (be node ++ be cur ++ x)) kv) m v y ↔
      ((m = node ∧ v = cur) ∧ y ∈ l) ∨ upRaw kv m v y := by
  induction l generalizing kv with
  | nil => simp
  | cons x l ih =>
    rw [List.foldl_cons, ih, upRaw_putUp, List.mem_cons]
    tauto

/-- A fold of link writes leaves the other tables alone. -/
theorem foldl_putDown_frame (dir cur : UInt64) (l : List (Bytes × UInt64)) (kv : Data) (h : kv.Wf) :
    let kv' := l.foldl (fun kv e => putDown kv (be dir ++ be cur ++ e.1) (be e.2)) kv
    kv'.Wf ∧ kv'.nodes = kv.nodes ∧ kv'.upLinks = kv.upLinks ∧ kv'.changes = kv.changes ∧
      kv'.metaKv = kv.metaKv ∧ kv'.snaps = kv.snaps := by
  induction l generalizing kv with
  | nil => exact ⟨h, rfl, rfl, rfl, rfl, rfl⟩
  | cons e l ih => exact ih _ (h.putDown dir cur e.1 e.2)

theorem foldl_putUp_frame (node cur : UInt64) (l : List Bytes) (kv : Data) (h : kv.Wf)
    (hl : ∀ x ∈ l, ∃ dir name, x = be dir ++ name) :
    let kv' := l.foldl (fun kv x => putUp kv (be node ++ be cur ++ x)) kv
    kv'.Wf ∧ kv'.nodes = kv.nodes ∧ kv'.downLinks = kv.downLinks ∧ kv'.changes = kv.changes ∧
      kv'.metaKv = kv.metaKv ∧ kv'.snaps = kv.snaps := by
  induction l generalizing kv with
  | nil => exact ⟨h, rfl, rfl, rfl, rfl, rfl⟩
  | cons x l ih =>
    obtain ⟨dir, name, rfl⟩ := hl x (by simp)
    exact ih _ (h.putUp node cur dir name) (fun y hy => hl y (List.mem_cons_of_mem _ hy))

end Prfs
