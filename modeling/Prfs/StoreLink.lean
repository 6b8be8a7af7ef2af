import Prfs.LinkVersions
import Prfs.StoreReach
import Prfs.FileSys

namespace Prfs

variable {cur : SnapId} {kv : Data} {dir child : UInt64} {name : Bytes}

theorem viewAt_putDown {r : NodeRec} (hr : loadNode kv dir cur = some r) (hv : r.dnLinkVer = cur) (c : UInt64) :
    viewAt (putDown kv (be dir ++ be cur ++ name) (be c)) cur =
      { viewAt kv cur with
        entry := fun d n => if d = dir ∧ n = name then some c else (viewAt kv cur).entry d n } := by
  ext d n e
  · rfl
  · simp only [viewAt, loadNode_putDown, dnAt_putDown]
    by_cases hd : d = dir
    · subst hd
      by_cases hn : n = name <;> simp [hr, hv, hn]
    · simp [hd]
  · rfl

theorem viewAt_delDown {r : NodeRec} (hr : loadNode kv dir cur = some r) (hv : r.dnLinkVer = cur) :
    viewAt (delDown kv (be dir ++ be cur ++ name)) cur =
      { viewAt kv cur with
        entry := fun d n => if d = dir ∧ n = name then none else (viewAt kv cur).entry d n } := by
  ext d n e
  · rfl
  · simp only [viewAt, loadNode_delDown, dnAt_delDown]
    by_cases hd : d = dir
    · subst hd
      by_cases hn : n = name <;> simp [hr, hv, hn]
    · simp [hd]
  · rfl

theorem viewAt_putUp {r : NodeRec} (hr : loadNode kv child cur = some r) (hv : r.upLinkVer = cur) :
    viewAt (putUp kv (be child ++ be cur ++ (be dir ++ name))) cur =
      { viewAt kv cur with
        up := fun c d n => (c = child ∧ d = dir ∧ n = name) ∨ (viewAt kv cur).up c d n } := by
  ext c d n
  · rfl
  · rfl
  · simp only [viewAt, loadNode_putUp, upAt_iff_raw, upRaw_putUp, name_key_inj]
    by_cases hc : c = child
    · subst hc
      simp [hr, hv]
    · simp [hc]

theorem viewAt_delUp {r : NodeRec} (hr : loadNode kv child cur = some r) (hv : r.upLinkVer = cur) :
    viewAt (delUp kv (be child ++ be cur ++ (be dir ++ name))) cur =
      { viewAt kv cur with
        up := fun c d n => ¬ (c = child ∧ d = dir ∧ n = name) ∧ (viewAt kv cur).up c d n } := by
  ext c d n
  · rfl
  · rfl
  · simp only [viewAt, loadNode_delUp, upAt_iff_raw, upRaw_delUp, name_key_inj]
    by_cases hc : c = child
    · subst hc
      simp [hr, hv]
    · simp [hc]

/-- The tables once both link sets an edge touches are writable. -/
def writable (cur : SnapId) (kv : Data) (dir child : UInt64) : Data :=
  (ensureWritableUpLinks cur (ensureWritableDnLinks cur kv dir).2 child).2

theorem writable_spec (h : Base cur kv) {dr cr : NodeRec} (hd : loadNode kv dir cur = some dr)
    (hc : loadNode kv child cur = some cr) :
    Updates cur kv (writable cur kv dir child) (viewAt kv cur) ∧
      (∃ r, loadNode (writable cur kv dir child) dir cur = some r ∧ r.dnLinkVer = cur) ∧
      ∃ r, loadNode (writable cur kv dir child) child cur = some r ∧ r.upLinkVer = cur := by
  have hdn := ensureWritableDnLinks_spec h hd
  have hu1 := hdn.updates h hd
  obtain ⟨cr1, hc1⟩ : ∃ cr1, loadNode (ensureWritableDnLinks cur kv dir).2 child cur = some cr1 := by
    rw [hdn.loadNode h]
    split_ifs
    · exact ⟨_, rfl⟩
    · exact ⟨cr, hc⟩
  have hup := ensureWritableUpLinks_spec hu1.base hc1
  have hu2 := hup.updates hu1.base hc1
  rw [hu1.live] at hu2
  refine ⟨hu1.trans hu2, ?_, ?_⟩
  · rw [writable, hup.loadNode hu1.base]
    split_ifs with he
    · refine ⟨_, rfl, ?_⟩
      have := hc1
      rw [← he, hdn.loadNode h, if_pos rfl] at this
      exact congrArg NodeRec.dnLinkVer (Option.some.inj this).symm
    · exact ⟨_, by rw [hdn.loadNode h, if_pos rfl], rfl⟩
  · exact ⟨_, by rw [writable, hup.loadNode hu1.base, if_pos rfl], rfl⟩

theorem View.modify_const {v : View} {id : UInt64} {r : NodeRec} (hr : v.node id = some r)
    (f : NodeRec → NodeRec) : v.modify id (fun _ => f r) = v.modify id f := by
  ext i <;> simp only [View.modify]
  by_cases hi : i = id <;> simp [hi, hr]

/-- The writes of a link whose checks have passed. -/
def addEdge (cur : SnapId) (kv : Data) (dir : UInt64) (name : Bytes) (child : UInt64) (cr : NodeRec) : Data :=
  let kv := putDown (writable cur kv dir child) (be dir ++ be cur ++ name) (be child)
  let kv := putUp kv (be child ++ be cur ++ (be dir ++ name))
  let cr := (loadNode kv child cur).getD cr
  storeNode kv child cur { cr with nlink := cr.nlink + 1 }

/-- The writes of an unlink that found its entry. -/
def dropEdge (cur : SnapId) (kv : Data) (dir : UInt64) (name : Bytes) (child : UInt64) : Data :=
  let kv := delDown (writable cur kv dir child) (be dir ++ be cur ++ name)
  let kv := delUp kv (be child ++ be cur ++ (be dir ++ name))
  storeNode kv child cur (View.decLink ((loadNode kv child cur).getD {}))

theorem linkT_eq (cur : SnapId) (kv : Data) (dir : UInt64) (name : Bytes) (child : UInt64) :
    linkT cur kv dir name child =
      if name = SNAPSHOT_NAME then (.INVAL, kv)
      else
        match loadNode kv dir cur with
        | none => (.NOENT, kv)
        | some dr =>
          if dr.type ≠ FType.DIR.code then (.NOTDIR, kv)
          else
            match loadNode kv child cur with
            | none => (.NOENT, kv)
            | some cr =>
              if cr.type = FType.DIR.code ∧ reachable kv cur child dir = true then (.INVAL, kv)
              else
                match dnAt kv dir dr.dnLinkVer name with
                | some _ => (.EXIST, kv)
                | none => (.OK, addEdge cur kv dir name child cr) := by
  simp only [linkT, ensureWritableDnLinks_fst, ensureWritableUpLinks_fst, addEdge, writable, dnAt,
    List.append_assoc (be child ++ be cur)]
  rcases loadNode kv dir cur with - | dr
  · rfl
  · rcases loadNode kv child cur with - | cr
    · rfl
    · dsimp only
      cases hg : kv.downLinks.get (be dir ++ be dr.dnLinkVer ++ name) <;> simp only [Option.map]

theorem unlinkT_eq (cur : SnapId) (kv : Data) (dir : UInt64) (name : Bytes) :
    unlinkT cur kv dir name =
      match loadNode kv dir cur with
      | none => (.NOENT, kv)
      | some dr =>
        match dnAt kv dir dr.dnLinkVer name with
        | none => (.NOENT, kv)
        | some child => (.OK, dropEdge cur kv dir name child) := by
  simp only [unlinkT, ensureWritableDnLinks_fst, ensureWritableUpLinks_fst, dropEdge, writable, dnAt]
  rcases loadNode kv dir cur with - | dr
  · rfl
  · dsimp only
    cases hg : kv.downLinks.get (be dir ++ be dr.dnLinkVer ++ name) with
    | none => simp only [Option.map]
    | some c =>
      simp only [Option.map, List.append_assoc (be (rdbe c) ++ be cur)]
      rfl

/-- A record rewrite that keeps the link-set versions shows as a rewrite in the live view. -/
theorem storeNode_updates (h : Base cur kv) {id : UInt64} {r : NodeRec} (hr : loadNode kv id cur = some r)
    {f : NodeRec → NodeRec} (hd : (f r).dnLinkVer = r.dnLinkVer) (hu : (f r).upLinkVer = r.upLinkVer)
    (hb : (f r).bare = f r.bare) :
    Updates cur kv (storeNode kv id cur (f r)) ((viewAt kv cur).modify id f) := by
  have hle := h.loadNode_le hr
  refine ⟨h.storeNode (hd ▸ hle.1) (hu ▸ hle.2) fun old hold => ?_, .storeNode .., ?_⟩
  · obtain rfl := Option.some.inj (hr.symm.trans hold)
    exact ⟨le_of_eq hd.symm, le_of_eq hu.symm⟩
  · rw [viewAt_storeNode h hr hd hu, hb]
    exact View.modify_const (by simp [viewAt, hr]) f

theorem addEdge_updates (h : Base cur kv) (name : Bytes) {dr cr : NodeRec} (hd : loadNode kv dir cur = some dr)
    (hc : loadNode kv child cur = some cr) :
    Updates cur kv (addEdge cur kv dir name child cr) ((viewAt kv cur).link dir name child) := by
  obtain ⟨hw, ⟨rd, hrd, hvd⟩, rc, hrc, hvc⟩ := writable_spec h hd hc
  unfold addEdge
  dsimp only
  generalize writable cur kv dir child = w at *
  have hb1 := hw.base.putDown hrd hvd name child
  have hrc1 : loadNode (putDown w (be dir ++ be cur ++ name) (be child)) child cur = some rc := by
    rw [loadNode_putDown, hrc]
  have hb2 := hb1.putUp hrc1 hvc dir name
  rw [← loadNode_putUp _ (be child ++ be cur ++ (be dir ++ name))] at hrc1
  have hs := storeNode_updates hb2 hrc1 (f := View.incLink) rfl rfl rfl
  rw [viewAt_putUp (by rw [loadNode_putDown, hrc]) hvc, viewAt_putDown hrd hvd, hw.live] at hs
  rw [hrc1]
  have hf := (hw.frame.trans (.putDown dir name child)).trans (.putUp child (be dir ++ name))
  exact ⟨hs.base, hf.trans hs.frame, hs.live⟩

theorem decLink_bare (r : NodeRec) : (View.decLink r).bare = View.decLink r.bare := by
  unfold View.decLink NodeRec.bare
  split_ifs <;> rfl

theorem decLink_vers (r : NodeRec) :
    (View.decLink r).dnLinkVer = r.dnLinkVer ∧ (View.decLink r).upLinkVer = r.upLinkVer := by
  unfold View.decLink
  split_ifs <;> exact ⟨rfl, rfl⟩

theorem dropEdge_updates (h : Base cur kv) (name : Bytes) {dr cr : NodeRec} (hd : loadNode kv dir cur = some dr)
    (hc : loadNode kv child cur = some cr) :
    Updates cur kv (dropEdge cur kv dir name child) ((viewAt kv cur).unlink dir name child) := by
  obtain ⟨hw, ⟨rd, hrd, hvd⟩, rc, hrc, hvc⟩ := writable_spec h hd hc
  unfold dropEdge
  dsimp only
  generalize writable cur kv dir child = w at *
  have hb2 := (hw.base.delDown dir name).delUp child (be dir ++ name)
  have hrc1 : loadNode (delUp (delDown w (be dir ++ be cur ++ name))
      (be child ++ be cur ++ (be dir ++ name))) child cur = some rc := by
    rw [loadNode_delUp, loadNode_delDown, hrc]
  have hs := storeNode_updates hb2 hrc1 (f := View.decLink) (decLink_vers rc).1 (decLink_vers rc).2
    (decLink_bare rc)
  rw [viewAt_delUp (by rw [loadNode_delDown, hrc]) hvc, viewAt_delDown hrd hvd, hw.live] at hs
  rw [hrc1]
  have hf := (hw.frame.trans (.delDown dir name)).trans (.delUp child (be dir ++ name))
  exact ⟨hs.base, hf.trans hs.frame, hs.live⟩

theorem Updates.refl (h : Base cur kv) : Updates cur kv kv (viewAt kv cur) := ⟨h, .refl, rfl⟩

/-- A link answers from the live view and makes the edge only when it answers OK. -/
theorem linkT_spec (h : Base cur kv) (hc : (viewAt kv cur).Consistent) (dir : UInt64) (name : Bytes)
    (child : UInt64) :
    (linkT cur kv dir name child).1 = (viewAt kv cur).linkError dir name child ∧
      ((linkT cur kv dir name child).1 ≠ .OK → (linkT cur kv dir name child).2 = kv) ∧
      ((linkT cur kv dir name child).1 = .OK →
        Updates cur kv (linkT cur kv dir name child).2 ((viewAt kv cur).link dir name child)) := by
  rw [linkT_eq]
  unfold View.linkError
  simp only [viewAt_node_none, viewAt_isDir, ← reachable_iff hc]
  by_cases hn : name = SNAPSHOT_NAME
  · simp [hn]
  simp only [hn, if_false]
  cases hd : loadNode kv dir cur with
  | none => simp
  | some dr =>
    by_cases hdt : dr.type = FType.DIR.code
    · cases hch : loadNode kv child cur with
      | none => simp [hdt]
      | some cr =>
        by_cases hr : cr.type = FType.DIR.code ∧ reachable kv cur child dir = true
        · simp [hdt, hr]
        · have hent : (viewAt kv cur).entry dir name = dnAt kv dir dr.dnLinkVer name := by
            simp [viewAt, hd]
          cases hfree : dnAt kv dir dr.dnLinkVer name with
          | some c => simp [hdt, hr, hent, hfree]
          | none =>
            have hu := addEdge_updates h name hd hch
            simpa [hdt, hr, hent, hfree] using hu
    · simp [hdt]

theorem linkT_updates (h : Base cur kv) (hc : (viewAt kv cur).Consistent) (dir : UInt64) (name : Bytes)
    (child : UInt64) :
    Updates cur kv (linkT cur kv dir name child).2 ((viewAt kv cur).linkOp dir name child).2 := by
  obtain ⟨he, hno, hok⟩ := linkT_spec h hc dir name child
  unfold View.linkOp
  dsimp only
  rw [← he]
  split_ifs with heq
  · exact hok heq
  · rw [hno heq]
    exact .refl h

theorem unlinkT_spec (h : Base cur kv) (hc : (viewAt kv cur).Consistent) (dir : UInt64) (name : Bytes) :
    (unlinkT cur kv dir name).1 = ((viewAt kv cur).unlinkOp dir name).1 ∧
      ((unlinkT cur kv dir name).1 ≠ .OK → (unlinkT cur kv dir name).2 = kv) ∧
      Updates cur kv (unlinkT cur kv dir name).2 ((viewAt kv cur).unlinkOp dir name).2 := by
  have hchild := @hc.child dir name
  have hent : (viewAt kv cur).entry dir name =
      (loadNode kv dir cur).bind (fun r => dnAt kv dir r.dnLinkVer name) := rfl
  rw [unlinkT_eq, View.unlinkOp]
  cases hd : loadNode kv dir cur with
  | none =>
    rw [hd, Option.bind_none] at hent
    simpa [hent] using Updates.refl h
  | some dr =>
    rw [hd, Option.bind_some] at hent
    cases hn : dnAt kv dir dr.dnLinkVer name with
    | none => simpa [hent, hn] using Updates.refl h
    | some c =>
      obtain ⟨_, hcr⟩ := hchild (hent.trans hn)
      obtain ⟨cr, hcr, -⟩ := Option.map_eq_some_iff.mp hcr
      simpa [hent, hn] using dropEdge_updates h name hd hcr

theorem Base.withMeta (h : Base cur kv) (m : OrdMap Bytes Bytes) : Base cur { kv with metaKv := m } :=
  ⟨⟨h.wf.node, h.wf.down, h.wf.up, h.wf.change⟩, h.rec_le, h.dn_le, h.up_le, h.ch⟩

theorem Base.withSnaps (h : Base cur kv) {m : OrdMap Bytes Bytes} : Base cur { kv with snaps := m } :=
  ⟨⟨h.wf.node, h.wf.down, h.wf.up, h.wf.change⟩, h.rec_le, h.dn_le, h.up_le, h.ch⟩

theorem Base.mono (h : Base cur kv) {cur' : SnapId} (hle : cur ≤ cur') : Base cur' kv := by
  refine ⟨h.wf, fun hr => ?_, fun hd => ?_, fun hu => ?_, h.ch⟩
  · obtain ⟨h1, h2⟩ := h.rec_le hr
    exact ⟨le_trans h1 hle, h2⟩
  · rw [h.loadNode_live hle]
    exact h.dn_le hd
  · rw [h.loadNode_live hle]
    exact h.up_le hu

/-- A first record of an id makes a node with no links in the live view. -/
theorem allocNode_updates (h : Base cur kv) (id : UInt64) (r : NodeRec) (hn : loadNode kv id cur = none)
    (hd : r.dnLinkVer ≤ cur) (hu : r.upLinkVer ≤ cur) :
    Updates cur kv (storeNode kv id cur r) ((viewAt kv cur).alloc id r.bare) := by
  refine ⟨h.storeNode hd hu fun old hold => by simp [hn] at hold, .storeNode .., ?_⟩
  ext d n c
  · simp only [viewAt, h.loadNode_storeNode_live, View.alloc]
    split_ifs <;> rfl
  · simp only [viewAt, h.loadNode_storeNode_live, View.alloc, dnAt_storeNode]
    split_ifs with hi
    · subst hi
      simp only [hn, Option.bind_none, Option.bind_some, reduceCtorEq, iff_false]
      intro hc
      obtain ⟨q, hq, -⟩ := h.dn_le hc
      simp [hn] at hq
    · rfl
  · simp only [viewAt, h.loadNode_storeNode_live, View.alloc, upAt_iff_raw, upRaw_storeNode]
    split_ifs with hi
    · subst hi
      simp only [hn, Option.some.injEq, exists_eq_left', reduceCtorEq, false_and, exists_false, iff_false]
      intro hc
      obtain ⟨q, hq, -⟩ := h.up_le hc
      simp [hn] at hq
    · rfl

theorem View.modify_none {v : View} {id : UInt64} (hn : v.node id = none) (f : NodeRec → NodeRec) :
    v.modify id f = v := by
  ext i <;> simp only [View.modify]
  by_cases hi : i = id <;> simp [hi, hn]

theorem metaNextNode_ne : metaContentConfig ≠ metaNextNode := by decide

theorem metaCurSnap_ne : metaContentConfig ≠ metaCurSnap := by decide

theorem metaClock_ne : metaContentConfig ≠ metaClock := by decide

end Prfs
