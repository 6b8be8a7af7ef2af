import Prfs.StoreLink
import Prfs.FileSysInv

namespace Prfs

/-- The store `s` stands for the file system `a`: each view of the tables is a view
of `a`. -/
structure Refines (s : PrfsStore) (a : FileSys) : Prop where
  base : Base s.cur s.kv
  root : s.root = 1
  next : s.next = a.next
  cur : s.cur = a.cur
  clock : s.clock = a.clock
  live : viewAt s.kv s.cur = a.live
  past : ∀ {g}, g < s.cur → viewAt s.kv g = a.past g
  config : s.contentConfig = a.config
  snaps : ∀ g, s.kv.snaps.get (be g) = (a.snaps g).map (fun p => be p.1 ++ p.2)

namespace Refines

variable {s : PrfsStore} {a : FileSys}

theorem viewAt_eq (h : Refines s a) (g : SnapId) : viewAt s.kv g = a.viewOf g := by
  unfold FileSys.viewOf
  rw [← h.cur]
  split_ifs with hg
  · exact h.past hg
  · rw [h.base.viewAt_live (not_lt.mp hg), h.live]

theorem withMeta (h : Refines s a) {m : OrdMap Bytes Bytes}
    (hm : m.get metaContentConfig = s.kv.metaKv.get metaContentConfig) :
    Refines { s with kv := { s.kv with metaKv := m } } a :=
  ⟨h.base.withMeta m, h.root, h.next, h.cur, h.clock, h.live, h.past,
    by rw [← h.config, PrfsStore.contentConfig, PrfsStore.contentConfig, hm], h.snaps⟩

/-- A change of the tables under the current version is a change of the live view. -/
theorem updates (h : Refines s a) {kv' : Data} {w : View} (hu : Updates s.cur s.kv kv' w) :
    Refines { s with kv := kv' } { a with live := w } := by
  refine ⟨hu.base, h.root, h.next, h.cur, h.clock, hu.live, fun {g} hg => ?_, ?_, fun g => ?_⟩
  · exact (hu.frame.viewAt_sealed h.base hu.base.wf hg).trans (h.past hg)
  · rw [← h.config]
    simp only [PrfsStore.contentConfig, hu.frame.metaKv]
  · rw [← h.snaps, hu.frame.snaps]

theorem alloc (h : Refines s a) (hi : a.Inv) (t : FType) (blob : Bytes) (spec : UInt64) :
    Refines (s.alloc t blob spec).2 (a.alloc t blob spec).2 := by
  have hmeta := h.withMeta (m := s.kv.metaKv.put metaNextNode (leBytes 8 (s.next + 1).toNat))
    (by simp [metaNextNode_ne])
  have hfree : loadNode s.kv s.next s.cur = none := by
    rw [← viewAt_node_none, h.live, h.next]
    exact hi.next_free
  have hu := allocNode_updates hmeta.base s.next
    { type := t.code, mode := defaultMode t, spec, blob, dnLinkVer := s.cur, upLinkVer := s.cur, atime := s.clock,
      mtime := s.clock, ctime := s.clock } hfree le_rfl le_rfl
  have hr := hmeta.updates hu
  refine ⟨hr.base, hr.root, congrArg (· + 1) h.next, hr.cur, hr.clock, hr.live.trans ?_, hr.past, hr.config,
    hr.snaps⟩
  rw [hmeta.live]
  simp [FileSys.alloc, FileSys.newRec, NodeRec.bare, h.next, h.clock]

theorem guardedSet (h : Refines s a) (id : UInt64) (want : UInt32 → Bool) {f : NodeRec → NodeRec}
    (hd : ∀ r, (f r).dnLinkVer = r.dnLinkVer) (hu : ∀ r, (f r).upLinkVer = r.upLinkVer)
    (hb : ∀ r, (f r).bare = f r.bare) :
    (s.guardedSet id want f).1 = (a.live.setOp id want f).1 ∧
      Refines (s.guardedSet id want f).2 { a with live := (a.live.setOp id want f).2 } := by
  have hn : a.live.node id = (loadNode s.kv id s.cur).map NodeRec.bare := by rw [← h.live]; rfl
  unfold PrfsStore.guardedSet View.setOp
  rw [hn]
  cases hr : loadNode s.kv id s.cur with
  | none => exact ⟨rfl, h⟩
  | some r =>
    have hw : want (NodeRec.bare r).type = want r.type := rfl
    simp only [Option.map_some, hw]
    split_ifs
    · refine ⟨rfl, ?_⟩
      have hs := storeNode_updates h.base hr (hd r) (hu r) (hb r)
      rw [h.live] at hs
      exact h.updates hs
    · exact ⟨rfl, h⟩

theorem setAttr (h : Refines s a) (n : Node) (x : Setter) :
    Refines (s.setAttr n x) { a with live := a.live.modify n.id (fun r => x.apply r) } := by
  have hn : a.live.node n.id = (loadNode s.kv n.id s.cur).map NodeRec.bare := by rw [← h.live]; rfl
  unfold PrfsStore.setAttr PrfsStore.mutateNode
  cases hr : loadNode s.kv n.id s.cur with
  | none =>
    rw [hr, Option.map_none] at hn
    rw [View.modify_none hn]
    exact h
  | some r =>
    have hs := storeNode_updates h.base hr (f := fun r => x.apply r) (by cases x <;> rfl)
      (by cases x <;> rfl) (by cases x <;> rfl)
    rw [h.live] at hs
    exact h.updates hs

theorem move (h : Refines s a) (hi : a.Inv) (sdir ddir : Node) (sn dn : Bytes) :
    (s.move sdir sn ddir dn).1 = (a.live.moveOp sdir.id sn ddir.id dn).1 ∧
      Refines (s.move sdir sn ddir dn).2 { a with live := (a.live.moveOp sdir.id sn ddir.id dn).2 } := by
  have hc : (viewAt s.kv s.cur).Consistent := h.live ▸ hi.live_cons
  have hent : a.live.entry sdir.id sn = (loadNode s.kv sdir.id s.cur).bind (fun r =>
      (s.kv.downLinks.get (be sdir.id ++ be r.dnLinkVer ++ sn)).map rdbe) := by
    rw [← h.live]
    rfl
  unfold PrfsStore.move View.moveOp
  rw [hent]
  cases hsr : loadNode s.kv sdir.id s.cur with
  | none => exact ⟨rfl, h⟩
  | some sr =>
    simp only [Option.bind_some]
    cases hg : s.kv.downLinks.get (be sdir.id ++ be sr.dnLinkVer ++ sn) with
    | none => exact ⟨rfl, h⟩
    | some c =>
      simp only [Option.map_some]
      obtain ⟨he, hno, hok⟩ := linkT_spec h.base hc ddir.id dn (rdbe c)
      rw [← h.live, ← he]
      cases hl : linkT s.cur s.kv ddir.id dn (rdbe c) with
      | mk e kv' =>
        rw [hl] at hno hok he
        cases e with
        | OK =>
          have hu := hok rfl
          have hch := View.Change.sound (.link he.symm) hc (h.live ▸ hi.live_acyc)
          rw [← hu.live] at hch
          obtain ⟨h1, -, h3⟩ := unlinkT_spec hu.base hch.1 sdir.id sn
          rw [hu.live] at h1 h3
          simp only [if_true]
          exact ⟨h1, h.updates (hu.trans h3)⟩
        | _ =>
          have hk : kv' = s.kv := hno (by simp)
          subst hk
          exact ⟨rfl, h.live ▸ h⟩

theorem snapshot (h : Refines s a) (hf : s.cur < LATEST - 1) (label : Bytes) :
    (s.snapshot label).1 = a.cur ∧ Refines (s.snapshot label).2 (a.exec (.snapshot label)).2 := by
  have hlt : s.cur < s.cur + 1 := by
    simp only [LATEST] at hf
    grind
  have hmeta := h.withMeta (m := s.kv.metaKv.put metaCurSnap (leBytes 8 (s.cur + 1).toNat))
    (by simp [metaCurSnap_ne])
  refine ⟨h.cur, hmeta.base.withSnaps.mono (le_of_lt hlt), h.root, h.next, congrArg (· + 1) h.cur, h.clock,
    ?_, fun {g} hg => ?_, hmeta.config, fun g => ?_⟩
  · exact (h.base.viewAt_live (le_of_lt hlt)).trans h.live
  · simp only [FileSys.exec, ← h.cur]
    split_ifs with he
    · rw [he]
      exact h.live
    · refine h.past ?_
      simp only [PrfsStore.snapshot] at hg
      grind
  · simp only [PrfsStore.snapshot, putMeta, OrdMap.get_put, be_inj, FileSys.exec, ← h.cur]
    split_ifs with he
    · simp [h.clock]
    · exact h.snaps g

theorem exec (h : Refines s a) (hi : a.Inv) (op : Op) (hf : op.Fits s.next s.cur) :
    (s.exec op).1 = (a.exec op).1 ∧ Refines (s.exec op).2 (a.exec op).2 := by
  have hc : (viewAt s.kv s.cur).Consistent := h.live ▸ hi.live_cons
  have hnew : ∀ t blob spec, Res.node (s.alloc t blob spec).1 = (a.alloc t blob spec).1 := by
    intro t blob spec
    simp [PrfsStore.alloc, FileSys.alloc, h.next]
  cases op with
  | mkdir => exact ⟨hnew .., h.alloc hi ..⟩
  | mkfile c => exact ⟨hnew .., h.alloc hi ..⟩
  | symlink t => exact ⟨hnew .., h.alloc hi ..⟩
  | mkfifo => exact ⟨hnew .., h.alloc hi ..⟩
  | mksock => exact ⟨hnew .., h.alloc hi ..⟩
  | mknod t maj min => exact ⟨hnew .., h.alloc hi ..⟩
  | link dir name child =>
    have he := (linkT_spec h.base hc dir.id name child.id).1
    have hu := linkT_updates h.base hc dir.id name child.id
    rw [h.live] at he hu
    exact ⟨congrArg Res.err he, h.updates hu⟩
  | unlink dir name =>
    obtain ⟨he, -, hu⟩ := unlinkT_spec h.base hc dir.id name
    rw [h.live] at he hu
    exact ⟨congrArg Res.err he, h.updates hu⟩
  | move sdir sn ddir dn => exact (h.move hi sdir ddir sn dn).imp_left (congrArg Res.err)
  | setContent reg c =>
    exact (h.guardedSet reg.id _ (f := fun r => { r with blob := c })
      (fun _ => rfl) (fun _ => rfl) (fun _ => rfl)).imp_left (congrArg Res.err)
  | setTarget lnk t =>
    exact (h.guardedSet lnk.id _ (f := fun r => { r with blob := t })
      (fun _ => rfl) (fun _ => rfl) (fun _ => rfl)).imp_left (congrArg Res.err)
  | setRdev dev maj min =>
    exact (h.guardedSet dev.id _ (f := fun r => { r with spec := devSpec maj min })
      (fun _ => rfl) (fun _ => rfl) (fun _ => rfl)).imp_left (congrArg Res.err)
  | setContentSeed reg seed =>
    exact (h.guardedSet reg.id _ (f := fun r => { r with spec := seed })
      (fun _ => rfl) (fun _ => rfl) (fun _ => rfl)).imp_left (congrArg Res.err)
  | setAttr n x => exact ⟨rfl, h.setAttr n x⟩
  | setTime t =>
    have hm := h.withMeta (m := s.kv.metaKv.put metaClock (leBytes 8 t.toNat)) (by simp [metaClock_ne])
    exact ⟨rfl, hm.base, hm.root, hm.next, hm.cur, rfl, hm.live, hm.past, hm.config, hm.snaps⟩
  | setContentConfig blob =>
    exact ⟨rfl, h.base.withMeta _, h.root, h.next, h.cur, h.clock, h.live, h.past,
      by simp [FileSys.exec, PrfsStore.exec, PrfsStore.setContentConfig, PrfsStore.contentConfig], h.snaps⟩
  | snapshot label => exact (h.snapshot hf label).imp_left (congrArg Res.snap)

theorem empty : Refines PrfsStore.empty FileSys.init := by
  have hnone : ∀ id g, loadNode {} id g = none := fun id g => by simp [loadNode_eq_floor, OrdMap.floor, OrdMap.empty]
  have hb : Base 1 {} := by
    refine ⟨⟨?_, ?_, ?_, ?_⟩, ?_, ?_, ?_, ?_⟩ <;> intros <;> simp_all [recAt, dnAt, upRaw]
  have hview : ∀ g, viewAt {} g =
      { node := fun _ => none, entry := fun _ _ => none, up := fun _ _ _ => False } := by
    intro g
    ext <;> simp [viewAt, hnone]
  have hu := allocNode_updates hb 1
    { type := FType.DIR.code, mode := 0o755, nlink := 1, dnLinkVer := 1, upLinkVer := 1 }
    (hnone 1 1) le_rfl le_rfl
  refine ⟨hu.base.withMeta _, rfl, rfl, rfl, rfl, hu.live.trans ?_, fun {g} hg => ?_, rfl, fun g => rfl⟩
  · rw [hview]
    rfl
  · exact (hu.frame.viewAt_sealed hb hu.base.wf hg).trans (hview g)

end Refines

end Prfs
