import Prfs.StoreRuns
import Prfs.StoreDiff

namespace Prfs

namespace PrfsStore

variable {s t u : PrfsStore}

/-- `t` holds what `s` sealed: the views, the change index and the snapshot records
below the current version of `s`. -/
structure Keeps (s t : PrfsStore) : Prop where
  cur : s.cur ≤ t.cur
  view : ∀ {g}, g < s.cur → viewAt t.kv g = viewAt s.kv g
  change : ∀ {v id}, v < s.cur → (chAt t.kv v id ↔ chAt s.kv v id)
  snap : ∀ {g}, g < s.cur → t.kv.snaps.get (be g) = s.kv.snaps.get (be g)

theorem Keeps.refl : Keeps s s := ⟨le_rfl, fun _ => rfl, fun _ => Iff.rfl, fun _ => rfl⟩

theorem Keeps.trans (h : Keeps s t) (h' : Keeps t u) : Keeps s u :=
  ⟨le_trans h.cur h'.cur, fun hg => (h'.view (lt_of_lt_of_le hg h.cur)).trans (h.view hg),
    fun hv => (h'.change (lt_of_lt_of_le hv h.cur)).trans (h.change hv),
    fun hg => (h'.snap (lt_of_lt_of_le hg h.cur)).trans (h.snap hg)⟩

theorem Keeps.of_updates (hb : Base s.cur s.kv) {kv' : Data} {w : View} (h : Updates s.cur s.kv kv' w) :
    Keeps s { s with kv := kv' } :=
  ⟨le_rfl, fun hg => h.frame.viewAt_sealed hb h.base.wf hg, fun hv => h.frame.chs (ne_of_lt hv),
    fun _ => by rw [h.frame.snaps]⟩

theorem alloc_keeps (h : s.Sound) (t : FType) (blob : Bytes) (spec : UInt64) :
    Keeps s (s.alloc t blob spec).2 := by
  obtain ⟨a, hr, hi⟩ := h
  have hb := hr.base.withMeta (s.kv.metaKv.put metaNextNode (leBytes 8 (s.next + 1).toNat))
  have hfree : loadNode s.kv s.next s.cur = none := by
    rw [← viewAt_node_none, hr.live, hr.next]
    exact hi.next_free
  have hu := allocNode_updates hb s.next
    { type := t.code, mode := defaultMode t, spec, blob, dnLinkVer := s.cur, upLinkVer := s.cur, atime := s.clock,
      mtime := s.clock, ctime := s.clock } hfree le_rfl le_rfl
  exact ⟨le_rfl, fun hg => hu.frame.viewAt_sealed hb hu.base.wf hg, fun hv => hu.frame.chs (ne_of_lt hv),
    fun _ => rfl⟩

theorem guardedSet_keeps (hb : Base s.cur s.kv) (id : UInt64) (want : UInt32 → Bool) (f : NodeRec → NodeRec)
    (hd : ∀ r, (f r).dnLinkVer = r.dnLinkVer) (hu : ∀ r, (f r).upLinkVer = r.upLinkVer)
    (hf : ∀ r, (f r).bare = f r.bare) : Keeps s (s.guardedSet id want f).2 := by
  unfold guardedSet
  split
  · exact .refl
  · next r hr =>
    split_ifs
    · exact .of_updates hb (storeNode_updates hb hr (hd r) (hu r) (hf r))
    · exact .refl

theorem move_keeps (h : s.Sound) (sdir ddir : Node) (sn dn : Bytes) :
    Keeps s (s.move sdir sn ddir dn).2 := by
  have hb := h.base
  have hc := h.consistent s.cur
  unfold move
  split
  · exact .refl
  · split
    · exact .refl
    · next c hc' =>
      obtain ⟨he, hno, hok⟩ := linkT_spec hb hc ddir.id dn (rdbe c)
      split
      · next kv' hl =>
        rw [hl] at he hok
        have hu := hok rfl
        have hch := View.Change.sound (.link he.symm) hc (h.acyclic s.cur)
        rw [← hu.live] at hch
        exact .of_updates hb (hu.trans (unlinkT_spec hu.base hch.1 sdir.id sn).2.2)
      · next e kv' hne hl =>
        rw [hl] at hno
        have hk : kv' = s.kv := hno hne
        rw [hk]
        exact .refl

theorem cur_lt_snapshot {label : Bytes} (hf : s.Fits (.snapshot label)) : s.cur < (s.exec (.snapshot label)).2.cur := by
  have hroom : s.cur < LATEST - 1 := hf
  simp only [LATEST] at hroom
  show s.cur < s.cur + 1
  grind

theorem exec_keeps (h : s.Sound) {op : Op} (hf : s.Fits op) : Keeps s (s.exec op).2 := by
  have hb := h.base
  have hc := h.consistent s.cur
  cases op with
  | mkdir => exact alloc_keeps h ..
  | mkfile c => exact alloc_keeps h ..
  | symlink t => exact alloc_keeps h ..
  | mkfifo => exact alloc_keeps h ..
  | mksock => exact alloc_keeps h ..
  | mknod t maj min => exact alloc_keeps h ..
  | link dir name child => exact .of_updates hb (linkT_updates hb hc dir.id name child.id)
  | unlink dir name => exact .of_updates hb (unlinkT_spec hb hc dir.id name).2.2
  | move sdir sn ddir dn => exact move_keeps h sdir ddir sn dn
  | setContent reg c =>
    exact guardedSet_keeps hb _ _ _ (fun _ => rfl) (fun _ => rfl) (fun _ => rfl)
  | setTarget lnk t =>
    exact guardedSet_keeps hb _ _ _ (fun _ => rfl) (fun _ => rfl) (fun _ => rfl)
  | setRdev dev maj min =>
    exact guardedSet_keeps hb _ _ _ (fun _ => rfl) (fun _ => rfl) (fun _ => rfl)
  | setContentSeed reg seed =>
    exact guardedSet_keeps hb _ _ _ (fun _ => rfl) (fun _ => rfl) (fun _ => rfl)
  | setAttr n x =>
    show Keeps s (s.setAttr n x)
    unfold setAttr mutateNode
    split
    · exact .refl
    · next r hr =>
      exact .of_updates hb (storeNode_updates hb hr (f := fun r => x.apply r) (by cases x <;> rfl)
        (by cases x <;> rfl) (by cases x <;> rfl))
  | setTime t => exact ⟨le_rfl, fun _ => rfl, fun _ => Iff.rfl, fun _ => rfl⟩
  | setContentConfig blob => exact ⟨le_rfl, fun _ => rfl, fun _ => Iff.rfl, fun _ => rfl⟩
  | snapshot label =>
    refine ⟨le_of_lt (cur_lt_snapshot hf), fun _ => rfl, fun _ => Iff.rfl, fun {g} hg => ?_⟩
    simp [exec, snapshot, putMeta, be_inj, ne_of_lt hg]

theorem run_keeps (h : s.Sound) (hr : Run s t) : Keeps s t := by
  have hinv : t.Sound ∧ Keeps s t := by
    refine Reaches.invariant (P := fun t => t.Sound ∧ Keeps s t) ?_ ⟨h, .refl⟩ hr
    rintro u op ⟨hu, hk⟩ hf
    exact ⟨hu.exec hf, hk.trans (exec_keeps hu hf)⟩
  exact hinv.2

theorem candidates_keeps (h : Keeps s t) (hs : s.Sound) (ht : t.Sound) {a b : SnapId} (ha : a < s.cur)
    (hb : b < s.cur) : candidates t.kv a b = candidates s.kv a b := by
  have hlt : a < LATEST := lt_trans ha hs.cur_lt
  refine OrdMap.ext_get fun id => Option.ext fun x => ?_
  have hx : ∀ o : Option Unit, o = some x ↔ o.isSome := by
    intro o
    cases o <;> simp
  rw [hx, hx, candidates_isSome ht.base.wf hlt, candidates_isSome hs.base.wf hlt]
  exact exists_congr fun v => and_congr_right fun _ => and_congr_right fun hv => h.change (lt_of_le_of_lt hv hb)

/-- Reads at a sealed snapshot answer the same whatever happens to the store later. -/
theorem sealed_reads_unchanged (hs : Run empty s) (hr : Run s t) {N M : SnapId} (hN : 1 ≤ N ∧ N < s.cur)
    (hM : 1 ≤ M ∧ M < s.cur) :
    (∀ id, isSnapDir id = false → t.attrs ⟨id, N⟩ = s.attrs ⟨id, N⟩) ∧
    (∀ d n, isSnapDir d = false → t.lookup ⟨d, N⟩ n = s.lookup ⟨d, N⟩ n) ∧
    (∀ d, isSnapDir d = false → t.readdir ⟨d, N⟩ = s.readdir ⟨d, N⟩) ∧
    (∀ d after max, isSnapDir d = false →
      t.readdirPage ⟨d, N⟩ after max = s.readdirPage ⟨d, N⟩ after max) ∧
    (∀ id, isSnapDir id = false → t.parents ⟨id, N⟩ = s.parents ⟨id, N⟩) ∧
    t.stats N = s.stats N ∧ t.snapInfo N = s.snapInfo N ∧
    t.diffNodes N M = s.diffNodes N M ∧ t.diffPaths N M = s.diffPaths N M := by
  have hss := hs.sound
  have hts := hss.run hr
  have hk := run_keeps hss hr
  have hrs : ∀ {g}, g < s.cur → s.rr g = g := fun hg => rr_of_lt hg
  have hrt : ∀ {g}, g < s.cur → t.rr g = g := fun hg => rr_of_lt (lt_of_lt_of_le hg hk.cur)
  have hview : ∀ {g}, g < s.cur → viewAt t.kv (t.rr g) = viewAt s.kv (s.rr g) := by
    intro g hg
    rw [hrs hg, hrt hg, hk.view hg]
  have hNl : N ≠ LATEST := ne_of_lt (lt_trans hN.2 hss.cur_lt)
  have hcs := hss.consistent
  have hct := hts.consistent
  refine ⟨fun id hid => ?_, fun d n hd => ?_, fun d hd => ?_, fun d after max hd => ?_, fun id hid => ?_,
    ?_, ?_, ?_, ?_⟩
  · rw [attrs_eq hid, attrs_eq hid, hview hN.2]
  · rw [lookup_eq hd (fun h => hNl h.2), lookup_eq hd (fun h => hNl h.2), hview hN.2]
  · obtain ⟨l, hl, he⟩ := readdir_eq (s := s) (d := ⟨d, N⟩) hd
    obtain ⟨l', hl', he'⟩ := readdir_eq (s := t) (d := ⟨d, N⟩) hd
    rw [hview hN.2] at hl'
    rw [he, he', hl.unique hl']
  · obtain ⟨l, hl, he⟩ := readdirPage_eq (s := s) (d := ⟨d, N⟩) hd after max
    obtain ⟨l', hl', he'⟩ := readdirPage_eq (s := t) (d := ⟨d, N⟩) hd after max
    rw [hview hN.2] at hl'
    rw [he, he', hl.unique hl']
  · obtain ⟨l, hl, he⟩ := parents_eq hss.base.wf (n := ⟨id, N⟩) (hcs _)
    obtain ⟨l', hl', he'⟩ := parents_eq hts.base.wf (n := ⟨id, N⟩) (hct _)
    rw [hview hN.2] at hl'
    rw [he, he', hl.unique hl']
  · obtain ⟨l, e, hl, he, hst⟩ := stats_eq hss.base.wf (hcs (s.rr N))
    obtain ⟨l', e', hl', he', hst'⟩ := stats_eq hts.base.wf (hct (t.rr N))
    rw [hview hN.2] at hl' he'
    rw [hst, hst', hl.unique hl', he.length_eq he']
  · simp only [snapInfo, hk.snap hN.2]
  · have hch : ∀ id, nodeChange (loadNode t.kv id N) (loadNode t.kv id M) =
        nodeChange (loadNode s.kv id N) (loadNode s.kv id M) := by
      intro id
      rw [← nodeChange_bare (loadNode t.kv id N), ← nodeChange_bare (loadNode s.kv id N)]
      show nodeChange ((viewAt t.kv N).node id) ((viewAt t.kv M).node id) = _
      rw [hk.view hN.2, hk.view hM.2]
      rfl
    simp only [diffNodes, hrs hN.2, hrs hM.2, hrt hN.2, hrt hM.2, candidates_keeps hk hss hts hN.2 hM.2, hch]
  · have hls : ∀ d {g}, g < s.cur → linkSet t.kv d g = linkSet s.kv d g := by
      intro d g hg
      refine OrdMap.ext_get fun n => ?_
      rw [linkSet_get (hct g), linkSet_get (hcs g), hk.view hg]
    simp only [diffPaths, hrs hN.2, hrs hM.2, hrt hN.2, hrt hM.2, candidates_keeps hk hss hts hN.2 hM.2,
      hls _ hN.2, hls _ hM.2]

theorem sealed_reads_unchanged_after_unlink :
    let s := empty.after [.mkdir, .link ⟨1, LATEST⟩ [97] ⟨2, LATEST⟩, .snapshot []]
    let t := s.after [.unlink ⟨1, 1⟩ [97], .setAttr ⟨2, 1⟩ (.mode 0), .snapshot []]
    s.readdir ⟨1, 1⟩ = [([97], ⟨2, 1⟩)] ∧ t.readdir ⟨1, 1⟩ = s.readdir ⟨1, 1⟩ := by
  refine ⟨by decide, ?_⟩
  exact (sealed_reads_unchanged (N := 1) (M := 1) (run_after (by decide))
    (run_after (by decide)) (by decide) (by decide)).2.2.1 1 rfl

end PrfsStore

end Prfs
