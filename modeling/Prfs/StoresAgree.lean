import Prfs.LinkCounts
import Prfs.MemTotals

namespace Prfs

/-- A view that counts its links knows no name whose link count is zero. -/
theorem View.Counted.held {v : View} (h : v.Counted 1) (dir : UInt64) (name : Bytes) : v.Held dir name := by
  intro c r he hr h0
  obtain ⟨hfin, hcount⟩ := h c
  have hn := hcount r hr
  have hpos : 0 < (v.entriesOf c).ncard := (Set.ncard_pos hfin).mpr ⟨(dir, name), he⟩
  rw [h0] at hn
  simp only [View.linkCount, UInt32.toNat_zero] at hn
  omega

theorem View.Counted.unwrapped {v : View} (h : v.Counted 1) {op : Op} (hl : v.FewLinks op) : v.Unwrapped op := by
  cases op with
  | unlink dir name => exact h.held dir.id name
  | move sdir sn ddir dn =>
    intro c he hok
    exact (h.link (View.linkError_ok.mp hok).2.2.2.2 (hl c he hok)).held sdir.id sn
  | _ => trivial

/-- The two stores under the same operation. -/
def lockstep (p : PrfsStore × MemStore) (op : Op) : PrfsStore × MemStore := ((p.1.exec op).2, (p.2.exec op).2)

/-- Live handles only, counters in their id spaces and fewer than 2^32 links to a node. -/
def InStep (p : PrfsStore × MemStore) (op : Op) : Prop :=
  (p.1.Fits op ∧ op.Handles p.1.next) ∧ (viewAt p.1.kv p.1.cur).FewLinks op

/-- `s` and `m` are reached from the empty stores by the same operations. -/
def TwinRun (s : PrfsStore) (m : MemStore) : Prop :=
  Reaches lockstep InStep (PrfsStore.empty, MemStore.empty) (s, m)

/-- The two stores stand for one file system. -/
def Twins (p : PrfsStore × MemStore) (a : FileSys) : Prop := Refines p.1 a ∧ Mirrors p.2 a ∧ a.Inv

theorem Twins.exec {p : PrfsStore × MemStore} {a : FileSys} (h : Twins p a) (op : Op) (hf : p.1.Fits op)
    (hh : op.Handles p.1.next) (hw : a.live.Unwrapped op) :
    (p.1.exec op).1 = (p.2.exec op).1 ∧ Twins (lockstep p op) (a.exec op).2 := by
  obtain ⟨hr, hm, hi⟩ := h
  have hf' : op.Fits a.next a.cur := by
    rw [← hr.next, ← hr.cur]
    exact hf
  obtain ⟨hr1, hr2⟩ := hr.exec hi op hf
  obtain ⟨hm1, hm2⟩ := hm.exec hi hf' (hr.next ▸ hh) hw
  exact ⟨hr1.trans hm1.symm, hr2, hm2, hi.exec hf'⟩

theorem Twins.empty : Twins (PrfsStore.empty, MemStore.empty) FileSys.init := ⟨.empty, .empty, .init⟩

theorem TwinRun.twins {s : PrfsStore} {m : MemStore} (h : TwinRun s m) : ∃ a, Twins (s, m) a ∧ a.Counted := by
  refine Reaches.invariant (P := fun p => ∃ a, Twins p a ∧ a.Counted) ?_ ⟨_, .empty, .init⟩ h
  rintro p op ⟨a, ht, hc⟩ ⟨⟨hf, hh⟩, hl⟩
  rw [ht.1.live] at hl
  refine ⟨_, (ht.exec _ hf hh (hc.live.unwrapped hl)).2, hc.exec ht.2.2 ?_ hl⟩
  rw [← ht.1.next, ← ht.1.cur]
  exact hf

namespace Twins

variable {s : PrfsStore} {m : MemStore} {a : FileSys}

theorem rr_eq (h : Twins (s, m) a) (g : SnapId) : s.rr g = m.resolve g := by
  have hc : s.cur = m.cur := h.1.cur.trans h.2.1.cur.symm
  rw [PrfsStore.rr, MemStore.resolve, hc]

/-- The view a handle reads is the same in both stores. -/
theorem view_eq (h : Twins (s, m) a) (g : SnapId) : viewAt s.kv (s.rr g) = a.viewOf (m.resolve g) := by
  rw [h.1.viewAt_eq, h.rr_eq]

theorem consistent (h : Twins (s, m) a) (g : SnapId) : (viewAt s.kv (s.rr g)).Consistent := by
  rw [h.view_eq]
  exact h.2.2.cons _

section Node

variable {n : Node}

theorem attrs_eq (h : Twins (s, m) a) (hn : isSnapDir n.id = false) : s.attrs n = m.attrs n := by
  rw [PrfsStore.attrs_eq hn, h.2.1.attrs_eq hn, h.view_eq]

theorem lookup_eq (h : Twins (s, m) a) (hn : isSnapDir n.id = false) (name : Bytes) :
    s.lookup n name = m.lookup n name := by
  rw [PrfsStore.lookup_view hn, h.2.1.lookup_eq hn, h.view_eq]

theorem readdir_eq (h : Twins (s, m) a) (hn : isSnapDir n.id = false) : s.readdir n = m.readdir n := by
  obtain ⟨l, hl, he⟩ := PrfsStore.readdir_eq (s := s) hn
  obtain ⟨l', hl', he'⟩ := h.2.1.readdir_eq hn
  rw [h.view_eq] at hl
  rw [he, he', hl.unique hl']

theorem readdirPage_eq (h : Twins (s, m) a) (hn : isSnapDir n.id = false) (after : Bytes) (max : Nat) :
    s.readdirPage n after max = m.readdirPage n after max := by
  obtain ⟨l, hl, he⟩ := PrfsStore.readdirPage_eq (s := s) hn after max
  obtain ⟨l', hl', he'⟩ := h.2.1.readdirPage_eq hn after max
  rw [h.view_eq] at hl
  rw [he, he', hl.unique hl']

theorem parents_eq (h : Twins (s, m) a) (n : Node) : s.parents n = m.parents n := by
  obtain ⟨l, hl, he⟩ := PrfsStore.parents_eq h.1.base.wf (h.consistent n.snap)
  obtain ⟨l', hl', he'⟩ := h.2.1.parents_eq n
  rw [h.view_eq] at hl
  rw [he, he', hl.unique hl']

end Node

theorem stats_eq (h : Twins (s, m) a) (g : SnapId) : s.stats g = m.stats g := by
  obtain ⟨l, e, hl, hb, he⟩ := PrfsStore.stats_eq h.1.base.wf (h.consistent g)
  obtain ⟨l', e', hl', hb', he'⟩ := h.2.1.stats_eq g
  rw [h.view_eq] at hl hb
  rw [he, he', hl.unique hl', hb.length_eq hb']

theorem diffNodes_eq (h : Twins (s, m) a) (x y : SnapId) : s.diffNodes x y = m.diffNodes x y := by
  have hcur : s.cur < LATEST := h.1.cur ▸ h.2.2.cur_hi
  rcases le_total (s.rr x) (s.rr y) with hxy | hxy
  · have hd := PrfsStore.diffNodes_diffs h.1.base hcur hxy
    rw [h.view_eq, h.view_eq] at hd
    rw [h.rr_eq, h.rr_eq] at hxy
    exact hd.unique (h.2.1.diffNodes_diffs hxy)
  · rw [PrfsStore.diffNodes_eq_nil h.1.base.wf hcur hxy]
    rw [h.rr_eq, h.rr_eq] at hxy
    exact (Mirrors.diffNodes_eq_nil hxy).symm

theorem snapInfo_eq (h : Twins (s, m) a) (g : SnapId) : s.snapInfo g = m.snapInfo g := by
  rw [h.2.1.snapInfo_eq, PrfsStore.snapInfo, h.1.snaps]
  cases a.snaps g with
  | none => rfl
  | some p =>
    have hdrop : (be p.1 ++ p.2).drop 8 = p.2 := List.drop_left' (by simp)
    simp [hdrop, rdbe_be_append]

theorem snapshots_eq (h : Twins (s, m) a) : s.snapshots = m.snapshots := by
  rw [PrfsStore.snapshots, MemStore.snapshots, h.1.cur, h.2.1.cur]

end Twins

/-- Along every common run the stores answer alike, and afterwards every read of a real
node in any view, and every read of the store, is the same in both. -/
theorem stores_agree {s : PrfsStore} {m : MemStore} (h : TwinRun s m) :
    (∀ op, InStep (s, m) op → (s.exec op).1 = (m.exec op).1) ∧ s.rwRoot = m.rwRoot ∧
    (∀ n : Node, 1 ≤ n.id → n.id < s.next →
      (∀ name, s.lookup n name = m.lookup n name) ∧ s.readdir n = m.readdir n ∧
      (∀ after max, s.readdirPage n after max = m.readdirPage n after max) ∧ s.parents n = m.parents n ∧
      s.attrs n = m.attrs n) ∧
    (∀ g, s.stats g = m.stats g ∧ s.snapInfo g = m.snapInfo g) ∧ s.snapshots = m.snapshots ∧
    ∀ x y, s.diffNodes x y = m.diffNodes x y := by
  obtain ⟨a, ht, hc⟩ := h.twins
  refine ⟨fun op hop => ?_, ?_, fun n hlo hhi => ?_, fun g => ⟨ht.stats_eq g, ht.snapInfo_eq g⟩, ht.snapshots_eq,
    ht.diffNodes_eq⟩
  · obtain ⟨⟨hf, hh⟩, hl⟩ := hop
    rw [ht.1.live] at hl
    exact (ht.exec _ hf hh (hc.live.unwrapped hl)).1
  · rw [PrfsStore.rwRoot, MemStore.rwRoot, ht.1.root, ht.2.1.root]
  · have hn : isSnapDir n.id = false := by
      refine isSnapDir_of_lt (lt_of_lt_of_le hhi ?_)
      rw [ht.1.next]
      exact ht.2.2.next_hi
    exact ⟨ht.lookup_eq hn, ht.readdir_eq hn, ht.readdirPage_eq hn, ht.parents_eq n, ht.attrs_eq hn⟩

theorem twinRun_of_small (ops : List Op)
    (h : Allowed lockstep (fun p op => p.1.Small op ∧ op.Handles p.1.next) (PrfsStore.empty, MemStore.empty) ops) :
    TwinRun (ops.foldl lockstep (PrfsStore.empty, MemStore.empty)).1
      (ops.foldl lockstep (PrfsStore.empty, MemStore.empty)).2 :=
  (Reaches.of_allowed h).weaken fun _ op hp => ⟨⟨hp.1.1, hp.2⟩, PrfsStore.fewLinks_of_length hp.1.2 op⟩

theorem stores_agree_after_unlink :
    let p := [.mkfile [], .link ⟨1, LATEST⟩ [97] ⟨2, LATEST⟩, .snapshot [], .unlink ⟨1, LATEST⟩ [97]].foldl lockstep
      (PrfsStore.empty, MemStore.empty)
    p.1.readdir ⟨1, 1⟩ = p.2.readdir ⟨1, 1⟩ ∧ (p.2.readdir ⟨1, 1⟩).length = 1 ∧ p.1.diffNodes 1 2 = p.2.diffNodes 1 2 := by
  have h := stores_agree (twinRun_of_small [.mkfile [], .link ⟨1, LATEST⟩ [97] ⟨2, LATEST⟩, .snapshot [],
    .unlink ⟨1, LATEST⟩ [97]] (by decide))
  exact ⟨(h.2.2.1 ⟨1, 1⟩ (by decide) (by decide)).2.1, by decide, h.2.2.2.2.2 1 2⟩

/-- A file with `k` names in the root. -/
def manyNames (k : Nat) : List Op :=
  .mkfile [] :: (List.range k).map (fun i => .link ⟨1, LATEST⟩ (be (UInt64.ofNat i)) ⟨2, LATEST⟩)

/-- What both stores hold after that run; the count of the names is kept in 32 bits. -/
structure ManyNames (k : Nat) (a : FileSys) : Prop where
  next : a.next = 3
  cur : a.cur = 1
  dir : a.live.IsDir 1
  file : ∃ r, a.live.node 2 = some r ∧ r.type = FType.REG.code ∧ r.nlink = UInt32.ofNat k
  entry : ∀ i < 2 ^ 64, a.live.entry 1 (be (UInt64.ofNat i)) = if i < k then some 2 else none

theorem ManyNames.zero : ManyNames 0 (FileSys.init.exec (.mkfile [])).2 := by
  refine ⟨rfl, rfl, ⟨_, rfl, rfl⟩, ⟨_, rfl, rfl, rfl⟩, fun i _ => rfl⟩

theorem ManyNames.step {k : Nat} {a : FileSys} (h : ManyNames k a) (hk : k < 2 ^ 32) :
    ManyNames (k + 1) (a.exec (.link ⟨1, LATEST⟩ (be (UInt64.ofNat k)) ⟨2, LATEST⟩)).2 := by
  obtain ⟨r, hr, ht, hl⟩ := h.file
  have hdir : ¬ a.live.IsDir 2 := by
    rintro ⟨q, hq, hd⟩
    obtain rfl := Option.some.inj (hr.symm.trans hq)
    rw [ht] at hd
    exact absurd hd (by decide)
  have hfree : a.live.entry 1 (be (UInt64.ofNat k)) = none := by
    rw [h.entry k (by omega), if_neg (lt_irrefl k)]
  have hname : be (UInt64.ofNat k) ≠ SNAPSHOT_NAME := by
    intro he
    have := congrArg List.length he
    simp [SNAPSHOT_NAME, ascii] at this
  have hok : a.live.linkError 1 (be (UInt64.ofNat k)) 2 = .OK :=
    View.linkError_ok.mpr ⟨hname, h.dir, ⟨r, hr⟩, fun hd => absurd hd hdir, hfree⟩
  have hlive : (a.exec (.link ⟨1, LATEST⟩ (be (UInt64.ofNat k)) ⟨2, LATEST⟩)).2.live =
      a.live.link 1 (be (UInt64.ofNat k)) 2 := if_pos hok
  refine ⟨h.next, h.cur, ?_, ⟨View.incLink r, ?_, ht, ?_⟩, fun i hi => ?_⟩
  · rw [hlive, View.link_isDir]
    exact h.dir
  · rw [hlive]
    simp [View.link, View.modify, hr]
  · rw [View.incLink, hl, UInt32.ofNat_add]
    rfl
  · have hinj : be (UInt64.ofNat i) = be (UInt64.ofNat k) ↔ i = k := by
      rw [be_inj, ← UInt64.toNat_inj, UInt64.toNat_ofNat_of_lt' hi,
        UInt64.toNat_ofNat_of_lt' (lt_of_lt_of_le hk (by decide))]
    simp only [hlive, View.link, true_and, hinj, h.entry i hi]
    split_ifs <;> first | rfl | omega

theorem manyNames_succ (k : Nat) (p : PrfsStore × MemStore) :
    (manyNames (k + 1)).foldl lockstep p =
      lockstep ((manyNames k).foldl lockstep p) (.link ⟨1, LATEST⟩ (be (UInt64.ofNat k)) ⟨2, LATEST⟩) := by
  simp [manyNames, List.range_succ]

/-- Both stores make the run together, each link of it being allowed. -/
theorem twins_manyNames {k : Nat} (hk : k ≤ 2 ^ 32) :
    Reaches lockstep (fun p op => p.1.Fits op ∧ op.Handles p.1.next) (PrfsStore.empty, MemStore.empty)
      ((manyNames k).foldl lockstep (PrfsStore.empty, MemStore.empty)) ∧
      ∃ a, Twins ((manyNames k).foldl lockstep (PrfsStore.empty, MemStore.empty)) a ∧ ManyNames k a := by
  induction k with
  | zero =>
    exact ⟨Reaches.refl.tail (i := Op.mkfile []) (by decide), _,
      (Twins.empty.exec (.mkfile []) (by decide) (by decide) trivial).2, .zero⟩
  | succ k ih =>
    obtain ⟨hrun, a, ht, hm⟩ := ih (by omega)
    have hh : Op.Handles ((manyNames k).foldl lockstep (PrfsStore.empty, MemStore.empty)).1.next
        (.link ⟨1, LATEST⟩ (be (UInt64.ofNat k)) ⟨2, LATEST⟩) := by
      rw [ht.1.next, hm.next]
      exact ⟨by decide, by decide⟩
    rw [manyNames_succ]
    exact ⟨hrun.tail ⟨trivial, hh⟩, _,
      (ht.exec (.link ⟨1, LATEST⟩ (be (UInt64.ofNat k)) ⟨2, LATEST⟩) trivial hh trivial).2, hm.step (by omega)⟩

/-- When the count of the names has wrapped to zero, an unlink leaves zero in the one store
and wraps back in the other. -/
theorem unlink_of_wrapped_count {k : Nat} (hpos : 0 < k) (hk : k ≤ 2 ^ 32) (hz : UInt32.ofNat k = 0) :
    let p := (manyNames k ++ [Op.unlink ⟨1, LATEST⟩ (be 0)]).foldl lockstep (PrfsStore.empty, MemStore.empty)
    Reaches lockstep (fun p op => p.1.Fits op ∧ op.Handles p.1.next) (PrfsStore.empty, MemStore.empty) p ∧
      (p.1.attrs ⟨2, LATEST⟩).nlink = 0 ∧ (p.2.attrs ⟨2, LATEST⟩).nlink = 0xffffffff := by
  obtain ⟨hrun, a, ht, hm⟩ := twins_manyNames hk
  rw [List.foldl_append]
  generalize (manyNames k).foldl lockstep (PrfsStore.empty, MemStore.empty) = q at hrun ht
  obtain ⟨hr, hmm, hi⟩ := ht
  obtain ⟨r, hnode, -, hl⟩ := hm.file
  rw [hz] at hl
  have he : a.live.entry 1 (be 0) = some 2 := by simpa [hpos] using hm.entry 0 (by decide)
  have hh : Op.Handles q.1.next (.unlink ⟨1, LATEST⟩ (be 0)) := by
    rw [hr.next, hm.next]
    exact ⟨rfl, by decide, by decide⟩
  refine ⟨hrun.tail ⟨trivial, hh⟩, ?_, ?_⟩
  · have hs := (hr.exec hi (.unlink ⟨1, LATEST⟩ (be 0)) trivial).2
    have hlive : (a.exec (.unlink ⟨1, LATEST⟩ (be 0))).2.live.node 2 = some r := by
      simp [FileSys.exec, FileSys.onLive, View.unlinkOp, he, View.unlink, View.modify, hnode, View.decLink, hl]
    have hat := PrfsStore.attrs_eq (s := (q.1.exec (.unlink ⟨1, LATEST⟩ (be 0))).2) (n := ⟨2, LATEST⟩) (by decide)
    rw [PrfsStore.rr, if_pos rfl, hs.live, hlive] at hat
    exact (congrArg Attrs.nlink hat).trans hl
  · have hs := (hmm.unlink_cut hi (show a.live.entry (Node.mk 1 LATEST).id (be 0) = some 2 from he)).2
    have hlive : (a.live.cutLink 1 (be 0) 2).node 2 = some (View.subLink r) := by
      simp [View.cutLink, View.modify, hnode]
    have hat := hs.attrs_eq (n := ⟨2, LATEST⟩) (by decide)
    rw [← hs.node, MemStore.resolve, if_pos rfl, hs.live_node, hlive] at hat
    refine (congrArg Attrs.nlink hat).trans ?_
    show r.nlink - 1 = _
    rw [hl]
    rfl

theorem stores_differ_past_max_links :
    let p := (manyNames (2 ^ 32) ++ [Op.unlink ⟨1, LATEST⟩ (be 0)]).foldl lockstep (PrfsStore.empty, MemStore.empty)
    Reaches lockstep (fun p op => p.1.Fits op ∧ op.Handles p.1.next) (PrfsStore.empty, MemStore.empty) p ∧
      (p.1.attrs ⟨2, LATEST⟩).nlink = 0 ∧ (p.2.attrs ⟨2, LATEST⟩).nlink = 0xffffffff :=
  unlink_of_wrapped_count (by decide) le_rfl (by decide)

end Prfs
