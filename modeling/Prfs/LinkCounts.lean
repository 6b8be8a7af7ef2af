import Prfs.StoreRuns
import Prfs.StoreReads

namespace Prfs

namespace View

/-- A link that succeeds, the one a move makes before it unlinks included, leaves its
child with fewer than 2^32 links. -/
def FewLinks (v : View) : Op → Prop
  | .link dir name child =>
    v.linkError dir.id name child.id = .OK → (v.link dir.id name child.id).linkCount 1 child.id < 2 ^ 32
  | .move sdir sn ddir dn => ∀ c, v.entry sdir.id sn = some c → v.linkError ddir.id dn c = .OK →
    (v.link ddir.id dn c).linkCount 1 c < 2 ^ 32
  | _ => True

variable {v : View}

theorem linkOp_counted (h : v.Counted 1) {dir child : UInt64} {name : Bytes}
    (hf : v.linkError dir name child = .OK → (v.link dir name child).linkCount 1 child < 2 ^ 32) :
    (v.linkOp dir name child).2.Counted 1 := by
  unfold linkOp
  split_ifs with hok
  · exact h.link (linkError_ok.mp hok).2.2.2.2 (hf hok)
  · exact h

theorem unlinkOp_counted (h : v.Counted 1) (dir : UInt64) (name : Bytes) :
    (v.unlinkOp dir name).2.Counted 1 := by
  unfold unlinkOp
  split
  · exact h
  · next c he => exact h.unlink he

theorem moveOp_counted (h : v.Counted 1) {sdir ddir : UInt64} {sn dn : Bytes}
    (hf : ∀ c, v.entry sdir sn = some c → v.linkError ddir dn c = .OK →
      (v.link ddir dn c).linkCount 1 c < 2 ^ 32) : (v.moveOp sdir sn ddir dn).2.Counted 1 := by
  unfold moveOp
  split
  · exact h
  · next c he =>
    split_ifs with hok
    · exact unlinkOp_counted (h.link (linkError_ok.mp hok).2.2.2.2 (hf c he hok)) sdir sn
    · exact h

theorem setOp_counted (h : v.Counted 1) (id : UInt64) (want : UInt32 → Bool) {f : NodeRec → NodeRec}
    (hf : Keeps f) : (v.setOp id want f).2.Counted 1 := by
  unfold setOp
  split
  · exact h
  · split_ifs
    · exact h.modify hf.nlink
    · exact h

end View

namespace FileSys

variable {a : FileSys}

def Counted (a : FileSys) : Prop := ∀ g, (a.viewOf g).Counted 1

theorem Counted.live (h : a.Counted) : a.live.Counted 1 := Inv.viewOf_cur a ▸ h a.cur

theorem Counted.init : FileSys.init.Counted := by
  intro g c
  have hent : (FileSys.init.viewOf g).entriesOf c = ∅ := by
    ext ⟨d, n⟩
    simp only [View.entriesOf, viewOf, Set.mem_ofPred_eq, Set.mem_empty_iff_false, iff_false]
    split_ifs <;> simp [FileSys.init]
  refine ⟨hent ▸ Set.finite_empty, fun r hr => ?_⟩
  simp only [View.linkCount, hent, Set.ncard_empty, Nat.zero_add]
  simp only [viewOf] at hr
  split_ifs at hr
  · simp [FileSys.init] at hr
  · simp only [FileSys.init, ite_eq_iff, Option.some.injEq, reduceCtorEq, and_false, or_false] at hr
    obtain ⟨rfl, rfl⟩ := hr
    rfl

theorem Counted.exec (h : a.Counted) (hi : a.Inv) {op : Op} (hf : op.Fits a.next a.cur)
    (hl : a.live.FewLinks op) : (a.exec op).2.Counted := by
  have hlive : ∀ {b : FileSys}, b.cur = a.cur → b.past = a.past → b.live.Counted 1 → b.Counted :=
    fun h1 h2 h3 => Inv.forall_viewOf (P := fun v => v.Counted 1) h1 h2 h h3
  have hnew : ∀ t blob spec, (a.alloc t blob spec).2.Counted := by
    intro t blob spec
    refine hlive rfl rfl (h.live.alloc hi.live_cons hi.next_free ?_ rfl)
    have := hi.next_lo
    grind
  cases op with
  | mkdir => exact hnew _ _ _
  | mkfile c => exact hnew _ _ _
  | symlink t => exact hnew _ _ _
  | mkfifo => exact hnew _ _ _
  | mksock => exact hnew _ _ _
  | mknod t maj min => exact hnew _ _ _
  | link dir name child => exact hlive rfl rfl (View.linkOp_counted h.live hl)
  | unlink dir name => exact hlive rfl rfl (View.unlinkOp_counted h.live _ _)
  | move sdir sn ddir dn => exact hlive rfl rfl (View.moveOp_counted h.live hl)
  | setContent reg c => exact hlive rfl rfl (View.setOp_counted h.live _ _ ⟨fun _ => rfl, fun _ => rfl⟩)
  | setTarget lnk t => exact hlive rfl rfl (View.setOp_counted h.live _ _ ⟨fun _ => rfl, fun _ => rfl⟩)
  | setRdev dev maj min => exact hlive rfl rfl (View.setOp_counted h.live _ _ ⟨fun _ => rfl, fun _ => rfl⟩)
  | setContentSeed reg seed =>
    exact hlive rfl rfl (View.setOp_counted h.live _ _ ⟨fun _ => rfl, fun _ => rfl⟩)
  | setAttr n s => exact hlive rfl rfl (h.live.modify s.keeps.nlink)
  | setTime t => exact hlive rfl rfl h.live
  | setContentConfig blob => exact hlive rfl rfl h.live
  | snapshot label =>
    intro g
    rw [Inv.viewOf_snapshot hf]
    exact h g

end FileSys

/-- The effective down-link and up-link sets of a view, as the store scans them. -/
def DownEntry (kv : Data) (g : SnapId) (dir : UInt64) (name : Bytes) (child : UInt64) : Prop :=
  ∃ r, loadNode kv dir g = some r ∧ (name, child) ∈ scanDownlinks kv dir r.dnLinkVer

def UpEntry (kv : Data) (g : SnapId) (child dir : UInt64) (name : Bytes) : Prop :=
  ∃ r, loadNode kv child g = some r ∧ be dir ++ name ∈ scanUplinks kv child r.upLinkVer

theorem downEntry_iff {kv : Data} {g : SnapId} {dir child : UInt64} {name : Bytes} :
    DownEntry kv g dir name child ↔ (viewAt kv g).entry dir name = some child := by
  simp only [DownEntry, viewAt_entry, mem_scanDownlinks]

theorem upEntry_iff {kv : Data} {g : SnapId} {dir child : UInt64} {name : Bytes} :
    UpEntry kv g child dir name ↔ (viewAt kv g).up child dir name := by
  simp only [UpEntry, viewAt, upAt_iff_raw, mem_scanUplinks, upRaw]

namespace PrfsStore

variable {s : PrfsStore}

/-- Runs in which no node ever gets 2^32 links. -/
def FewLinksRun (s t : PrfsStore) : Prop :=
  Reaches (fun s op => (s.exec op).2) (fun s op => s.Fits op ∧ (viewAt s.kv s.cur).FewLinks op) s t

theorem FewLinksRun.counted (h : FewLinksRun empty s) : ∃ a, Refines s a ∧ a.Inv ∧ a.Counted := by
  refine Reaches.invariant (P := fun s => ∃ a, Refines s a ∧ a.Inv ∧ a.Counted) ?_
    ⟨_, .empty, .init, .init⟩ h
  rintro t op ⟨a, hr, hi, hc⟩ ⟨hf, hl⟩
  have hf' : op.Fits a.next a.cur := by
    rw [← hr.next, ← hr.cur]
    exact hf
  rw [hr.live] at hl
  exact ⟨_, (hr.exec hi _ hf).2, hi.exec hf', hc.exec hi hf' hl⟩

/-- A node has no more links than the down-link table has keys. -/
theorem linkCount_le (kv : Data) (g : SnapId) (c : UInt64) :
    (viewAt kv g).linkCount 1 c ≤ kv.downLinks.entries.length + 1 := by
  have hsub : (viewAt kv g).entriesOf c ⊆
      ((kv.downLinks.entries.map (fun e => (rdbe e.1, e.1.drop 16))).toFinset : Set (UInt64 × Bytes)) := by
    rintro ⟨d, n⟩ he
    obtain ⟨r, -, hd⟩ := viewAt_entry.mp he
    obtain ⟨v, hv, -⟩ := Option.map_eq_some_iff.mp hd
    have hl : (be d ++ be r.dnLinkVer).length = 16 := by simp
    simp only [List.coe_toFinset, Set.mem_ofPred_eq, List.mem_map, Prod.mk.injEq]
    exact ⟨_, OrdMap.mem_iff_get.mpr hv, (key2_fields d r.dnLinkVer n).1, List.drop_left' hl⟩
  have hcard := Set.ncard_le_ncard hsub (Finset.finite_toSet _)
  rw [Set.ncard_coe_finset] at hcard
  have hlen := List.toFinset_card_le (kv.downLinks.entries.map (fun e => (rdbe e.1, e.1.drop 16)))
  rw [List.length_map] at hlen
  unfold View.linkCount
  split_ifs <;> omega

theorem View.link_linkCount_le (v : View) (dir child : UInt64) (name : Bytes) (hfree : v.entry dir name = none) :
    (v.link dir name child).linkCount 1 child ≤ v.linkCount 1 child + 1 := by
  simp only [View.linkCount, View.link_entriesOf hfree child, if_true]
  have := Set.ncard_insert_le (dir, name) (v.entriesOf child)
  omega

theorem fewLinks_of_length {kv : Data} {g : SnapId} (h : kv.downLinks.entries.length < 2 ^ 32 - 2) (op : Op) :
    (viewAt kv g).FewLinks op := by
  have hb : ∀ dir name child, (viewAt kv g).linkError dir name child = .OK →
      ((viewAt kv g).link dir name child).linkCount 1 child < 2 ^ 32 := by
    intro dir name child hok
    have h1 := View.link_linkCount_le _ dir child name (View.linkError_ok.mp hok).2.2.2.2
    have h2 := linkCount_le kv g child
    omega
  cases op <;> simp only [View.FewLinks]
  · exact hb _ _ _
  · exact fun c _ => hb _ _ c

/-- Down-links, up-links and link counts agree in every view, and every way of reading
the tree shows those entries. -/
theorem link_graph_consistent (hs : Run empty s) {g : SnapId} (hg : 1 ≤ g ∧ g ≤ s.cur) :
    (∀ d n c, DownEntry s.kv g d n c ↔ UpEntry s.kv g c d n) ∧
    (∀ d n c, DownEntry s.kv g d n c →
      (∃ r, loadNode s.kv d g = some r ∧ r.type = FType.DIR.code) ∧ ∃ r, loadNode s.kv c g = some r) ∧
    (FewLinksRun empty s → ∀ c r, loadNode s.kv c g = some r →
      {p : UInt64 × Bytes | DownEntry s.kv g p.1 p.2 c}.Finite ∧
      r.nlink.toNat = {p : UInt64 × Bytes | DownEntry s.kv g p.1 p.2 c}.ncard + if c = s.root then 1 else 0) ∧
    (∀ h, s.rr h = g → ∀ d, isSnapDir d = false →
      (∀ n c, n ≠ SNAPSHOT_NAME → (s.lookup ⟨d, h⟩ n = some ⟨c, h⟩ ↔ DownEntry s.kv g d n c)) ∧
      (s.readdir ⟨d, h⟩).Pairwise (fun x y => x.1 < y.1) ∧
      (∀ n x, (n, x) ∈ s.readdir ⟨d, h⟩ ↔ x.snap = h ∧ DownEntry s.kv g d n x.id) ∧
      (s.parents ⟨d, h⟩).Nodup ∧
      ∀ x, x ∈ s.parents ⟨d, h⟩ ↔ x.snap = h ∧ ∃ n, DownEntry s.kv g x.id n d) := by
  have hss := hs.sound
  have hc := hss.consistent g
  refine ⟨fun d n c => ?_, fun d n c he => ?_, fun hfew c r hrec => ?_, ?_⟩
  · rw [downEntry_iff, upEntry_iff]
    exact hc.mirror
  · rw [downEntry_iff] at he
    refine ⟨viewAt_isDir.mp (hc.dir he), ?_⟩
    obtain ⟨q, hq⟩ := hc.child he
    obtain ⟨r, hr', -⟩ := Option.map_eq_some_iff.mp hq
    exact ⟨r, hr'⟩
  · obtain ⟨a, hr, -, hcnt⟩ := hfew.counted
    have hcount : (viewAt s.kv g).Counted 1 := by
      rw [hr.viewAt_eq]
      exact hcnt g
    have hset : {p : UInt64 × Bytes | DownEntry s.kv g p.1 p.2 c} = (viewAt s.kv g).entriesOf c := by
      ext p
      simp only [Set.mem_ofPred_eq, downEntry_iff, View.entriesOf]
    obtain ⟨hfin, hn⟩ := hcount c
    rw [hset, hss.root]
    exact ⟨hfin, hn r.bare (by simp [viewAt, hrec])⟩
  · intro h hh d hd
    subst hh
    obtain ⟨l, hl, hrd⟩ := readdir_eq (s := s) (d := ⟨d, h⟩) hd
    obtain ⟨p, hp, hpar⟩ := parents_eq hss.base.wf (n := ⟨d, h⟩) hc
    dsimp only at hl hp
    simp only [downEntry_iff]
    refine ⟨fun n c hn => ?_, ?_, fun n x => ?_, ?_, fun x => ?_⟩
    · rw [lookup_eq (d := ⟨d, h⟩) hd (fun hh => hn hh.1)]
      simp only [Option.map_eq_some_iff, Node.mk.injEq, and_true, exists_eq_right]
    · rw [hrd]
      exact List.pairwise_map.mpr hl.sorted
    · rw [hrd]
      obtain ⟨xi, xs⟩ := x
      simp only [List.mem_map, Prod.exists, hl.mem, Prod.mk.injEq, Node.mk.injEq]
      constructor
      · rintro ⟨_, _, he, rfl, rfl, rfl⟩
        exact ⟨rfl, he⟩
      · rintro ⟨rfl, he⟩
        exact ⟨n, xi, he, rfl, rfl, rfl⟩
    · rw [hpar]
      refine List.Nodup.map (fun x y hxy => (Node.mk.inj hxy).1) ?_
      exact hp.sorted.imp fun hab => ne_of_lt hab
    · rw [hpar]
      obtain ⟨xi, xs⟩ := x
      simp only [List.mem_map, hp.mem, Node.mk.injEq]
      constructor
      · rintro ⟨_, he, rfl, rfl⟩
        exact ⟨rfl, he⟩
      · rintro ⟨rfl, he⟩
        exact ⟨xi, he, rfl, rfl⟩

/-- Operations on a store with few down-link keys. -/
def Small (s : PrfsStore) (op : Op) : Prop := s.Fits op ∧ s.kv.downLinks.entries.length < 2 ^ 32 - 2

instance Small.decidable (s : PrfsStore) (op : Op) : Decidable (s.Small op) :=
  inferInstanceAs (Decidable (s.Fits op ∧ _))

theorem fewLinksRun_after {s : PrfsStore} {ops : List Op}
    (h : Allowed (fun s op => (s.exec op).2) Small s ops) : FewLinksRun s (s.after ops) :=
  (Reaches.of_allowed h).weaken fun _ op hs => ⟨hs.1, fewLinks_of_length hs.2 op⟩

theorem link_graph_consistent_two_names :
    let s := empty.after [.mkfile [], .link ⟨1, LATEST⟩ [97] ⟨2, LATEST⟩, .snapshot [],
      .link ⟨1, LATEST⟩ [98] ⟨2, LATEST⟩]
    s.parents ⟨2, LATEST⟩ = [⟨1, LATEST⟩] ∧
      {p : UInt64 × Bytes | DownEntry s.kv 2 p.1 p.2 2}.ncard = 2 := by
  refine ⟨by decide, ?_⟩
  have h := (link_graph_consistent (s := empty.after [.mkfile [], .link ⟨1, LATEST⟩ [97] ⟨2, LATEST⟩,
    .snapshot [], .link ⟨1, LATEST⟩ [98] ⟨2, LATEST⟩]) (run_after (by decide)) (g := 2)
    (by decide)).2.2.1 (fewLinksRun_after (by decide)) 2
  obtain ⟨r, hr, hn⟩ : ∃ r, loadNode (empty.after [.mkfile [], .link ⟨1, LATEST⟩ [97] ⟨2, LATEST⟩,
    .snapshot [], .link ⟨1, LATEST⟩ [98] ⟨2, LATEST⟩]).kv 2 2 = some r ∧ r.nlink.toNat = 2 :=
    ⟨_, rfl, by decide⟩
  have h2 := (h r hr).2
  rw [hn] at h2
  exact h2.symm

end PrfsStore

end Prfs
