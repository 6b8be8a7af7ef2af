import Prfs.StoreRuns

namespace Prfs

namespace View

variable {v w : View} {dir ddir child c : UInt64} {name dn : Bytes}

/-- The link count of a node, 0 where there is none. -/
def nlink (v : View) (id : UInt64) : UInt32 := ((v.node id).getD {}).nlink

/-- All nodes but `c` are the same, and of `c` only the link count may differ. -/
structure OnlyCount (v w : View) (c : UInt64) : Prop where
  others : ∀ id, id ≠ c → w.node id = v.node id
  same : (w.node c).map (fun r => { r with nlink := 0 }) = (v.node c).map (fun r => { r with nlink := 0 })

/-- The one entry is new and its child has one link more. -/
structure Linked (v w : View) (dir : UInt64) (name : Bytes) (c : UInt64) : Prop where
  free : v.entry dir name = none
  made : w.entry dir name = some c
  entries : ∀ d n, (d, n) ≠ (dir, name) → w.entry d n = v.entry d n
  nodes : OnlyCount v w c
  count : (w.nlink c).toNat = (v.nlink c).toNat + 1

/-- The one entry is gone and its child has one link less. -/
structure Unlinked (v w : View) (dir : UInt64) (name : Bytes) (c : UInt64) : Prop where
  was : v.entry dir name = some c
  gone : w.entry dir name = none
  entries : ∀ d n, (d, n) ≠ (dir, name) → w.entry d n = v.entry d n
  nodes : OnlyCount v w c
  count : (v.nlink c).toNat = (w.nlink c).toNat + 1

/-- The one entry is replaced by the other and all nodes are the same. -/
structure Moved (v w : View) (sdir : UInt64) (sn : Bytes) (ddir : UInt64) (dn : Bytes) (c : UInt64) : Prop where
  was : v.entry sdir sn = some c ∧ v.entry ddir dn = none
  made : w.entry sdir sn = none ∧ w.entry ddir dn = some c
  entries : ∀ d n, (d, n) ≠ (sdir, sn) → (d, n) ≠ (ddir, dn) → w.entry d n = v.entry d n
  nodes : w.node = v.node

theorem add_one_iff {n : UInt32} : (n + 1).toNat = n.toNat + 1 ↔ n ≠ 0xffffffff := by
  rw [UInt32.toNat_add, ne_eq, ← UInt32.toNat_inj]
  have hlt := n.toNat_lt
  show (n.toNat + 1) % 2 ^ 32 = n.toNat + 1 ↔ ¬ n.toNat = 4294967295
  omega

theorem decLink_nlink {r : NodeRec} : r.nlink.toNat = (decLink r).nlink.toNat + 1 ↔ r.nlink ≠ 0 := by
  unfold decLink
  split_ifs with hz
  · have hle : (1 : UInt32) ≤ r.nlink := by
      rw [UInt32.le_iff_toNat_le]
      have : r.nlink.toNat ≠ 0 := fun h => hz (UInt32.toNat_inj.mp h)
      exact Nat.one_le_iff_ne_zero.mpr this
    dsimp only
    rw [UInt32.toNat_sub_of_le _ _ hle, UInt32.toNat_one]
    rw [UInt32.le_iff_toNat_le, UInt32.toNat_one] at hle
    exact iff_of_true (by omega) hz
  · exact iff_of_false (by omega) hz

theorem link_linked_iff {r : NodeRec} (hr : v.node child = some r) (hfree : v.entry dir name = none) :
    Linked v (v.link dir name child) dir name child ↔ v.nlink child ≠ 0xffffffff := by
  have hv : v.nlink child = r.nlink := by simp [nlink, hr]
  have hw : (v.link dir name child).nlink child = r.nlink + 1 := by simp [nlink, link, modify, hr, incLink]
  rw [hv, ← add_one_iff]
  constructor
  · intro h
    rw [← hw, ← hv]
    exact h.count
  · intro hcount
    refine ⟨hfree, by simp [link], fun d n hne => ?_, ⟨fun id hid => by simp [link, modify, hid], ?_⟩, by rw [hw, hv, hcount]⟩
    · have hno : ¬ (d = dir ∧ n = name) := fun hh => hne (by rw [hh.1, hh.2])
      simp only [link, if_neg hno]
    · simp [link, modify, hr, incLink]

theorem unlink_unlinked_iff {r : NodeRec} (hr : v.node c = some r) (he : v.entry dir name = some c) :
    Unlinked v (v.unlink dir name c) dir name c ↔ v.nlink c ≠ 0 := by
  have hv : v.nlink c = r.nlink := by simp [nlink, hr]
  have hw : (v.unlink dir name c).nlink c = (decLink r).nlink := by simp [nlink, unlink, modify, hr]
  rw [hv, ← decLink_nlink]
  constructor
  · intro h
    rw [← hw, ← hv]
    exact h.count
  · intro hcount
    refine ⟨he, by simp [unlink], fun d n hne => ?_, ⟨fun id hid => by simp [unlink, modify, hid], ?_⟩, by rw [hw, hv, hcount]⟩
    · have hno : ¬ (d = dir ∧ n = name) := fun hh => hne (by rw [hh.1, hh.2])
      simp only [unlink, if_neg hno]
    · simp only [unlink, modify, if_true, hr, Option.map_some, Option.some.injEq, decLink]
      split_ifs <;> rfl

/-- A link and the unlink of another name give the count back, unless the link brings it round to 0. -/
theorem decLink_incLink {r : NodeRec} : decLink (incLink r) = r ↔ r.nlink ≠ 0xffffffff := by
  have hback : r.nlink + 1 - 1 = r.nlink := by grind
  have hzero : r.nlink + 1 = 0 ↔ r.nlink = 0xffffffff := by grind
  unfold decLink incLink
  dsimp only
  split_ifs with hz
  · rw [ne_eq, hzero] at hz
    simp only [hback, true_iff]
    exact hz
  · rw [ne_eq, not_not] at hz
    refine iff_of_false (fun h => ?_) (not_not.mpr (hzero.mp hz))
    have hcount : r.nlink + 1 = r.nlink := congrArg NodeRec.nlink h
    grind

/-- A name that is bound is not the free one that a link takes. -/
theorem link_keeps_entry {sdir : UInt64} {sn : Bytes} (he : v.entry sdir sn = some c)
    (hfree : v.entry ddir dn = none) : (v.link ddir dn child).entry sdir sn = some c := by
  have hne : ¬ (sdir = ddir ∧ sn = dn) := by
    rintro ⟨rfl, rfl⟩
    rw [he] at hfree
    cases hfree
  simp only [link, if_neg hne, he]

theorem move_moved_iff {sdir : UInt64} {sn : Bytes} {r : NodeRec} (hr : v.node c = some r)
    (he : v.entry sdir sn = some c) (hfree : v.entry ddir dn = none) :
    Moved v ((v.link ddir dn c).unlink sdir sn c) sdir sn ddir dn c ↔ v.nlink c ≠ 0xffffffff := by
  have hv : v.nlink c = r.nlink := by simp [nlink, hr]
  have hne : ¬ (ddir = sdir ∧ dn = sn) := by
    rintro ⟨rfl, rfl⟩
    rw [he] at hfree
    cases hfree
  have hnode : ((v.link ddir dn c).unlink sdir sn c).node c = some (decLink (incLink r)) := by
    simp [unlink, link, modify, hr]
  rw [hv, ← decLink_incLink]
  constructor
  · intro h
    have hc := congrFun h.nodes c
    rw [hnode, hr] at hc
    exact Option.some.inj hc
  · intro hback
    refine ⟨⟨he, hfree⟩, ⟨by simp [unlink], by simp [unlink, link, hne]⟩, fun d n h1 h2 => ?_, funext fun id => ?_⟩
    · have hs : ¬ (d = sdir ∧ n = sn) := fun hh => h1 (by rw [hh.1, hh.2])
      have hd : ¬ (d = ddir ∧ n = dn) := fun hh => h2 (by rw [hh.1, hh.2])
      simp only [unlink, link, if_neg hs, if_neg hd]
    · by_cases hid : id = c
      · rw [hid, hnode, hback, hr]
      · simp [unlink, link, modify, hid]

theorem unlinkOp_of_entry (he : v.entry dir name = some c) : v.unlinkOp dir name = (.OK, v.unlink dir name c) := by
  rw [unlinkOp, he]

theorem unlinkOp_cases : (∃ c, v.entry dir name = some c ∧ v.unlinkOp dir name = (.OK, v.unlink dir name c)) ∨
    (v.unlinkOp dir name).1 ≠ .OK ∧ (v.unlinkOp dir name).2 = v := by
  cases he : v.entry dir name with
  | none =>
    rw [unlinkOp, he]
    exact Or.inr ⟨by simp, rfl⟩
  | some c => exact Or.inl ⟨c, rfl, unlinkOp_of_entry he⟩

/-- A move is a link and an unlink, or nothing. -/
theorem moveOp_cases {sdir : UInt64} {sn : Bytes} : (∃ c, v.entry sdir sn = some c ∧ v.linkError ddir dn c = .OK ∧
    v.moveOp sdir sn ddir dn = (.OK, (v.link ddir dn c).unlink sdir sn c)) ∨
    (v.moveOp sdir sn ddir dn).1 ≠ .OK ∧ (v.moveOp sdir sn ddir dn).2 = v := by
  cases he : v.entry sdir sn with
  | none =>
    rw [moveOp, he]
    exact Or.inr ⟨by simp, rfl⟩
  | some c =>
    rw [moveOp, he]
    dsimp only
    by_cases hok : v.linkError ddir dn c = .OK
    · rw [if_pos hok, unlinkOp_of_entry (link_keeps_entry he (linkError_ok.mp hok).2.2.2.2)]
      exact Or.inl ⟨c, rfl, hok, rfl⟩
    · rw [if_neg hok]
      exact Or.inr ⟨hok, rfl⟩

end View

namespace PrfsStore

variable {s : PrfsStore}

/-- The view that live handles read. -/
def liveView (s : PrfsStore) : View := viewAt s.kv s.cur

theorem viewAt_latest {snap : SnapId} (hl : snap = LATEST) : viewAt s.kv (s.rr snap) = s.liveView := by
  rw [hl, rr_latest, liveView]

/-- An operation takes the live view where the abstract file system takes it. -/
theorem Sound.exec_live (h : s.Sound) {op : Op} (hf : s.Fits op) :
    ∃ a : FileSys, a.Inv ∧ s.next = a.next ∧ s.liveView = a.live ∧ (s.exec op).2.liveView = (a.exec op).2.live := by
  obtain ⟨a, hr, hi⟩ := h
  exact ⟨a, hi, hr.next, hr.live, (hr.exec hi op hf).2.live⟩

theorem link_ok (h : s.Sound) {dir child : Node} {name : Bytes}
    (hl : s.liveView.linkError dir.id name child.id = .OK) : (s.link dir name child).1 = .OK := by
  obtain ⟨he, -, -⟩ := linkT_spec h.base (h.consistent s.cur) dir.id name child.id
  exact he.trans hl

theorem link_view (h : s.Sound) {dir child : Node} {name : Bytes} (hok : (s.link dir name child).1 = .OK) :
    s.liveView.linkError dir.id name child.id = .OK ∧
      (s.link dir name child).2.liveView = s.liveView.link dir.id name child.id := by
  obtain ⟨he, -, hu⟩ := linkT_spec h.base (h.consistent s.cur) dir.id name child.id
  exact ⟨he.symm.trans hok, (hu hok).live⟩

theorem unlink_view (h : s.Sound) {dir : Node} {name : Bytes} (hok : (s.unlink dir name).1 = .OK) :
    ∃ c, s.liveView.entry dir.id name = some c ∧
      (s.unlink dir name).2.liveView = s.liveView.unlink dir.id name c := by
  obtain ⟨he, -, hu⟩ := unlinkT_spec h.base (h.consistent s.cur) dir.id name
  obtain ⟨c, hc, hop⟩ := View.unlinkOp_cases.resolve_right fun hno => hno.1 (he.symm.trans hok)
  refine ⟨c, hc, hu.live.trans ?_⟩
  rw [hop]
  rfl

theorem move_view (h : s.Sound) {sdir ddir : Node} {sn dn : Bytes} (hok : (s.move sdir sn ddir dn).1 = .OK) :
    ∃ c, s.liveView.entry sdir.id sn = some c ∧ s.liveView.linkError ddir.id dn c = .OK ∧
      (s.move sdir sn ddir dn).2.liveView = (s.liveView.link ddir.id dn c).unlink sdir.id sn c := by
  obtain ⟨a, hr, hi⟩ := h
  obtain ⟨he, hr'⟩ := hr.move hi sdir ddir sn dn
  have hlive : s.liveView = a.live := hr.live
  rw [hlive]
  obtain ⟨c, hc, hl, hop⟩ := View.moveOp_cases.resolve_right fun hno => hno.1 (he.symm.trans hok)
  exact ⟨c, hc, hl, hr'.live.trans (congrArg Prod.snd hop)⟩

/-- A link, an unlink or a move that succeeds changes the live view by what it names and by nothing else, exactly when
the link count of its child is not at the end of its range. -/
theorem link_frames_iff (hs : Run empty s) :
    (∀ dir name child, (s.link dir name child).1 = .OK →
      (View.Linked s.liveView (s.link dir name child).2.liveView dir.id name child.id ↔
        s.liveView.nlink child.id ≠ 0xffffffff)) ∧
    (∀ dir name, (s.unlink dir name).1 = .OK → ∃ c, s.liveView.entry dir.id name = some c ∧
      (View.Unlinked s.liveView (s.unlink dir name).2.liveView dir.id name c ↔ s.liveView.nlink c ≠ 0)) ∧
    ∀ sdir sn ddir dn, (s.move sdir sn ddir dn).1 = .OK → ∃ c, s.liveView.entry sdir.id sn = some c ∧
      (View.Moved s.liveView (s.move sdir sn ddir dn).2.liveView sdir.id sn ddir.id dn c ↔
        s.liveView.nlink c ≠ 0xffffffff) := by
  have hss := hs.sound
  have hc : s.liveView.Consistent := hss.consistent s.cur
  refine ⟨fun dir name child hok => ?_, fun dir name hok => ?_, fun sdir sn ddir dn hok => ?_⟩
  · obtain ⟨hl, hview⟩ := link_view hss hok
    obtain ⟨-, -, ⟨r, hr⟩, -, hfree⟩ := View.linkError_ok.mp hl
    rw [hview]
    exact View.link_linked_iff hr hfree
  · obtain ⟨c, he, hview⟩ := unlink_view hss hok
    obtain ⟨r, hr⟩ := hc.child he
    rw [hview]
    exact ⟨c, he, View.unlink_unlinked_iff hr he⟩
  · obtain ⟨c, he, hl, hview⟩ := move_view hss hok
    obtain ⟨-, -, ⟨r, hr⟩, -, hfree⟩ := View.linkError_ok.mp hl
    rw [hview]
    exact ⟨c, he, View.move_moved_iff hr he hfree⟩

/-- A file with one name in the root. -/
def oneName : PrfsStore := empty.after [.mkfile [], .link ⟨1, LATEST⟩ [97] ⟨2, LATEST⟩]

/-- Renamed, the file keeps its link count and everything else. -/
theorem link_frames_iff_rename :
    View.Moved oneName.liveView (oneName.move ⟨1, LATEST⟩ [97] ⟨1, LATEST⟩ [98]).2.liveView 1 [97] 1 [98] 2 := by
  obtain ⟨c, hc, hiff⟩ := (link_frames_iff (s := oneName) (run_after (by decide))).2.2 ⟨1, LATEST⟩ [97] ⟨1, LATEST⟩ [98]
    (by decide)
  obtain rfl : c = 2 := Option.some.inj (hc.symm.trans (by decide))
  exact hiff.mpr (by decide)

/-- A file with the given number of names in the root, each the eight bytes of its number. -/
def manyNames : Nat → PrfsStore
  | 0 => empty.after [.mkfile []]
  | n + 1 => ((manyNames n).link ⟨1, LATEST⟩ (be (UInt64.ofNat n)) ⟨2, LATEST⟩).2

theorem manyNames_next (n : Nat) :
    manyNames (n + 1) = ((manyNames n).link ⟨1, LATEST⟩ (be (UInt64.ofNat n)) ⟨2, LATEST⟩).2 := rfl

/-- The live view of such a store. -/
structure ManyNames (n : Nat) (v : View) : Prop where
  root : v.IsDir 1
  file : ∃ r, v.node 2 = some r ∧ r.type = FType.REG.code ∧ r.nlink = UInt32.ofNat n
  names : ∀ m, n ≤ m → m < 2 ^ 64 → v.entry 1 (be (UInt64.ofNat m)) = none

theorem ManyNames.linkError {n : Nat} {v : View} (h : ManyNames n v) (hn : n < 2 ^ 64) :
    v.linkError 1 (be (UInt64.ofNat n)) 2 = .OK := by
  obtain ⟨r, hr, ht, -⟩ := h.file
  refine View.linkError_ok.mpr ⟨fun hname => ?_, h.root, ⟨r, hr⟩, fun hd => ?_, h.names n le_rfl hn⟩
  · have hlen := congrArg List.length hname
    rw [be_length] at hlen
    exact absurd hlen (by decide)
  · obtain ⟨q, hq, hdir⟩ := hd
    rw [hr] at hq
    cases hq
    rw [ht] at hdir
    exact absurd hdir (by decide)

theorem ManyNames.link {n : Nat} {v : View} (h : ManyNames n v) (hn : n < 2 ^ 64) :
    ManyNames (n + 1) (v.link 1 (be (UInt64.ofNat n)) 2) := by
  obtain ⟨r, hr, ht, hcount⟩ := h.file
  refine ⟨(View.link_isDir 1).mpr h.root, ⟨View.incLink r, by simp [View.link, View.modify, hr], ht, ?_⟩, fun m hm hlt => ?_⟩
  · rw [View.incLink, hcount, UInt32.ofNat_add]
    rfl
  · have hne : be (UInt64.ofNat m) ≠ be (UInt64.ofNat n) := by
      intro he
      have hm64 : (UInt64.ofNat m).toNat = m := UInt64.toNat_ofNat_of_lt' hlt
      have hn64 : (UInt64.ofNat n).toNat = n := UInt64.toNat_ofNat_of_lt' hn
      rw [be_inj.mp he, hn64] at hm64
      omega
    simp only [View.link, hne, and_false, if_false]
    exact h.names m (by omega) hlt

theorem manyNames_run {n : Nat} (hn : n ≤ 2 ^ 64) : Run empty (manyNames n) ∧ ManyNames n (manyNames n).liveView := by
  induction n with
  | zero =>
    refine ⟨run_after (by decide), viewAt_isDir.mpr (by decide), ⟨_, rfl, by decide, by decide⟩, fun m _ _ => ?_⟩
    cases h : (manyNames 0).liveView.entry 1 (be (UInt64.ofNat m)) with
    | none => rfl
    | some c =>
      obtain ⟨r, hr, hd⟩ := viewAt_entry.mp h
      obtain ⟨x, hx, -⟩ := Option.map_eq_some_iff.mp hd
      have hnil : (manyNames 0).kv.downLinks = OrdMap.empty := by decide
      rw [hnil] at hx
      simp at hx
  | succ n ih =>
    obtain ⟨hrun, hnames⟩ := ih (by omega)
    have hss := hrun.sound
    have hl := hnames.linkError (by omega)
    have hok : ((manyNames n).link ⟨1, LATEST⟩ (be (UInt64.ofNat n)) ⟨2, LATEST⟩).1 = .OK := link_ok hss hl
    have hfits : (manyNames n).Fits (.link ⟨1, LATEST⟩ (be (UInt64.ofNat n)) ⟨2, LATEST⟩) := trivial
    refine ⟨hrun.tail hfits, ?_⟩
    rw [manyNames_next, (link_view hss hok).2]
    exact hnames.link (by omega)

theorem manyNames_link {n : Nat} (hn : n < 2 ^ 64) :
    ((manyNames n).link ⟨1, LATEST⟩ (be (UInt64.ofNat n)) ⟨2, LATEST⟩).1 = .OK := by
  obtain ⟨hrun, hnames⟩ := manyNames_run hn.le
  have hl := hnames.linkError hn
  exact link_ok hrun.sound hl

theorem manyNames_nlink {n : Nat} (hn : n ≤ 2 ^ 64) : (manyNames n).liveView.nlink 2 = UInt32.ofNat n := by
  obtain ⟨r, hr, -, hcount⟩ := (manyNames_run hn).2.file
  rw [View.nlink, hr, Option.getD_some, hcount]

/-- With as many names for the file as the count can tell, one more brings the count to 0. -/
theorem manyNames_wrap {n : Nat} (hn : n + 1 = 2 ^ 32) :
    Run empty (manyNames n) ∧ ((manyNames n).link ⟨1, LATEST⟩ (be (UInt64.ofNat n)) ⟨2, LATEST⟩).1 = .OK ∧
      (manyNames n).liveView.nlink 2 = 0xffffffff ∧
      ((manyNames n).link ⟨1, LATEST⟩ (be (UInt64.ofNat n)) ⟨2, LATEST⟩).2.liveView.nlink 2 = 0 := by
  have hlt : n < 2 ^ 64 := by omega
  have hlast : UInt32.ofNat n = 0xffffffff := by
    obtain rfl : n = 4294967295 := by omega
    rfl
  have hround : UInt32.ofNat (n + 1) = 0 := by
    rw [hn]
    rfl
  have hbefore := manyNames_nlink hlt.le
  have hafter := manyNames_nlink (Nat.succ_le_of_lt hlt)
  rw [hlast] at hbefore
  rw [Nat.succ_eq_add_one, hround, manyNames_next] at hafter
  exact ⟨(manyNames_run hlt.le).1, manyNames_link hlt, hbefore, hafter⟩

theorem link_count_wraps :
    let s := manyNames 4294967295
    let t := (s.link ⟨1, LATEST⟩ (be (UInt64.ofNat 4294967295)) ⟨2, LATEST⟩).2
    Run empty s ∧ (s.link ⟨1, LATEST⟩ (be (UInt64.ofNat 4294967295)) ⟨2, LATEST⟩).1 = .OK ∧
      s.liveView.nlink 2 = 0xffffffff ∧ t.liveView.nlink 2 = 0 ∧ ¬ View.Linked s.liveView t.liveView 1
        (be (UInt64.ofNat 4294967295)) 2 := by
  intro s t
  obtain ⟨hrun, hok, hbefore, hafter⟩ := @manyNames_wrap 4294967295 (by decide)
  refine ⟨hrun, hok, hbefore, hafter, fun h => ?_⟩
  have hcount := h.count
  rw [hbefore, hafter] at hcount
  exact absurd hcount (by decide)

end PrfsStore

end Prfs
