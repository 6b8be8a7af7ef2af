import Prfs.MemRefines

namespace Prfs

namespace Mirrors

variable {m : MemStore} {a : FileSys} {n : Node}

/-- A live handle shows the type its record has. -/
theorem live_type (h : Mirrors m a) (hi : a.Inv) (hn : n.Live a.next) :
    ∃ r, a.live.node n.id = some r ∧ r.type = (m.effAttr n.id n.snap).type.code := by
  obtain ⟨hs, hlo, hhi⟩ := hn
  obtain ⟨r, hr⟩ := hi.exist hlo hhi
  refine ⟨r, hr, ?_⟩
  rw [← h.live_node] at hr
  obtain ⟨v, hv, rfl⟩ := Option.map_eq_some_iff.mp hr
  have hbit := isSnapDir_of_lt (lt_of_lt_of_le hhi hi.next_hi)
  have heff : m.eff n.id n.snap = some v := by rw [MemStore.eff, MemStore.resolve, if_pos hs, hv]
  simp [MemStore.effAttr, hbit, MemStore.attrOf, heff, NodeVer.toRec]

theorem live_isDir (h : Mirrors m a) (hi : a.Inv) (hn : n.Live a.next) :
    (m.effAttr n.id n.snap).type = .DIR ↔ a.live.IsDir n.id := by
  obtain ⟨r, hr, ht⟩ := h.live_type hi hn
  unfold View.IsDir
  rw [← FType.code_inj, ← ht]
  constructor
  · exact fun hd => ⟨r, hr, hd⟩
  · rintro ⟨q, hq, hd⟩
    obtain rfl := Option.some.inj (hr.symm.trans hq)
    exact hd

theorem link_error (h : Mirrors m a) (hi : a.Inv) {dir child : Node} (hd : dir.Live a.next) (hc : child.Live a.next)
    (name : Bytes) : (m.link dir name child).1 = a.live.linkError dir.id name child.id := by
  obtain ⟨rd, hrd, -⟩ := h.live_type hi hd
  obtain ⟨rc, hrc, -⟩ := h.live_type hi hc
  classical
  unfold View.linkError MemStore.link
  simp only [ne_eq, h.live_isDir hi hd, h.live_isDir hi hc, h.reachable_iff, h.linkLiveAt_latest, hrd, hrc,
    reduceCtorEq, if_false, Option.isSome_iff_ne_none]
  split_ifs <;> rfl

theorem link (h : Mirrors m a) (hi : a.Inv) {dir child : Node} (hd : dir.Live a.next) (hc : child.Live a.next)
    (name : Bytes) : (m.link dir name child).1 = (a.live.linkOp dir.id name child.id).1 ∧
      Mirrors (m.link dir name child).2 { a with live := (a.live.linkOp dir.id name child.id).2 } := by
  have he := h.link_error hi hd hc name
  refine ⟨he, ?_⟩
  unfold View.linkOp
  by_cases hok : a.live.linkError dir.id name child.id = .OK
  · obtain ⟨-, -, ⟨r, hr⟩, -, hfree⟩ := View.linkError_ok.mp hok
    simp only [hok, if_true]
    rw [hok] at he
    unfold MemStore.link at he ⊢
    split_ifs at he ⊢
    exact h.addLink hfree hr
  · simp only [hok, if_false]
    rw [← he] at hok
    unfold MemStore.link at hok ⊢
    split_ifs at hok ⊢ <;> first | exact h | exact absurd rfl hok

theorem unlink_cut (h : Mirrors m a) (hi : a.Inv) {dir : Node} {name : Bytes} {child : UInt64}
    (he : a.live.entry dir.id name = some child) : (m.unlink dir name).1 = .OK ∧
      Mirrors (m.unlink dir name).2 { a with live := a.live.cutLink dir.id name child } := by
  obtain ⟨r, hr⟩ := hi.live_cons.child he
  rw [← h.live_entry] at he
  obtain ⟨iv, hiv, rfl⟩ := Option.map_eq_some_iff.mp he
  have hend := h.endLink dir.id name hr
  unfold MemStore.endLink at hend
  unfold MemStore.unlink
  unfold MemStore.ivs at hiv hend
  cases hg : m.links.get (toLex (dir.id, name)) with
  | none =>
    rw [hg] at hiv
    cases hiv
  | some ivs =>
    rw [hg, Option.getD_some] at hiv hend
    simp only [hiv, true_and]
    exact hend

theorem unlink (h : Mirrors m a) (hi : a.Inv) {dir : Node} {name : Bytes} (hw : a.live.Held dir.id name) :
    (m.unlink dir name).1 = (a.live.unlinkOp dir.id name).1 ∧
      Mirrors (m.unlink dir name).2 { a with live := (a.live.unlinkOp dir.id name).2 } := by
  unfold View.unlinkOp
  cases he : a.live.entry dir.id name with
  | none =>
    rw [← h.live_entry] at he
    have hn : m.unlink dir name = (.NOENT, m) := by
      unfold MemStore.unlink
      unfold MemStore.ivs liveAtR at he
      cases hg : m.links.get (toLex (dir.id, name)) with
      | none => rfl
      | some ivs =>
        rw [hg, Option.getD_some] at he
        simp only [Option.map_eq_none_iff.mp he]
    rw [hn]
    exact ⟨rfl, h⟩
  | some child =>
    dsimp only
    rw [← View.cutLink_eq hw he]
    exact h.unlink_cut hi he

theorem move (h : Mirrors m a) (hi : a.Inv) {sdir ddir : Node} {sn dn : Bytes} (hd : ddir.Live a.next)
    (hw : ∀ c, a.live.entry sdir.id sn = some c → a.live.linkError ddir.id dn c = .OK →
      (a.live.link ddir.id dn c).Held sdir.id sn) :
    (m.move sdir sn ddir dn).1 = (a.live.moveOp sdir.id sn ddir.id dn).1 ∧
      Mirrors (m.move sdir sn ddir dn).2 { a with live := (a.live.moveOp sdir.id sn ddir.id dn).2 } := by
  unfold MemStore.move View.moveOp
  rw [h.linkLiveAt_latest]
  cases he : a.live.entry sdir.id sn with
  | none => exact ⟨rfl, h⟩
  | some c =>
    obtain ⟨r, hr⟩ := hi.live_cons.child he
    have hc : Node.Live a.next ⟨c, LATEST⟩ := ⟨rfl, (hi.live_ids hr).1⟩
    obtain ⟨hle, hlm⟩ := h.link hi hd hc dn
    dsimp only
    cases hl : m.link ddir dn ⟨c, LATEST⟩ with
    | mk e m' =>
      rw [hl] at hle hlm
      by_cases hok : a.live.linkError ddir.id dn c = .OK
      · obtain rfl : e = .OK := hle.trans hok
        have hv : (a.live.linkOp ddir.id dn c).2 = a.live.link ddir.id dn c := if_pos hok
        rw [hv] at hlm
        rw [if_pos hok]
        exact hlm.unlink (hi.change (.link hok)) (hw c he hok)
      · have hv : (a.live.linkOp ddir.id dn c).2 = a.live := if_neg hok
        rw [hv] at hlm
        rw [if_neg hok]
        have hne : e ≠ .OK := fun h0 => hok (hle.symm.trans h0)
        cases e <;> first | exact absurd rfl hne | exact ⟨hle, hlm⟩

theorem guardedSet (h : Mirrors m a) (hi : a.Inv) (hn : n.Live a.next) (want : FType → Bool) (code : UInt32 → Bool)
    (hwant : ∀ t : FType, code t.code = want t) {f : NodeVer → NodeVer} (hf : ∀ v, (f v).snap = v.snap)
    {F : NodeRec → NodeRec} (hF : ∀ v, (f v).toRec = F v.toRec) :
    (m.guardedSet n want f).1 = (a.live.setOp n.id code F).1 ∧
      Mirrors (m.guardedSet n want f).2 { a with live := (a.live.setOp n.id code F).2 } := by
  obtain ⟨r, hr, ht⟩ := h.live_type hi hn
  unfold MemStore.guardedSet View.setOp
  simp only [hr, ht, hwant]
  split_ifs
  · exact ⟨rfl, h.setLive hf hF hr⟩
  · exact ⟨rfl, h⟩

theorem next_vers (h : Mirrors m a) (hi : a.Inv) : m.vers m.next = [] := by
  have hn := hi.next_free
  rw [← h.next, ← h.live_node, MemStore.recAt, Option.map_eq_none_iff, MemStore.effR,
    (h.ok.vers m.next).effAt_live le_rfl] at hn
  exact List.getLast?_eq_none_iff.mp hn

theorem alloc (h : Mirrors m a) (hi : a.Inv) (t : FType) (blob : Bytes) (spec : UInt64) :
    (m.alloc t blob spec).1 = ⟨a.next, LATEST⟩ ∧ Mirrors (m.alloc t blob spec).2 (a.alloc t blob spec).2 := by
  have hnil := h.next_vers hi
  obtain ⟨v, hv⟩ : ∃ v : NodeVer, v = ⟨m.cur,
      { type := t, mode := defaultMode t, spec, atime := m.clock, mtime := m.clock, ctime := m.clock }, blob⟩ := ⟨_, rfl⟩
  have hvers : ∀ i, (m.alloc t blob spec).2.vers i = if i = m.next then [v] else m.vers i := by
    intro i
    show ((m.nodes.put m.next (m.vers m.next ++ _)).get i).getD [] = _
    rw [OrdMap.get_put, hnil, hv]
    split_ifs <;> rfl
  have hsnap : v.snap = m.cur := by rw [hv]
  have hrec : v.toRec = a.newRec t blob spec := by rw [hv, ← h.clock.symm]; rfl
  have hok : (m.alloc t blob spec).2.Ok := by
    refine ⟨h.ok.cur_pos, fun i => ?_, h.ok.ivs, h.ok.named, fun i w hw => ?_⟩
    · rw [hvers]
      split_ifs
      · exact ⟨List.pairwise_singleton .., fun w hw => le_of_eq (by rw [List.mem_singleton.mp hw, hsnap]; rfl)⟩
      · exact h.ok.vers i
    · rw [hvers] at hw
      refine MemStore.touched_touch.mpr ?_
      split_ifs at hw with hi
      · rw [List.mem_singleton.mp hw, hsnap]
        exact Or.inl ⟨rfl, hi⟩
      · exact Or.inr (h.ok.touched i w hw)
  have hone : ∀ g, effAt NodeVer.snap g [v] = if g < m.cur then none else some v := by
    intro g
    simp only [effAt, effScan, hsnap, ← not_lt, ite_not]
  have hlive : Mirrors { (m.alloc t blob spec).2 with next := m.next }
      { a with live := a.live.alloc a.next (a.newRec t blob spec) } := by
    refine h.change ⟨hok.cur_pos, hok.vers, hok.ivs, hok.named, hok.touched⟩ ⟨rfl, rfl, rfl, rfl, rfl, rfl⟩
      (fun g i => ?_) (fun g d nm => ?_)
    · show (effAt NodeVer.snap g ((m.alloc t blob spec).2.vers i)).map NodeVer.toRec = _
      rw [hvers]
      by_cases hin : i = m.next
      · subst hin
        rw [if_pos rfl, hone, MemStore.recAt, MemStore.effR, hnil]
        split_ifs
        · rfl
        · rw [View.alloc, Option.map_some, hrec, h.next]
          exact (if_pos rfl).symm
      · have hin' : i ≠ a.next := h.next ▸ hin
        simp only [hin, if_false, View.alloc, hin']
        split_ifs with hg
        · rfl
        · exact h.recAt_live hg i
    · split_ifs with hg
      · rfl
      · exact h.entry_live hg d nm
  exact ⟨by rw [← h.next]; rfl, hok, hlive.root, congrArg (· + 1) h.next, hlive.cur, hlive.clock, hlive.config,
    hlive.snaps, hlive.node, hlive.entry⟩

theorem snapshot (h : Mirrors m a) (hf : a.cur < LATEST - 1) (label : Bytes) :
    (m.snapshot label).1 = a.cur ∧ Mirrors (m.snapshot label).2 (a.exec (.snapshot label)).2 := by
  have hlt : m.cur ≤ m.cur + 1 := by
    rw [h.cur]
    simp only [LATEST] at hf
    grind
  refine ⟨h.cur, ⟨le_trans h.ok.cur_pos hlt, fun i => ⟨(h.ok.vers i).sorted, fun v hv => le_trans ((h.ok.vers i).le v hv) hlt⟩,
    fun d n => (h.ok.ivs d n).mono hlt, h.ok.named, h.ok.touched⟩, h.root, h.next, congrArg (· + 1) h.cur, h.clock,
    h.config, fun g => ?_, fun g i => ?_, fun g d n => ?_⟩
  · simp only [MemStore.snapshot, OrdMap.get_put, FileSys.exec, ← h.cur]
    split_ifs with hg
    · simp [hg, h.clock]
    · exact h.snaps g
  · rw [FileSys.Inv.viewOf_snapshot hf]
    exact h.node g i
  · rw [FileSys.Inv.viewOf_snapshot hf]
    exact h.entry g d n

theorem exec (h : Mirrors m a) (hi : a.Inv) {op : Op} (hf : op.Fits a.next a.cur) (hh : op.Handles a.next)
    (hw : a.live.Unwrapped op) : (m.exec op).1 = (a.exec op).1 ∧ Mirrors (m.exec op).2 (a.exec op).2 := by
  have hnew : ∀ t blob spec, (Res.ofNode (m.alloc t blob spec)).1 = (a.alloc t blob spec).1 ∧
      Mirrors (Res.ofNode (m.alloc t blob spec)).2 (a.alloc t blob spec).2 :=
    fun t blob spec => (h.alloc hi t blob spec).imp_left (congrArg Res.node)
  cases op with
  | mkdir => exact hnew _ _ _
  | mkfile c => exact hnew _ _ _
  | symlink t => exact hnew _ _ _
  | mkfifo => exact hnew _ _ _
  | mksock => exact hnew _ _ _
  | mknod t maj min => exact hnew _ _ _
  | link dir name child => exact (h.link hi hh.1 hh.2 name).imp_left (congrArg Res.err)
  | unlink dir name => exact (h.unlink hi hw).imp_left (congrArg Res.err)
  | move sdir sn ddir dn => exact (h.move hi hh.2 hw).imp_left (congrArg Res.err)
  | setContent reg c =>
    exact (h.guardedSet hi hh (fun t => t == .REG) (fun t => t == FType.REG.code)
      (fun t => by cases t <;> rfl) (f := fun v => { v with blob := c }) (fun _ => rfl)
      (F := fun r => { r with blob := c }) (fun _ => rfl)).imp_left (congrArg Res.err)
  | setTarget lnk t =>
    exact (h.guardedSet hi hh (fun t => t == .LNK) (fun t => t == FType.LNK.code)
      (fun t => by cases t <;> rfl) (f := fun v => { v with blob := t }) (fun _ => rfl)
      (F := fun r => { r with blob := t }) (fun _ => rfl)).imp_left (congrArg Res.err)
  | setRdev dev maj min =>
    exact (h.guardedSet hi hh (fun t => t == .BLK || t == .CHR)
      (fun t => t == FType.BLK.code || t == FType.CHR.code) (fun t => by cases t <;> rfl)
      (f := fun v => { v with a := { v.a with spec := devSpec maj min } }) (fun _ => rfl)
      (F := fun r => { r with spec := devSpec maj min }) (fun _ => rfl)).imp_left (congrArg Res.err)
  | setContentSeed reg seed =>
    exact (h.guardedSet hi hh (fun t => t == .REG) (fun t => t == FType.REG.code)
      (fun t => by cases t <;> rfl) (f := fun v => { v with a := { v.a with spec := seed } }) (fun _ => rfl)
      (F := fun r => { r with spec := seed }) (fun _ => rfl)).imp_left (congrArg Res.err)
  | setAttr n x =>
    obtain ⟨r, hr, -⟩ := h.live_type hi hh
    exact ⟨rfl, h.setLive (f := fun v => { v with a := x.applyAttr v.a }) (fun _ => rfl)
      (F := fun r => x.apply r) (fun _ => by cases x <;> rfl) hr⟩
  | setTime t =>
    exact ⟨rfl, ⟨h.ok.cur_pos, h.ok.vers, h.ok.ivs, h.ok.named, h.ok.touched⟩, h.root, h.next, h.cur, rfl, h.config,
      h.snaps, h.node, h.entry⟩
  | setContentConfig blob =>
    exact ⟨rfl, ⟨h.ok.cur_pos, h.ok.vers, h.ok.ivs, h.ok.named, h.ok.touched⟩, h.root, h.next, h.cur, h.clock, rfl,
      h.snaps, h.node, h.entry⟩
  | snapshot label => exact (h.snapshot hf label).imp_left (congrArg Res.snap)

theorem empty : Mirrors MemStore.empty FileSys.init := by
  have hvers : ∀ i, MemStore.empty.vers i =
      if i = 1 then [{ snap := 1, a := { type := .DIR, mode := 0o755, nlink := 1 } }] else [] := by
    intro i
    show ((OrdMap.empty.put 1 _).get i).getD [] = _
    rw [OrdMap.get_put]
    split_ifs <;> rfl
  have hivs : ∀ d n, MemStore.empty.ivs d n = [] := fun _ _ => rfl
  refine ⟨⟨by decide, fun i => ?_, fun d n => hivs d n ▸ .nil, fun d n hne => absurd (hivs d n) hne,
    fun i v hv => ?_⟩, rfl, rfl, rfl, rfl, rfl, fun _ => rfl, fun g i => ?_, fun g d n => ?_⟩
  · rw [hvers]
    split_ifs
    · exact ⟨List.pairwise_singleton .., fun v hv => by rw [List.mem_singleton.mp hv]; decide⟩
    · exact ⟨.nil, by simp⟩
  · rw [hvers] at hv
    split_ifs at hv with hi
    · subst hi
      rw [List.mem_singleton.mp hv, MemStore.Touched]
      decide
    · simp at hv
  · rw [MemStore.recAt, MemStore.effR, hvers]
    simp only [FileSys.viewOf, FileSys.init]
    by_cases hg : g < 1
    · by_cases hi : i = 1 <;> simp [hg, hi, effAt, effScan, not_le.mpr hg]
    · by_cases hi : i = 1
      · simp only [hi, if_true, effAt, effScan, not_lt.mp hg, hg, if_false]
        rfl
      · simp [hi, hg, effAt, effScan]
  · rw [hivs]
    by_cases hg : g < 1 <;> simp [FileSys.viewOf, FileSys.init, hg, liveAtR, liveIv]

end Mirrors

end Prfs
