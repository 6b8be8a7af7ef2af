import Prfs.LinkFrames
import Prfs.Nfs3Ops
import Prfs.SealedReads
import Prfs.SnapshotNames

namespace Prfs

namespace View

variable {v : View} {dir child d c : UInt64} {name n : Bytes}

theorem link_entry_or (h : (v.link dir name child).entry d n = some c) : v.entry d n = some c ∨ name = n := by
  simp only [link] at h
  split_ifs at h with hhit
  · exact .inr hhit.2.symm
  · exact .inl h

theorem unlink_entry_old (h : (v.unlink dir name child).entry d n = some c) : v.entry d n = some c :=
  (unlink_entry.mp h).2

theorem unlinkOp_entry_old (h : (v.unlinkOp dir name).2.entry d n = some c) : v.entry d n = some c := by
  rcases @unlinkOp_cases v dir name with ⟨x, -, hop⟩ | ⟨-, hop⟩
  · rw [hop] at h
    exact unlink_entry_old h
  · rwa [hop] at h

theorem moveOp_entry_or {sdir : UInt64} {sn : Bytes} (h : (v.moveOp sdir sn dir name).2.entry d n = some c) :
    v.entry d n = some c ∨ name = n := by
  rcases @moveOp_cases v dir name sdir sn with ⟨x, -, -, hop⟩ | ⟨-, hop⟩
  · rw [hop] at h
    exact link_entry_or (unlink_entry_old h)
  · rw [hop] at h
    exact .inl h

theorem linkOp_entry_or (h : (v.linkOp dir name child).2.entry d n = some c) : v.entry d n = some c ∨ name = n := by
  unfold linkOp at h
  dsimp only at h
  split_ifs at h
  · exact link_entry_or h
  · exact .inl h

theorem setOp_entry {id : UInt64} {want : UInt32 → Bool} {f : NodeRec → NodeRec} :
    (v.setOp id want f).2.entry d n = v.entry d n := by
  unfold setOp
  split
  · rfl
  · split_ifs
    · rfl
    · rfl

end View

namespace FileSys

variable {a b : FileSys}

/-- `b` has the nodes of `a` in each view, with their types, and other nodes under ids that `a` has not given out. -/
structure SameNodes (a b : FileSys) : Prop where
  next : a.next ≤ b.next
  type : ∀ g {id}, id < a.next → ((b.viewOf g).node id).map NodeRec.type = ((a.viewOf g).node id).map NodeRec.type

/-- A change of the live view that keeps types is all that the other views could see. -/
theorem SameNodes.of_live (hnext : a.next ≤ b.next) (hcur : b.cur = a.cur) (hpast : b.past = a.past)
    (h : ∀ {id}, id < a.next → (b.live.node id).map NodeRec.type = (a.live.node id).map NodeRec.type) :
    SameNodes a b := by
  refine ⟨hnext, fun g {id} hid => ?_⟩
  unfold viewOf
  rw [hcur, hpast]
  split_ifs
  · rfl
  · exact h hid

theorem SameNodes.of_change {w : View} (hc : View.Change a.live w) : SameNodes a { a with live := w } :=
  .of_live le_rfl rfl rfl fun {id} _ => hc.types id

/-- An operation makes entries of its own name only. -/
theorem exec_entry_or {op : Op} {d c : UInt64} {n : Bytes} (h : (a.exec op).2.live.entry d n = some c) :
    a.live.entry d n = some c ∨ op.binds = some n := by
  cases op with
  | link dir name child => exact (View.linkOp_entry_or h).imp_right (congrArg some)
  | unlink dir name => exact .inl (View.unlinkOp_entry_old h)
  | move sdir sn ddir dn => exact (View.moveOp_entry_or h).imp_right (congrArg some)
  | setContent reg x => exact .inl (View.setOp_entry.symm.trans h)
  | setTarget lnk x => exact .inl (View.setOp_entry.symm.trans h)
  | setRdev dev maj min => exact .inl (View.setOp_entry.symm.trans h)
  | setContentSeed reg seed => exact .inl (View.setOp_entry.symm.trans h)
  | _ => exact .inl h

namespace Inv

theorem next_lt (h : a.Inv) (hf : a.next < SNAP_BIT) : a.next < a.next + 1 := by
  have hhi := h.next_hi
  simp only [SNAP_BIT] at hhi hf
  grind

theorem alloc_sameNodes (h : a.Inv) (hf : a.next < SNAP_BIT) (t : FType) (blob : Bytes) (spec : UInt64) :
    SameNodes a (a.alloc t blob spec).2 := by
  refine .of_live (le_of_lt (h.next_lt hf)) rfl rfl fun {id} hid => ?_
  have hne : id ≠ a.next := ne_of_lt hid
  simp only [FileSys.alloc, View.alloc, if_neg hne]

theorem exec_sameNodes (h : a.Inv) {op : Op} (hf : op.Fits a.next a.cur) : SameNodes a (a.exec op).2 := by
  cases op with
  | mkdir => exact h.alloc_sameNodes hf ..
  | mkfile c => exact h.alloc_sameNodes hf ..
  | symlink t => exact h.alloc_sameNodes hf ..
  | mkfifo => exact h.alloc_sameNodes hf ..
  | mksock => exact h.alloc_sameNodes hf ..
  | mknod t maj min => exact h.alloc_sameNodes hf ..
  | snapshot label => exact ⟨le_rfl, fun g {id} _ => by rw [viewOf_snapshot hf]⟩
  | setTime t => exact ⟨le_rfl, fun g {id} _ => rfl⟩
  | setContentConfig c => exact ⟨le_rfl, fun g {id} _ => rfl⟩
  | link dir name child => exact .of_change (View.linkOp_change ..)
  | unlink dir name => exact .of_change (View.unlinkOp_change ..)
  | move sdir sn ddir dn => exact .of_change (View.moveOp_change ..)
  | setContent reg c => exact .of_change (View.setOp_change _ _ _ ⟨fun _ => rfl, fun _ => rfl⟩)
  | setTarget lnk t => exact .of_change (View.setOp_change _ _ _ ⟨fun _ => rfl, fun _ => rfl⟩)
  | setRdev dev maj min => exact .of_change (View.setOp_change _ _ _ ⟨fun _ => rfl, fun _ => rfl⟩)
  | setContentSeed reg seed => exact .of_change (View.setOp_change _ _ _ ⟨fun _ => rfl, fun _ => rfl⟩)
  | setAttr n s => exact .of_change (.modify s.keeps)

end Inv

end FileSys

namespace PrfsStore

variable {s t u : PrfsStore}

/-- `t` has the nodes of `s` in each view, with their types, and other nodes under ids that `s` has not given out. -/
structure SameNodes (s t : PrfsStore) : Prop where
  next : s.next ≤ t.next
  cur : s.cur ≤ t.cur
  type : ∀ g {id}, id < s.next →
    ((viewAt t.kv g).node id).map NodeRec.type = ((viewAt s.kv g).node id).map NodeRec.type

theorem SameNodes.trans (h : SameNodes s t) (h' : SameNodes t u) : SameNodes s u :=
  ⟨le_trans h.next h'.next, le_trans h.cur h'.cur,
    fun g {_} hid => (h'.type g (lt_of_lt_of_le hid h.next)).trans (h.type g hid)⟩

theorem Sound.exec_sameNodes (h : s.Sound) {op : Op} (hf : s.Fits op) : SameNodes s (s.exec op).2 := by
  have hcur := (exec_keeps h hf).cur
  obtain ⟨a, hr, hi⟩ := h
  have hfa : op.Fits a.next a.cur := by
    rw [← hr.next, ← hr.cur]
    exact hf
  have hsame := hi.exec_sameNodes hfa
  have hr' := (hr.exec hi op hf).2
  refine ⟨?_, hcur, fun g {id} hid => ?_⟩
  · rw [hr.next, hr'.next]
    exact hsame.next
  · rw [hr'.viewAt_eq, hr.viewAt_eq]
    rw [hr.next] at hid
    exact hsame.type g hid

theorem Sound.run_sameNodes (h : s.Sound) (hr : Run s t) : SameNodes s t := by
  have hinv : t.Sound ∧ SameNodes s t := by
    refine Reaches.invariant (P := fun t => t.Sound ∧ SameNodes s t) ?_ ⟨h, le_rfl, le_rfl, fun g {_} _ => rfl⟩ hr
    rintro u op ⟨hu, hsame⟩ hf
    exact ⟨hu.exec hf, hsame.trans (hu.exec_sameNodes hf)⟩
  exact hinv.2

theorem nodeById_eq_map {id : UInt64} {snap : SnapId} :
    s.nodeById id snap = (((viewAt s.kv (s.rr snap)).node (snapBase id)).map fun _ => (⟨id, snap⟩ : Node)) := by
  have hbase : (if isSnapDir id then snapBase id else id) = snapBase id := by
    split_ifs with hd
    · rfl
    · rw [snapBase_of_real (by simpa using hd)]
  unfold nodeById existedAt viewAt
  dsimp only
  rw [hbase]
  cases loadNode s.kv (snapBase id) (s.rr snap) with
  | none => rfl
  | some r => rfl

/-- The view that a handle is read in has kept its nodes, also where it is the live one. -/
theorem Sound.type_rr (h : s.Sound) (hr : Run s t) (snap : SnapId) {id : UInt64} (hid : id < s.next) :
    ((viewAt t.kv (t.rr snap)).node id).map NodeRec.type = ((viewAt s.kv (s.rr snap)).node id).map NodeRec.type := by
  have hsame := h.run_sameNodes hr
  unfold rr
  split_ifs
  · rw [hsame.type t.cur hid, h.base.viewAt_live hsame.cur]
  · exact hsame.type snap hid

theorem Sound.ids_lt (h : s.Sound) {g : SnapId} {id : UInt64} {r : NodeRec} (hr : (viewAt s.kv g).node id = some r) :
    1 ≤ id ∧ id < s.next := by
  obtain ⟨a, ha, hi⟩ := h
  rw [ha.viewAt_eq] at hr
  rw [ha.next]
  exact (hi.ids g id r hr).1

/-- A handle whose id has been given out is valid for good or never. -/
theorem Sound.nodeById_run (h : s.Sound) (hr : Run s t) {n : Node} (hid : snapBase n.id < s.next) :
    t.nodeById n.id n.snap = s.nodeById n.id n.snap := by
  have ht := h.type_rr hr n.snap hid
  rw [nodeById_eq_map, nodeById_eq_map]
  have hpair := congrArg (Option.map fun _ => n) ht
  rwa [Option.map_map, Option.map_map] at hpair

/-- The id has been given out, or that of the directory whose snapshot directory it is. -/
def Given (s : PrfsStore) (id : UInt64) : Prop := 1 ≤ snapBase id ∧ snapBase id < s.next

theorem SameNodes.given (h : SameNodes s t) {id : UInt64} (hid : s.Given id) : t.Given id :=
  ⟨hid.1, lt_of_lt_of_le hid.2 h.next⟩

/-- A valid handle has an id that has been given out. -/
theorem Sound.given_of_nodeById (h : s.Sound) {n x : Node} (hn : s.nodeById n.id n.snap = some x) : s.Given n.id := by
  rw [nodeById_eq_map] at hn
  obtain ⟨r, hr, -⟩ := Option.map_eq_some_iff.mp hn
  exact h.ids_lt hr

theorem Sound.given_alloc (h : s.Sound) (hn : s.next < SNAP_BIT) (t : FType) (blob : Bytes) (spec : UInt64) :
    (s.alloc t blob spec).2.Given s.next := by
  rw [Given, snapBase_of_real (isSnapDir_of_lt hn)]
  obtain ⟨a, hr, hi⟩ := h
  have hlo := hi.next_lo
  have hlt := hi.next_lt (hr.next ▸ hn)
  rw [← hr.next] at hlo hlt
  exact ⟨le_trans (by decide) hlo, hlt⟩

/-- The live handles that are valid are those whose ids have been given out. -/
theorem Sound.nodeById_live (h : s.Sound) {id : UInt64} :
    s.nodeById id LATEST = some ⟨id, LATEST⟩ ↔ s.Given id := by
  refine ⟨fun hn => h.given_of_nodeById (n := ⟨id, LATEST⟩) hn, fun ⟨h1, h2⟩ => ?_⟩
  obtain ⟨a, hr, hi⟩ := h
  rw [hr.next] at h2
  obtain ⟨r, hnode⟩ := hi.exist h1 h2
  rw [nodeById_eq_map, rr_latest, hr.live, hnode, Option.map_some]

theorem Sound.nodeById_root (h : s.Sound) : s.nodeById s.rwRoot.id LATEST = some s.rwRoot := by
  refine h.nodeById_live.mpr ?_
  rw [Given, rwRoot, h.root]
  obtain ⟨a, hr, hi⟩ := h
  have hlo := hi.next_lo
  rw [← hr.next] at hlo
  exact ⟨by decide, lt_of_lt_of_le (by decide) hlo⟩

/-- The object of a valid handle keeps its type. -/
theorem Sound.type_run (h : s.Sound) (hr : Run s t) {n x : Node} (hn : s.nodeById n.id n.snap = some x) :
    (t.attrs n).type = (s.attrs n).type := by
  cases hd : isSnapDir n.id with
  | true => simp only [attrs, readNode, hd, if_true]
  | false =>
    have ht := h.type_rr hr n.snap (snapBase_of_real hd ▸ (h.given_of_nodeById hn).2)
    rw [nodeById_eq_map, snapBase_of_real hd] at hn
    obtain ⟨r, hrec, -⟩ := Option.map_eq_some_iff.mp hn
    rw [hrec, Option.map_some, Option.map_eq_some_iff] at ht
    obtain ⟨r', hrec', htype⟩ := ht
    rw [attrs_eq hd, attrs_eq hd, hrec, hrec', Option.getD_some, Option.getD_some]
    exact congrArg FType.ofCode htype

/-- What is found under a name has an id that has been given out. -/
theorem Sound.given_of_lookup (h : s.Sound) {dir x : Node} {name : Bytes} (hd : s.Given dir.id)
    (hx : s.lookup dir name = some x) : s.Given x.id := by
  cases hsd : isSnapDir dir.id with
  | true =>
    unfold lookup at hx
    rw [if_pos hsd] at hx
    dsimp only at hx
    split at hx
    · cases hx
    · split_ifs at hx
      obtain rfl := Option.some.inj hx
      show s.Given (snapBase dir.id)
      rwa [Given, snapBase_of_real (isSnapDir_snapBase dir.id)]
  | false =>
    rw [lookup_view hsd] at hx
    split_ifs at hx
    · obtain rfl := Option.some.inj hx
      show s.Given (dir.id ||| SNAP_BIT)
      rw [Given, snapBase_or hsd]
      rwa [Given, snapBase_of_real hsd] at hd
    · obtain ⟨c, he, rfl⟩ := Option.map_eq_some_iff.mp hx
      obtain ⟨r, hr⟩ := (h.consistent _).child he
      have hid := h.ids_lt hr
      show s.Given c
      rwa [Given, snapBase_of_real (h.not_isSnapDir hr)]

/-- Operations that make entries of one name leave every other name where it is, or remove it. -/
theorem Does.entry_or {N : Option Bytes} (h : Does N s t) (hs : s.Sound) {d c : UInt64} {n : Bytes}
    (he : t.liveView.entry d n = some c) : s.liveView.entry d n = some c ∨ N = some n := by
  have hinv : t.Sound ∧ ∀ d n c, t.liveView.entry d n = some c → s.liveView.entry d n = some c ∨ N = some n := by
    refine Reaches.invariant (P := fun t => t.Sound ∧ ∀ d n c, t.liveView.entry d n = some c →
      s.liveView.entry d n = some c ∨ N = some n) ?_ ⟨hs, fun d n c he => .inl he⟩ h
    rintro u op ⟨hu, hold⟩ ⟨hf, hop⟩
    refine ⟨hu.exec hf, fun d n c he => ?_⟩
    obtain ⟨a, -, -, hlive, hlive'⟩ := hu.exec_live hf
    rw [hlive'] at he
    rcases FileSys.exec_entry_or he with he | hn
    · rw [← hlive] at he
      exact hold d n c he
    · rcases hop with hop | hop
      · rw [hop] at hn
        cases hn
      · exact .inr (hop.symm.trans hn)
  exact hinv.2 d n c he

end PrfsStore

end Prfs
