import Prfs.MemReach

namespace Prfs

/-- A handle of the live view to an allocated node. -/
def Node.Live (next : UInt64) (n : Node) : Prop := n.snap = LATEST ∧ 1 ≤ n.id ∧ n.id < next

instance Node.Live.decidable (next : UInt64) (n : Node) : Decidable (n.Live next) :=
  inferInstanceAs (Decidable (n.snap = LATEST ∧ 1 ≤ n.id ∧ n.id < next))

/-- The node arguments are live handles that the store has handed out. -/
def Op.Handles (next : UInt64) : Op → Prop
  | .link dir _ child => dir.Live next ∧ child.Live next
  | .unlink dir _ => dir.Live next
  | .move sdir _ ddir _ => sdir.Live next ∧ ddir.Live next
  | .setContent n _ | .setTarget n _ | .setRdev n .. | .setContentSeed n _ | .setAttr n _ => n.Live next
  | _ => True

instance Op.Handles.decidable (next : UInt64) (op : Op) : Decidable (op.Handles next) := by
  unfold Op.Handles
  split <;> infer_instance

namespace View

def subLink (r : NodeRec) : NodeRec := { r with nlink := r.nlink - 1 }

/-- Unlinking with a link count that wraps below zero. -/
def cutLink (v : View) (dir : UInt64) (name : Bytes) (child : UInt64) : View :=
  { v.unlink dir name child with node := (v.modify child subLink).node }

/-- The link count behind a name is not zero. -/
def Held (v : View) (dir : UInt64) (name : Bytes) : Prop :=
  ∀ c r, v.entry dir name = some c → v.node c = some r → r.nlink ≠ 0

theorem cutLink_eq {v : View} {dir child : UInt64} {name : Bytes} (h : v.Held dir name)
    (he : v.entry dir name = some child) : v.cutLink dir name child = v.unlink dir name child := by
  have hnode : (v.modify child subLink).node = (v.modify child decLink).node := by
    funext i
    unfold modify
    dsimp only
    split_ifs with hi
    · subst hi
      cases hr : v.node i with
      | none => rfl
      | some r => simp [subLink, decLink, h i r he hr]
    · rfl
  unfold cutLink
  rw [hnode]
  rfl

/-- No unlink, the one in a move included, takes a link off a count of zero. -/
def Unwrapped (v : View) : Op → Prop
  | .unlink dir name => v.Held dir.id name
  | .move sdir sn ddir dn => ∀ c, v.entry sdir.id sn = some c → v.linkError ddir.id dn c = .OK →
    (v.link ddir.id dn c).Held sdir.id sn
  | _ => True

end View

/-- The counters, the clock, the policy and the snapshot records are the same. -/
structure MemStore.SameMeta (m m' : MemStore) : Prop where
  root : m'.root = m.root
  next : m'.next = m.next
  cur : m'.cur = m.cur
  clock : m'.clock = m.clock
  config : m'.contentConfig = m.contentConfig
  snaps : m'.snaps = m.snaps

namespace Mirrors

variable {m : MemStore} {a : FileSys}

theorem touch (h : Mirrors m a) {id : UInt64} : Mirrors (m.touch id) a :=
  ⟨h.ok.touch, h.root, h.next, h.cur, h.clock, h.config, h.snaps, h.node, h.entry⟩

/-- Tables that differ in the views from the current one on stand for a new live view. -/
theorem change (h : Mirrors m a) {m' : MemStore} {w : View} (hok : m'.Ok)
    (hm : m.SameMeta m')
    (hnode : ∀ g id, m'.recAt g id = if g < m.cur then m.recAt g id else w.node id)
    (hentry : ∀ g d n, liveAtR (m'.ivs d n) g = if g < m.cur then liveAtR (m.ivs d n) g else w.entry d n) :
    Mirrors m' { a with live := w } := by
  have hview : ∀ g, FileSys.viewOf { a with live := w } g = if g < m.cur then a.viewOf g else w := by
    intro g
    unfold FileSys.viewOf
    rw [← h.cur]
    split_ifs <;> rfl
  refine ⟨hok, hm.root.trans h.root, hm.next.trans h.next, hm.cur.trans h.cur, hm.clock.trans h.clock,
    hm.config.trans h.config, hm.snaps ▸ h.snaps, fun g id => ?_, fun g d n => ?_⟩
  · rw [hnode, hview, h.node]
    split_ifs <;> rfl
  · rw [hentry, hview, h.entry]
    split_ifs <;> rfl

theorem recAt_live (h : Mirrors m a) {g : SnapId} (hg : ¬ g < m.cur) (id : UInt64) : m.recAt g id = a.live.node id := by
  rw [h.ok.recAt_live (not_lt.mp hg), h.live_node]

theorem entry_live (h : Mirrors m a) {g : SnapId} (hg : ¬ g < m.cur) (d : UInt64) (n : Bytes) :
    liveAtR (m.ivs d n) g = a.live.entry d n := by
  rw [(h.ok.ivs d n).liveAtR_live (not_lt.mp hg), h.live_entry]

/-- A write to a node's live version, beside a change of the links. -/
theorem rewrite (h : Mirrors m a) (m' : MemStore) {w : View} (hok : m'.Ok)
    (hm : m.SameMeta m') (hnodes : m'.nodes = m.nodes) {id : UInt64}
    {f : NodeVer → NodeVer} (hf : ∀ v, (f v).snap = v.snap) {F : NodeRec → NodeRec}
    (hF : ∀ v, (f v).toRec = F v.toRec) {r : NodeRec} (hr : a.live.node id = some r)
    (hw : w.node = (a.live.modify id F).node)
    (hentry : ∀ g d n, liveAtR (m'.ivs d n) g = if g < m.cur then liveAtR (m.ivs d n) g else w.entry d n) :
    Mirrors ((m'.setLive id f).touch id) { a with live := w } := by
  have hrec : ∀ g i, m'.recAt g i = m.recAt g i := by
    intro g i
    simp only [MemStore.recAt, MemStore.effR, MemStore.vers, hnodes]
  have hr' : m'.recAt m'.cur id = some r := by rw [hrec, hm.cur, h.live_node, hr]
  refine h.change (hok.setLive hf) ⟨hm.root, hm.next, hm.cur, hm.clock, hm.config, hm.snaps⟩ (fun g i => ?_) hentry
  rw [hok.recAt_setLive hf hF hr', hm.cur, hrec]
  by_cases hg : g < m.cur
  · simp only [hg, if_true]
  · simp only [hg, if_false, hw, View.modify, h.recAt_live hg]
    split_ifs with hi
    · rw [hi, hr, Option.map_some]
    · rfl

theorem setLive (h : Mirrors m a) {id : UInt64} {f : NodeVer → NodeVer} (hf : ∀ v, (f v).snap = v.snap)
    {F : NodeRec → NodeRec} (hF : ∀ v, (f v).toRec = F v.toRec) {r : NodeRec} (hr : a.live.node id = some r) :
    Mirrors ((m.setLive id f).touch id) { a with live := a.live.modify id F } := by
  refine h.rewrite m h.ok ⟨rfl, rfl, rfl, rfl, rfl, rfl⟩ rfl hf hF hr rfl fun g d n => ?_
  split_ifs with hg
  · rfl
  · exact h.entry_live hg d n

theorem addLink (h : Mirrors m a) {dir child : UInt64} {name : Bytes} {r : NodeRec}
    (hfree : a.live.entry dir name = none) (hr : a.live.node child = some r) :
    Mirrors (((((m.addLink dir name child).setLive child
      (fun v => { v with a := { v.a with nlink := v.a.nlink + 1 } })).touch dir).touch child))
      { a with live := a.live.link dir name child } := by
  rw [← h.live_entry] at hfree
  refine h.rewrite ((m.addLink dir name child).touch dir) (h.ok.addLink hfree).touch
    ⟨rfl, rfl, rfl, rfl, rfl, rfl⟩ rfl (fun _ => rfl) (F := View.incLink) (fun _ => rfl) hr rfl fun g d n => ?_
  refine (h.ok.entry_addLink hfree g d n).trans ?_
  split_ifs with hg hdn
  · rfl
  · simp [View.link, hdn]
  · simp only [View.link, hdn, if_false]
    exact h.entry_live hg d n

theorem endLink (h : Mirrors m a) (dir : UInt64) (name : Bytes) {child : UInt64} {r : NodeRec}
    (hr : a.live.node child = some r) :
    Mirrors (((((m.endLink dir name).setLive child
      (fun v => { v with a := { v.a with nlink := v.a.nlink - 1 } })).touch dir).touch child))
      { a with live := a.live.cutLink dir name child } := by
  refine h.rewrite ((m.endLink dir name).touch dir) h.ok.endLink.touch
    ⟨rfl, rfl, rfl, rfl, rfl, rfl⟩ rfl (fun _ => rfl) (F := View.subLink) (fun _ => rfl) hr rfl fun g d n => ?_
  refine (h.ok.entry_endLink g d n).trans ?_
  split_ifs with hg hdn
  · rfl
  · simp [View.cutLink, View.unlink, hdn]
  · simp only [View.cutLink, View.unlink, hdn, if_false]
    exact h.entry_live hg d n

end Mirrors

end Prfs
