import Prfs.StoreRuns

namespace Prfs

theorem View.linkError_inval {v : View} {dir child : UInt64} {name : Bytes} (hd : v.IsDir dir)
    (hc : ∃ r, v.node child = some r) (hfree : v.entry dir name = none) :
    v.linkError dir name child = .INVAL ↔
      name = SNAPSHOT_NAME ∨ (v.IsDir child ∧ Relation.ReflTransGen v.Edge child dir) := by
  obtain ⟨r, hr, ht⟩ := hd
  obtain ⟨q, hq⟩ := hc
  have hd : v.IsDir dir := ⟨r, hr, ht⟩
  unfold View.linkError
  by_cases hn : name = SNAPSHOT_NAME
  · simp [hn]
  · by_cases hp : v.IsDir child ∧ Relation.ReflTransGen v.Edge child dir
    · simp [hn, hr, hd, hq, hp]
    · simp [hn, hr, hd, hq, hp, hfree]

namespace PrfsStore

variable {s : PrfsStore}

theorem move_inval_iff (hs : s.Sound) {sdir ddir : Node} {sn dn : Bytes} {c : UInt64}
    (he : (viewAt s.kv s.cur).entry sdir.id sn = some c) :
    (s.move sdir sn ddir dn).1 = .INVAL ↔ (viewAt s.kv s.cur).linkError ddir.id dn c = .INVAL := by
  obtain ⟨a, hr, hi⟩ := hs
  rw [(hr.move hi sdir ddir sn dn).1, ← hr.live]
  simp only [View.moveOp, he]
  split_ifs with hok
  · rw [hok]
    unfold View.unlinkOp
    split <;> simp
  · rfl

/-- Directories form no cycle in any view, and the cycle check refuses exactly the
links that would close one. -/
theorem dirs_acyclic (hs : Run empty s) :
    (∀ g, 1 ≤ g → g ≤ s.cur → ∀ d, ¬ Relation.TransGen (viewAt s.kv g).Edge d d) ∧
    (∀ dir name child, (viewAt s.kv s.cur).IsDir dir.id →
      (∃ r, loadNode s.kv child.id s.cur = some r) → (viewAt s.kv s.cur).entry dir.id name = none →
      ((s.link dir name child).1 = .INVAL ↔ name = SNAPSHOT_NAME ∨
        ((viewAt s.kv s.cur).IsDir child.id ∧
          Relation.ReflTransGen (viewAt s.kv s.cur).Edge child.id dir.id))) ∧
    (∀ sdir sn ddir dn c, (viewAt s.kv s.cur).entry sdir.id sn = some c →
      (viewAt s.kv s.cur).IsDir ddir.id → (viewAt s.kv s.cur).entry ddir.id dn = none →
      ((s.move sdir sn ddir dn).1 = .INVAL ↔ dn = SNAPSHOT_NAME ∨
        ((viewAt s.kv s.cur).IsDir c ∧ Relation.ReflTransGen (viewAt s.kv s.cur).Edge c ddir.id))) ∧
    (∀ src dst, ∃ b, reachLoop s.kv s.cur dst (s.kv.downLinks.entries.length + 2) [src] [] = some b) := by
  have hss := hs.sound
  have hc := hss.consistent s.cur
  refine ⟨fun g _ _ => hss.acyclic g, fun dir name child hd hch hfree => ?_,
    fun sdir sn ddir dn c he hd hfree => ?_, fun src dst => reachLoop_terminates ..⟩
  · have hch' : ∃ r, (viewAt s.kv s.cur).node child.id = some r := by
      obtain ⟨r, hr⟩ := hch
      exact ⟨r.bare, by simp [viewAt, hr]⟩
    rw [← View.linkError_inval hd hch' hfree, ← (linkT_spec hss.base hc dir.id name child.id).1]
    rfl
  · rw [move_inval_iff hss he, View.linkError_inval hd (hc.child he) hfree]

theorem dirs_acyclic_two_levels :
    let s := empty.after [.mkdir, .mkdir, .link ⟨1, LATEST⟩ [97] ⟨2, LATEST⟩, .snapshot [],
      .link ⟨2, LATEST⟩ [98] ⟨3, LATEST⟩]
    (∀ d, ¬ Relation.TransGen (viewAt s.kv 2).Edge d d) ∧ (s.link ⟨3, LATEST⟩ [99] ⟨2, LATEST⟩).1 = .INVAL :=
  ⟨(dirs_acyclic (run_after (by decide))).1 2 (by decide) (by decide), by decide⟩

end PrfsStore

end Prfs
