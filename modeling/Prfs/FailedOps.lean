import Prfs.StoreRuns

namespace Prfs

namespace PrfsStore

variable {s : PrfsStore}

theorem guardedSet_failed {id : UInt64} {want : UInt32 → Bool} {f : NodeRec → NodeRec}
    (h : (s.guardedSet id want f).1 ≠ .OK) : (s.guardedSet id want f).2 = s := by
  unfold guardedSet at h ⊢
  split
  · rfl
  · split_ifs with hw
    · simp_all
    · rfl

/-- Once the link of a move has succeeded the old entry is still there to be removed. -/
theorem unlinkT_after_linkT (hs : s.Sound) {sdir : UInt64} {sn : Bytes} {sr : NodeRec} {c : Bytes}
    (hsr : loadNode s.kv sdir s.cur = some sr)
    (hg : s.kv.downLinks.get (be sdir ++ be sr.dnLinkVer ++ sn) = some c) (ddir : UInt64) (dn : Bytes)
    (hl : (linkT s.cur s.kv ddir dn (rdbe c)).1 = .OK) :
    (unlinkT s.cur (linkT s.cur s.kv ddir dn (rdbe c)).2 sdir sn).1 = .OK := by
  have hc := hs.consistent s.cur
  obtain ⟨he, -, hok⟩ := linkT_spec hs.base hc ddir dn (rdbe c)
  have hu := hok hl
  have hlink := he.symm.trans hl
  have hch := View.Change.sound (.link hlink) hc (hs.acyclic s.cur)
  rw [← hu.live] at hch
  rw [(unlinkT_spec hu.base hch.1 sdir sn).1, hu.live]
  have hent : (viewAt s.kv s.cur).entry sdir sn = some (rdbe c) :=
    viewAt_entry.mpr ⟨sr, hsr, by rw [dnAt, hg, Option.map_some]⟩
  have hlinked : ((viewAt s.kv s.cur).link ddir dn (rdbe c)).entry sdir sn = some (rdbe c) := by
    simp only [View.link]
    split_ifs
    · rfl
    · exact hent
  simp [View.unlinkOp, hlinked]

theorem move_failed (hs : s.Sound) {sdir ddir : Node} {sn dn : Bytes} (h : (s.move sdir sn ddir dn).1 ≠ .OK) :
    (s.move sdir sn ddir dn).2 = s := by
  unfold move at h ⊢
  cases hsr : loadNode s.kv sdir.id s.cur with
  | none => rfl
  | some sr =>
    simp only [hsr] at h ⊢
    cases hg : s.kv.downLinks.get (be sdir.id ++ be sr.dnLinkVer ++ sn) with
    | none => rfl
    | some c =>
      simp only [hg] at h ⊢
      have hun := unlinkT_after_linkT hs hsr hg ddir.id dn
      obtain ⟨-, hno, -⟩ := linkT_spec hs.base (hs.consistent s.cur) ddir.id dn (rdbe c)
      rcases hl : linkT s.cur s.kv ddir.id dn (rdbe c) with ⟨e, kv'⟩
      rw [hl] at h hun hno
      cases e with
      | OK => exact absurd (hun rfl) h
      | _ =>
        have hk : kv' = s.kv := hno (by simp)
        rw [hk]

theorem exec_failed (hs : s.Sound) {op : Op} {e : Error} (he : (s.exec op).1 = .err e) (hne : e ≠ .OK) :
    (s.exec op).2 = s := by
  have hc := hs.consistent s.cur
  have hf : ∀ x : Error, Res.err x = .err e → x ≠ .OK := by
    intro x hx
    rwa [Res.err.inj hx]
  cases op with
  | link dir name child =>
    have hk := (linkT_spec hs.base hc dir.id name child.id).2.1 (hf _ he)
    simp [exec, Res.ofErr, link, hk]
  | unlink dir name =>
    have hk := (unlinkT_spec hs.base hc dir.id name).2.1 (hf _ he)
    simp [exec, Res.ofErr, unlink, hk]
  | move sdir sn ddir dn => exact move_failed hs (hf _ he)
  | setContent reg c => exact guardedSet_failed (hf _ he)
  | setTarget lnk t => exact guardedSet_failed (hf _ he)
  | setRdev dev maj min => exact guardedSet_failed (hf _ he)
  | setContentSeed reg seed => exact guardedSet_failed (hf _ he)
  | _ => exact absurd he (by simp [exec, Res.ofNode])

theorem setAttr_no_record {n : Node} (hn : loadNode s.kv n.id s.cur = none) (x : Setter) : s.setAttr n x = s := by
  simp [setAttr, mutateNode, hn]

/-- An operation that answers an error changes nothing, and neither does a setter on
an id without a record; a move cannot fail half way. -/
theorem failed_ops_unchanged (hs : Run empty s) :
    (∀ op e, (s.exec op).1 = .err e → e ≠ .OK → (s.exec op).2 = s) ∧
    (∀ n x, loadNode s.kv n.id s.cur = none → (s.exec (.setAttr n x)).2 = s) ∧
    (∀ sdir ddir sn dn sr c, loadNode s.kv sdir s.cur = some sr →
      s.kv.downLinks.get (be sdir ++ be sr.dnLinkVer ++ sn) = some c →
      (linkT s.cur s.kv ddir dn (rdbe c)).1 = .OK →
      (unlinkT s.cur (linkT s.cur s.kv ddir dn (rdbe c)).2 sdir sn).1 = .OK) := by
  have hss := hs.sound
  exact ⟨fun op e he hne => exec_failed hss he hne, fun n x hn => setAttr_no_record hn x,
    fun sdir ddir sn dn sr c hsr hg => unlinkT_after_linkT hss hsr hg ddir dn⟩

theorem failed_ops_unchanged_on_exist :
    let s := empty.after [.mkdir, .link ⟨1, LATEST⟩ [97] ⟨2, LATEST⟩, .mkfile [],
      .link ⟨2, LATEST⟩ [98] ⟨3, LATEST⟩, .snapshot []]
    let op := Op.move ⟨2, LATEST⟩ [98] ⟨1, LATEST⟩ [97]
    (s.exec op).1 = .err .EXIST ∧ (s.exec op).2 = s := by
  refine ⟨by decide, ?_⟩
  exact (failed_ops_unchanged (run_after (by decide))).1 _ .EXIST (by decide) (by decide)

end PrfsStore

end Prfs
