import Prfs.FileSysInv
import Prfs.MemLinks

namespace Prfs

namespace MemStore

variable {m m' : MemStore} {id : UInt64} {f : NodeVer → NodeVer}

/-- A change of the node is recorded in the snapshot. -/
def Touched (m : MemStore) (v : SnapId) (id : UInt64) : Prop :=
  (((m.changes.get v).getD .empty).get id).isSome

structure Ok (m : MemStore) : Prop where
  cur_pos : 1 ≤ m.cur
  vers : ∀ id, VersOk NodeVer.snap m.cur (m.vers id)
  ivs : ∀ d n, IvsOk m.cur (m.ivs d n)
  named : ∀ d n, m.ivs d n ≠ [] → n ∈ m.namesOf d
  touched : ∀ id, ∀ v ∈ m.vers id, m.Touched v.snap id

/-- The effective record of a node at a view. -/
def recAt (m : MemStore) (g : SnapId) (id : UInt64) : Option NodeRec := (m.effR id g).map NodeVer.toRec

theorem touched_touch {v : SnapId} {i : UInt64} :
    (m.touch id).Touched v i ↔ (v = m.cur ∧ i = id) ∨ m.Touched v i := by
  unfold Touched touch
  simp only [OrdMap.get_put]
  by_cases hv : v = m.cur
  · by_cases hi : i = id
    · simp [hv, hi]
    · simp [hv, hi]
  · simp [hv]

theorem Ok.touch (h : m.Ok) : (m.touch id).Ok :=
  ⟨h.cur_pos, h.vers, h.ivs, h.named, fun i v hv => touched_touch.mpr (Or.inr (h.touched i v hv))⟩

theorem setLive_vers (i : UInt64) : (m.setLive id f).vers i =
    if i = id then onNewest NodeVer.snap m.cur (copyVer m.cur) f (m.vers id) else m.vers i := by
  unfold setLive vers
  simp only [OrdMap.get_put]
  split_ifs <;> rfl

/-- The version `liveVer` hands out. -/
def liveVer (m : MemStore) (id : UInt64) : NodeVer := newest NodeVer.snap m.cur (copyVer m.cur) (m.vers id)

theorem liveVer_snap : (m.liveVer id).snap = m.cur := by
  unfold liveVer newest
  split
  · split_ifs with hv
    · exact hv
    · rfl
  · rfl

theorem Ok.liveVer_toRec (h : m.Ok) {r : NodeRec} (hr : m.recAt m.cur id = some r) : (m.liveVer id).toRec = r := by
  obtain ⟨v, hv, rfl⟩ := Option.map_eq_some_iff.mp hr
  rw [effR, (h.vers id).effAt_live le_rfl] at hv
  unfold liveVer newest
  rw [hv]
  dsimp only
  split_ifs <;> rfl

theorem Ok.setLive (h : m.Ok) (hf : ∀ v, (f v).snap = v.snap) : ((m.setLive id f).touch id).Ok := by
  have hs : (f (m.liveVer id)).snap = m.cur := (hf _).trans liveVer_snap
  refine ⟨h.cur_pos, fun i => ?_, h.ivs, h.named, fun i v hv => ?_⟩
  · show VersOk NodeVer.snap m.cur ((m.setLive id f).vers i)
    rw [setLive_vers]
    split_ifs
    · exact (h.vers id).onNewest_ok hs
    · exact h.vers i
  · change v ∈ (m.setLive id f).vers i at hv
    rw [setLive_vers] at hv
    refine touched_touch.mpr ?_
    split_ifs at hv with hi
    · subst hi
      rcases (h.vers i).mem_onNewest hv with hv | rfl
      · exact Or.inr (h.touched i v hv)
      · exact Or.inl ⟨hs, rfl⟩
    · exact Or.inr (h.touched i v hv)

/-- A write to the live version changes the node in the views from the current one on. -/
theorem Ok.recAt_setLive (h : m.Ok) (hf : ∀ v, (f v).snap = v.snap) {F : NodeRec → NodeRec}
    (hF : ∀ v, (f v).toRec = F v.toRec) {r : NodeRec} (hr : m.recAt m.cur id = some r) (g : SnapId) (i : UInt64) :
    ((m.setLive id f).touch id).recAt g i =
      if g < m.cur then m.recAt g i else if i = id then some (F r) else m.recAt g i := by
  have hs : (f (m.liveVer id)).snap = m.cur := (hf _).trans liveVer_snap
  show (effAt NodeVer.snap g ((m.setLive id f).vers i)).map NodeVer.toRec = _
  rw [setLive_vers]
  by_cases hi : i = id
  · subst hi
    simp only [if_true]
    split_ifs with hg
    · rw [(h.vers i).effAt_onNewest_old hs hg]
      rfl
    · rw [(h.vers i).effAt_onNewest_live hs (not_lt.mp hg), Option.map_some, hF]
      exact congrArg (fun x => some (F x)) (h.liveVer_toRec hr)
  · simp only [hi, if_false, ite_self]
    rfl

theorem Ok.recAt_live (h : m.Ok) {g : SnapId} (hg : m.cur ≤ g) (i : UInt64) : m.recAt g i = m.recAt m.cur i := by
  simp only [recAt, effR, (h.vers i).effAt_live hg, (h.vers i).effAt_live le_rfl]

section Links

variable {dir child : UInt64} {name : Bytes}

theorem addLink_ivs (d : UInt64) (n : Bytes) : (m.addLink dir name child).ivs d n =
    if d = dir ∧ n = name then m.ivs dir name ++ [⟨m.cur, 0, child⟩] else m.ivs d n := by
  unfold addLink ivs
  simp only [OrdMap.get_put, EmbeddingLike.apply_eq_iff_eq, Prod.mk.injEq]
  split_ifs <;> rfl

theorem addLink_namesOf {n : Bytes} {d : UInt64} :
    n ∈ (m.addLink dir name child).namesOf d ↔ (d = dir ∧ n = name) ∨ n ∈ m.namesOf d := by
  have hmem : ∀ s : OrdMap Bytes Unit, n ∈ s.entries.map Prod.fst ↔ (s.get n).isSome := by
    intro s
    simp [Option.isSome_iff_exists, ← OrdMap.mem_iff_get]
  unfold namesOf addLink
  rw [hmem, hmem]
  simp only [OrdMap.get_put]
  by_cases hd : d = dir
  · by_cases hn : n = name
    · simp [hd, hn]
    · simp [hd, hn]
  · simp [hd]

theorem Ok.addLink (h : m.Ok) (hn : liveAtR (m.ivs dir name) m.cur = none) : (m.addLink dir name child).Ok := by
  refine ⟨h.cur_pos, h.vers, fun d n => ?_, fun d n hne => ?_, h.touched⟩
  · show IvsOk m.cur ((m.addLink dir name child).ivs d n)
    rw [addLink_ivs]
    split_ifs
    · exact (h.ivs dir name).born h.cur_pos hn
    · exact h.ivs d n
  · rw [addLink_ivs] at hne
    rw [addLink_namesOf]
    split_ifs at hne with hdn
    · exact Or.inl hdn
    · exact Or.inr (h.named d n hne)

theorem Ok.entry_addLink (h : m.Ok) (hn : liveAtR (m.ivs dir name) m.cur = none) (g : SnapId) (d : UInt64) (n : Bytes) :
    liveAtR ((m.addLink dir name child).ivs d n) g =
      if g < m.cur then liveAtR (m.ivs d n) g
      else if d = dir ∧ n = name then some child else liveAtR (m.ivs d n) g := by
  rw [addLink_ivs]
  by_cases hdn : d = dir ∧ n = name
  · obtain ⟨rfl, rfl⟩ := hdn
    simp only [and_self, if_true]
    split_ifs with hg
    · exact IvsOk.liveAtR_born_old hg
    · exact (h.ivs d n).liveAtR_born_live hn (not_lt.mp hg)
  · simp only [hdn, if_false, ite_self]

/-- End the live lifetime of a name. -/
def endLink (m : MemStore) (dir : UInt64) (name : Bytes) : MemStore :=
  { m with links := m.links.put (toLex (dir, name)) (closeLive m.cur (m.ivs dir name)) }

theorem endLink_ivs (d : UInt64) (n : Bytes) : (m.endLink dir name).ivs d n =
    if d = dir ∧ n = name then closeLive m.cur (m.ivs dir name) else m.ivs d n := by
  unfold endLink
  conv_lhs => rw [ivs]
  simp only [OrdMap.get_put, EmbeddingLike.apply_eq_iff_eq, Prod.mk.injEq]
  split_ifs <;> rfl

theorem Ok.endLink (h : m.Ok) : (m.endLink dir name).Ok := by
  refine ⟨h.cur_pos, h.vers, fun d n => ?_, fun d n hne => ?_, h.touched⟩
  · show IvsOk m.cur ((m.endLink dir name).ivs d n)
    rw [endLink_ivs]
    split_ifs
    · exact (h.ivs dir name).close
    · exact h.ivs d n
  · rw [endLink_ivs] at hne
    refine h.named d n ?_
    split_ifs at hne with hdn
    · obtain ⟨rfl, rfl⟩ := hdn
      intro hnil
      rw [hnil] at hne
      exact hne rfl
    · exact hne

theorem Ok.entry_endLink (h : m.Ok) (g : SnapId) (d : UInt64) (n : Bytes) :
    liveAtR ((m.endLink dir name).ivs d n) g =
      if g < m.cur then liveAtR (m.ivs d n) g
      else if d = dir ∧ n = name then none else liveAtR (m.ivs d n) g := by
  rw [endLink_ivs]
  by_cases hdn : d = dir ∧ n = name
  · obtain ⟨rfl, rfl⟩ := hdn
    simp only [and_self, if_true]
    split_ifs with hg
    · exact (h.ivs d n).liveAtR_close_old hg
    · exact (h.ivs d n).liveAtR_close_live h.cur_pos (not_lt.mp hg)
  · simp only [hdn, if_false, ite_self]

end Links

end MemStore

end Prfs
