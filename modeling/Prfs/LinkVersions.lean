import Prfs.StoreBase

namespace Prfs

variable {cur : SnapId} {kv : Data}

theorem viewAt_storeNode (h : Base cur kv) {id : UInt64} {old r : NodeRec}
    (hold : loadNode kv id cur = some old) (hd : r.dnLinkVer = old.dnLinkVer)
    (hu : r.upLinkVer = old.upLinkVer) :
    viewAt (storeNode kv id cur r) cur = (viewAt kv cur).modify id (fun _ => r.bare) := by
  ext d n c
  · simp only [viewAt, h.loadNode_storeNode_live, View.modify]
    split_ifs with hi
    · simp [hi, hold]
    · rfl
  · simp only [viewAt, h.loadNode_storeNode_live, View.modify, dnAt_storeNode]
    split_ifs with hi
    · subst hi
      simp [hold, hd]
    · rfl
  · simp only [viewAt, h.loadNode_storeNode_live, View.modify, upAt_iff_raw, upRaw_storeNode]
    split_ifs with hi
    · subst hi
      simp [hold, hu]
    · rfl

theorem ensureWritableDnLinks_fst (cur : SnapId) (kv : Data) (dir : UInt64) :
    (ensureWritableDnLinks cur kv dir).1 = cur := by
  unfold ensureWritableDnLinks
  dsimp only
  split_ifs <;> rfl

theorem ensureWritableUpLinks_fst (cur : SnapId) (kv : Data) (node : UInt64) :
    (ensureWritableUpLinks cur kv node).1 = cur := by
  unfold ensureWritableUpLinks
  dsimp only
  split_ifs <;> rfl

/-- `kv'` differs from `kv` by a fresh version of node `id`: its record `r` became `r'`
and its link sets were carried over to the versions of `r'`. -/
structure Carried (cur : SnapId) (kv kv' : Data) (id : UInt64) (r r' : NodeRec) : Prop where
  wf : kv'.Wf
  recs : ∀ i v, recAt kv' i v = if i = id ∧ v = cur then some r' else recAt kv i v
  chs : ∀ v i, chAt kv' v i ↔ (v = cur ∧ i = id) ∨ chAt kv v i
  dns : ∀ d v n, dnAt kv' d v n =
    if d = id ∧ v = r'.dnLinkVer then dnAt kv id r.dnLinkVer n else dnAt kv d v n
  ups : ∀ c v x, upRaw kv' c v x ↔
    if c = id ∧ v = r'.upLinkVer then upRaw kv id r.upLinkVer x else upRaw kv c v x
  dnVer : r'.dnLinkVer = r.dnLinkVer ∨ r'.dnLinkVer = cur
  upVer : r'.upLinkVer = r.upLinkVer ∨ r'.upLinkVer = cur
  bare : r'.bare = r.bare
  metaKv : kv'.metaKv = kv.metaKv
  snaps : kv'.snaps = kv.snaps

namespace Carried

variable {kv' : Data} {id : UInt64} {r r' : NodeRec}

theorem loadNode (hc : Carried cur kv kv' id r r') (h : Base cur kv) (i : UInt64) :
    Prfs.loadNode kv' i cur = if i = id then some r' else Prfs.loadNode kv i cur := by
  rw [← h.loadNode_storeNode_live]
  refine loadNode_congr hc.wf (h.wf.storeNode _ _ _) fun v _ => ?_
  rw [hc.recs, recAt_storeNode]

theorem ver_le (hc : Carried cur kv kv' id r r') (h : Base cur kv)
    (hr : Prfs.loadNode kv id cur = some r) :
    (r.dnLinkVer ≤ r'.dnLinkVer ∧ r'.dnLinkVer ≤ cur) ∧ r.upLinkVer ≤ r'.upLinkVer ∧ r'.upLinkVer ≤ cur := by
  obtain ⟨hd, hu⟩ := h.loadNode_le hr
  refine ⟨?_, ?_⟩
  · rcases hc.dnVer with he | he <;> rw [he]
    · exact ⟨le_rfl, hd⟩
    · exact ⟨hd, le_rfl⟩
  · rcases hc.upVer with he | he <;> rw [he]
    · exact ⟨le_rfl, hu⟩
    · exact ⟨hu, le_rfl⟩

theorem base (hc : Carried cur kv kv' id r r') (h : Base cur kv)
    (hr : Prfs.loadNode kv id cur = some r) : Base cur kv' := by
  obtain ⟨⟨hd, hdc⟩, hu, huc⟩ := hc.ver_le h hr
  refine ⟨hc.wf, fun {i v q} hq => ?_, fun {d v n c} hdn => ?_, fun {c v x} hup => ?_, fun {i v q} hq => ?_⟩
  · rw [hc.recs] at hq
    split_ifs at hq with hiv
    · obtain rfl := Option.some.inj hq
      exact ⟨le_of_eq hiv.2, hiv.2 ▸ hdc, hiv.2 ▸ huc⟩
    · exact h.rec_le hq
  · rw [hc.loadNode h]
    rw [hc.dns] at hdn
    by_cases hi : d = id
    · subst hi
      refine ⟨r', by simp, ?_⟩
      split_ifs at hdn with hdv
      · exact le_of_eq hdv.2
      · obtain ⟨q, hq, hle⟩ := h.dn_le hdn
        obtain rfl := Option.some.inj (hr.symm.trans hq)
        exact le_trans hle hd
    · simp only [hi, false_and, if_false] at hdn ⊢
      exact h.dn_le hdn
  · rw [hc.loadNode h]
    rw [hc.ups] at hup
    by_cases hi : c = id
    · subst hi
      refine ⟨r', by simp, ?_⟩
      split_ifs at hup with hcv
      · exact le_of_eq hcv.2
      · obtain ⟨q, hq, hle⟩ := h.up_le hup
        obtain rfl := Option.some.inj (hr.symm.trans hq)
        exact le_trans hle hu
    · simp only [hi, false_and, if_false] at hup ⊢
      exact h.up_le hup
  · rw [hc.chs]
    rw [hc.recs] at hq
    split_ifs at hq with hiv
    · exact Or.inl hiv.symm
    · exact Or.inr (h.ch hq)

theorem frame (hc : Carried cur kv kv' id r r') : Frame cur kv kv' := by
  refine ⟨fun {i v} hv => by simp [hc.recs, hv], fun {d v n} hv => ?_, fun {c v x} hv => ?_,
    fun {v i} hv => by simp [hc.chs, hv], hc.metaKv, hc.snaps⟩
  · rw [hc.dns]
    split_ifs with hdv
    · rcases hc.dnVer with he | he
      · rw [hdv.1, hdv.2, he]
      · exact absurd (hdv.2.trans he) hv
    · rfl
  · rw [hc.ups]
    split_ifs with hcv
    · rcases hc.upVer with he | he
      · rw [hcv.1, hcv.2, he]
      · exact absurd (hcv.2.trans he) hv
    · rfl

theorem live (hc : Carried cur kv kv' id r r') (h : Base cur kv)
    (hr : Prfs.loadNode kv id cur = some r) : viewAt kv' cur = viewAt kv cur := by
  ext d n c
  · simp only [viewAt, hc.loadNode h]
    split_ifs with hi
    · simp [hi, hr, hc.bare]
    · rfl
  · simp only [viewAt, hc.loadNode h]
    split_ifs with hi
    · simp [hi, hr, hc.dns]
    · simp [hc.dns, hi]
  · simp only [viewAt, hc.loadNode h, upAt_iff_raw, hc.ups]
    split_ifs with hi
    · simp [hi, hr]
    · simp [hi]

theorem updates (hc : Carried cur kv kv' id r r') (h : Base cur kv)
    (hr : Prfs.loadNode kv id cur = some r) : Updates cur kv kv' (viewAt kv cur) :=
  ⟨hc.base h hr, hc.frame, hc.live h hr⟩

theorem refl (h : Base cur kv) (hr : recAt kv id cur = some r) : Carried cur kv kv id r r := by
  refine ⟨h.wf, fun i v => ?_, fun v i => ?_, fun d v n => ?_, fun c v x => ?_, Or.inl rfl, Or.inl rfl,
    rfl, rfl, rfl⟩
  · split_ifs with hiv
    · rw [hiv.1, hiv.2, hr]
    · rfl
  · refine ⟨Or.inr, ?_⟩
    rintro (⟨rfl, rfl⟩ | hch)
    · exact h.ch hr
    · exact hch
  · split_ifs with hdv
    · rw [hdv.1, hdv.2]
    · rfl
  · split_ifs with hcv
    · rw [hcv.1, hcv.2]
    · rfl

end Carried

/-- A link set of the current version belongs to a record of the current version. -/
theorem Base.rec_of_ver (h : Base cur kv) {id : UInt64} {r : NodeRec}
    (hr : loadNode kv id cur = some r) (hv : r.dnLinkVer = cur ∨ r.upLinkVer = cur) :
    recAt kv id cur = some r := by
  obtain ⟨v, hvc, hrec, -⟩ := (loadNode_eq_some_iff h.wf).mp hr
  obtain ⟨-, h1, h2⟩ := h.rec_le hrec
  have : v = cur := by
    rcases hv with hv | hv
    · exact le_antisymm hvc (hv ▸ h1)
    · exact le_antisymm hvc (hv ▸ h2)
  rw [← this, hrec]

/-- Making a directory's link set writable carries it over to the current version. -/
theorem ensureWritableDnLinks_spec (h : Base cur kv) {dir : UInt64} {r : NodeRec}
    (hr : loadNode kv dir cur = some r) :
    Carried cur kv (ensureWritableDnLinks cur kv dir).2 dir r { r with dnLinkVer := cur } := by
  unfold ensureWritableDnLinks
  simp only [hr, Option.getD_some]
  split_ifs with hv
  · rw [show ({ r with dnLinkVer := cur } : NodeRec) = r by rw [← hv]]
    exact Carried.refl h (h.rec_of_ver hr (Or.inl hv))
  -- the copies fill a version that holds no link yet
  · have hfresh : ∀ n, dnAt kv dir cur n = none := by
      intro n
      cases hd : dnAt kv dir cur n with
      | none => rfl
      | some c =>
        obtain ⟨q, hq, hle⟩ := h.dn_le hd
        obtain rfl := Option.some.inj (hr.symm.trans hq)
        exact absurd (le_antisymm (h.loadNode_le hr).1 hle) hv
    obtain ⟨hw, hnodes, hups, hchs, hmeta, hsnaps⟩ :=
      foldl_putDown_frame dir cur (scanDownlinks kv dir r.dnLinkVer) kv h.wf
    refine ⟨hw.storeNode _ _ _, fun i v => ?_, fun v i => ?_, fun d v n => ?_, fun c v x => ?_,
      Or.inr rfl, Or.inl rfl, rfl, hmeta, hsnaps⟩
    · rw [recAt_storeNode]
      simp only [recAt, hnodes]
    · rw [chAt_storeNode]
      simp only [chAt, hchs]
    · rw [dnAt_storeNode]
      dsimp only
      split_ifs with hdv
      · obtain ⟨rfl, rfl⟩ := hdv
        cases hn : dnAt kv d r.dnLinkVer n with
        | some c => exact dnAt_foldl_putDown_mem (scanDownlinks_sorted ..) (mem_scanDownlinks.mpr hn) kv
        | none =>
          rw [dnAt_foldl_putDown_other, hfresh]
          intro _ c hc
          rw [mem_scanDownlinks, hn] at hc
          simp at hc
      · exact dnAt_foldl_putDown_other _ _ (fun hh => absurd hh hdv)
    · rw [upRaw_storeNode]
      simp only [upRaw, hups]
      split_ifs with hcv
      · rw [hcv.1, hcv.2]
      · rfl

theorem ensureWritableUpLinks_spec (h : Base cur kv) {node : UInt64} {r : NodeRec}
    (hr : loadNode kv node cur = some r) :
    Carried cur kv (ensureWritableUpLinks cur kv node).2 node r { r with upLinkVer := cur } := by
  unfold ensureWritableUpLinks
  simp only [hr, Option.getD_some]
  split_ifs with hv
  · rw [show ({ r with upLinkVer := cur } : NodeRec) = r by rw [← hv]]
    exact Carried.refl h (h.rec_of_ver hr (Or.inr hv))
  · have hfresh : ∀ x, ¬ upRaw kv node cur x := by
      intro x hx
      obtain ⟨q, hq, hle⟩ := h.up_le hx
      obtain rfl := Option.some.inj (hr.symm.trans hq)
      exact hv (le_antisymm (h.loadNode_le hr).2 hle)
    have hsuf : ∀ x ∈ scanUplinks kv node r.upLinkVer, ∃ dir name, x = be dir ++ name :=
      fun x hx => h.wf.suffix (mem_scanUplinks.mp hx)
    obtain ⟨hw, hnodes, hdowns, hchs, hmeta, hsnaps⟩ :=
      foldl_putUp_frame node cur (scanUplinks kv node r.upLinkVer) kv h.wf hsuf
    refine ⟨hw.storeNode _ _ _, fun i v => ?_, fun v i => ?_, fun d v n => ?_, fun c v x => ?_,
      Or.inl rfl, Or.inr rfl, rfl, hmeta, hsnaps⟩
    · rw [recAt_storeNode]
      simp only [recAt, hnodes]
    · rw [chAt_storeNode]
      simp only [chAt, hchs]
    · rw [dnAt_storeNode]
      simp only [dnAt, hdowns]
      split_ifs with hdv
      · rw [hdv.1, hdv.2]
      · rfl
    · rw [upRaw_storeNode, upRaw_foldl_putUp]
      dsimp only
      split_ifs with hcv
      · obtain ⟨rfl, rfl⟩ := hcv
        simp only [and_self, true_and, hfresh, or_false]
        exact mem_scanUplinks
      · simp [hcv]

end Prfs
