import Prfs.StoreReads

namespace Prfs

variable {kv : Data} {cur : SnapId}

theorem linkSet_get {g : SnapId} {dir : UInt64} (hc : (viewAt kv g).Consistent) (n : Bytes) :
    (linkSet kv dir g).get n = (viewAt kv g).entry dir n := by
  unfold linkSet
  cases hr : loadNode kv dir g with
  | none => simp [viewAt, hr]
  | some r =>
    have hent : (viewAt kv g).entry dir n = dnAt kv dir r.dnLinkVer n := by simp [viewAt, hr]
    by_cases ht : r.type = FType.DIR.code
    · simp only [ht, ne_eq, not_true_eq_false, if_false, hent]
      refine Option.ext fun c => ?_
      rw [OrdMap.get_foldl_put_sorted (scanDownlinks_sorted ..), mem_scanDownlinks]
    · have hnone : (viewAt kv g).entry dir n = none := by
        cases he : (viewAt kv g).entry dir n with
        | none => rfl
        | some c =>
          obtain ⟨q, hq, hqt⟩ := viewAt_isDir.mp (hc.dir he)
          obtain rfl := Option.some.inj (hr.symm.trans hq)
          exact absurd hqt ht
      simp [ht, hnone]

/-- The candidates are the ids with a change recorded after `ra` and not after `rb`. -/
theorem candidates_isSome (hw : kv.Wf) {ra rb : SnapId} (hra : ra < LATEST) {id : UInt64} :
    ((candidates kv ra rb).get id).isSome ↔ ∃ v, ra < v ∧ v ≤ rb ∧ chAt kv v id := by
  have hlt : ∀ v : SnapId, ra + 1 ≤ v ↔ ra < v := by
    intro v
    simp only [LATEST] at hra
    grind
  have hseek : ∀ v i : UInt64, be (ra + 1) ≤ be v ++ be i ↔ ra < v := by
    intro v i
    have := append_le_append_iff (p := be (ra + 1)) (q := be v) (by simp) [] (be i)
    rw [List.append_nil] at this
    rw [this, ← hlt, be_lt_iff, be_inj]
    have := nil_le_list (be i)
    grind
  have htake : ((kv.changes.seek (be (ra + 1))).after.takeWhile (fun e => !(rb < rdbe e.1))) =
      (kv.changes.seek (be (ra + 1))).after.filter (fun e => !(rb < rdbe e.1)) := by
    refine takeWhile_eq_filter ?_
    rw [kv.changes.seek_after]
    refine List.Pairwise.imp_of_mem ?_ (kv.changes.sorted.filter _)
    intro a b ha hb hab hp
    obtain ⟨v, i, hv⟩ := hw.change (OrdMap.mem_iff_get.mp (List.mem_filter.mp ha).1)
    obtain ⟨w, j, hw'⟩ := hw.change (OrdMap.mem_iff_get.mp (List.mem_filter.mp hb).1)
    rw [hv, hw', key2_lt_iff] at hab
    simp only [hv, hw', rdbe_be_append, Bool.not_eq_true', decide_eq_false_iff_not, not_lt] at hp ⊢
    grind
  unfold candidates
  rw [htake, kv.changes.seek_after, OrdMap.get_foldl_put_isSome]
  simp only [OrdMap.get_empty, Option.isSome_none, Bool.false_eq_true, or_false, List.mem_filter]
  constructor
  · rintro ⟨e, ⟨⟨hm, hge⟩, hle⟩, hid⟩
    obtain ⟨v, i, hv⟩ := hw.change (OrdMap.mem_iff_get.mp hm)
    have hf := key2_fields v i []
    rw [List.append_nil] at hf
    rw [hv, hf.2] at hid
    subst hid
    refine ⟨v, ?_, ?_, ?_⟩
    · rw [decide_eq_true_eq, hv] at hge
      exact (hseek v i).mp hge
    · simpa [hv, hf.1] using hle
    · rw [chAt, ← hv, OrdMap.mem_iff_get.mp hm]
      rfl
  · rintro ⟨v, hv, hle, hch⟩
    obtain ⟨val, hval⟩ := Option.isSome_iff_exists.mp hch
    have hf := key2_fields v id []
    rw [List.append_nil] at hf
    refine ⟨(be v ++ be id, val), ⟨⟨OrdMap.mem_iff_get.mpr hval, ?_⟩, ?_⟩, hf.2⟩
    · exact decide_eq_true ((hseek v id).mpr hv)
    · simpa [hf.1] using hle

theorem mem_candidates (hw : kv.Wf) {ra rb : SnapId} (hra : ra < LATEST) {id : UInt64} :
    id ∈ (candidates kv ra rb).entries.map Prod.fst ↔ ∃ v, ra < v ∧ v ≤ rb ∧ chAt kv v id := by
  rw [← candidates_isSome hw hra, Option.isSome_iff_exists]
  simp only [List.mem_map, Prod.exists, exists_and_right, exists_eq_right, OrdMap.mem_iff_get]

/-- A node that is no candidate has one effective record over the whole interval. -/
theorem Base.loadNode_of_not_candidate (h : Base cur kv) {ra rb : SnapId} (hra : ra < LATEST) (hab : ra ≤ rb)
    {id : UInt64} (hid : id ∉ (candidates kv ra rb).entries.map Prod.fst) :
    loadNode kv id ra = loadNode kv id rb := by
  refine loadNode_eq_of_no_rec h.wf hab fun v hv hvb => ?_
  cases hr : recAt kv id v with
  | none => rfl
  | some r => exact absurd ((mem_candidates h.wf hra).mpr ⟨v, hv, hvb, h.ch hr⟩) hid

theorem nodeChange_self (x : Option NodeRec) : nodeChange x x = none := by
  cases x with
  | none => rfl
  | some r =>
    simp only [nodeChange]
    cases h : (some r).any (fun r => decide (0 < r.nlink)) <;> simp

theorem nodeChange_bare (x y : Option NodeRec) :
    nodeChange (x.map NodeRec.bare) (y.map NodeRec.bare) = nodeChange x y := by
  cases x <;> cases y <;> rfl

namespace PrfsStore

variable {s : PrfsStore}

theorem rr_lt (hs : s.cur < LATEST) (g : SnapId) : s.rr g < LATEST := by
  unfold rr
  split_ifs with h
  · exact hs
  · simp only [LATEST] at h ⊢
    grind

theorem diffNodes_diffs (h : Base s.cur s.kv) (hs : s.cur < LATEST) {a b : SnapId} (hab : s.rr a ≤ s.rr b) :
    (viewAt s.kv (s.rr a)).Diffs (viewAt s.kv (s.rr b)) (s.diffNodes a b) := by
  have hra := rr_lt hs a
  constructor
  · unfold diffNodes
    refine List.pairwise_filterMap.mpr (List.pairwise_map.mpr ?_)
    refine (candidates s.kv (s.rr a) (s.rr b)).sorted.imp fun {x y} hxy d hd e he => ?_
    obtain ⟨c, -, rfl⟩ := Option.map_eq_some_iff.mp hd
    obtain ⟨c', -, rfl⟩ := Option.map_eq_some_iff.mp he
    exact hxy
  · intro id c
    simp only [viewAt, nodeChange_bare, diffNodes, List.mem_filterMap, Option.map_eq_some_iff,
      NodeDiff.mk.injEq]
    constructor
    · rintro ⟨i, -, x, hx, rfl, rfl⟩
      exact hx
    · intro hc
      refine ⟨id, ?_, c, hc, rfl, rfl⟩
      by_contra hid
      rw [h.loadNode_of_not_candidate hra hab hid, nodeChange_self] at hc
      simp at hc

theorem candidates_eq_nil (hw : s.kv.Wf) {ra rb : SnapId} (hra : ra < LATEST) (hab : rb ≤ ra) :
    (candidates s.kv ra rb).entries.map Prod.fst = [] := by
  refine List.eq_nil_iff_forall_not_mem.mpr fun id hid => ?_
  obtain ⟨v, hv, hvb, -⟩ := (mem_candidates hw hra).mp hid
  exact absurd (lt_of_lt_of_le hv hvb) (not_lt.mpr hab)

theorem diffNodes_eq_nil (hw : s.kv.Wf) (hs : s.cur < LATEST) {a b : SnapId} (hab : s.rr b ≤ s.rr a) :
    s.diffNodes a b = [] := by
  simp only [diffNodes, candidates_eq_nil hw (rr_lt hs a) hab, List.filterMap_nil]

/-- `diffPaths` reports the names bound at one view and not at all at the other. -/
theorem mem_diffPaths (h : Base s.cur s.kv) (hs : s.cur < LATEST) (hc : ∀ g, (viewAt s.kv g).Consistent)
    {a b : SnapId} (hab : s.rr a ≤ s.rr b) (p : PathDiff) :
    p ∈ s.diffPaths a b ↔
      (p.change = .ADDED ∧ (viewAt s.kv (s.rr b)).entry p.parent p.name = some p.child ∧
        (viewAt s.kv (s.rr a)).entry p.parent p.name = none) ∨
      (p.change = .REMOVED ∧ (viewAt s.kv (s.rr a)).entry p.parent p.name = some p.child ∧
        (viewAt s.kv (s.rr b)).entry p.parent p.name = none) := by
  have hra := rr_lt hs a
  have hcand : ∀ d n, d ∉ (candidates s.kv (s.rr a) (s.rr b)).entries.map Prod.fst →
      (viewAt s.kv (s.rr a)).entry d n = (viewAt s.kv (s.rr b)).entry d n := by
    intro d n hd
    simp only [viewAt, h.loadNode_of_not_candidate hra hab hd]
  obtain ⟨ch, d, n, c⟩ := p
  simp only [diffPaths, List.mem_flatMap, List.mem_append, List.mem_map, List.mem_filter, Prod.exists,
    OrdMap.mem_iff_get, linkSet_get (hc _), PathDiff.mk.injEq, Option.isNone_iff_eq_none]
  constructor
  · rintro ⟨_, -, ⟨_, _, ⟨h1, h2⟩, rfl, rfl, rfl, rfl⟩ | ⟨_, _, ⟨h1, h2⟩, rfl, rfl, rfl, rfl⟩⟩
    · exact Or.inl ⟨rfl, h1, h2⟩
    · exact Or.inr ⟨rfl, h1, h2⟩
  · intro hh
    have hd : d ∈ (candidates s.kv (s.rr a) (s.rr b)).entries.map Prod.fst := by
      by_contra hd
      have heq := hcand d n hd
      rcases hh with ⟨-, h1, h2⟩ | ⟨-, h1, h2⟩
      · rw [← heq, h2] at h1
        simp at h1
      · rw [heq, h2] at h1
        simp at h1
    obtain ⟨⟨d', u⟩, hm, rfl⟩ := List.mem_map.mp hd
    refine ⟨d', ⟨d', u, OrdMap.mem_iff_get.mp hm, rfl⟩, ?_⟩
    rcases hh with ⟨rfl, h1, h2⟩ | ⟨rfl, h1, h2⟩
    · exact Or.inl ⟨n, c, ⟨h1, h2⟩, rfl, rfl, rfl, rfl⟩
    · exact Or.inr ⟨n, c, ⟨h1, h2⟩, rfl, rfl, rfl, rfl⟩

end PrfsStore

end Prfs
