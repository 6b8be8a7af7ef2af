import Prfs.StoreBase

namespace Prfs

/-- The newest version of `i` in `es` that is not after `rg`. -/
def lastVer (rg : SnapId) (i : UInt64) (es : List (Bytes × Bytes)) (init : Option NodeRec) : Option NodeRec :=
  es.foldl (fun acc e => if rdbe e.1 = i ∧ rdbe (e.1.drop 8) ≤ rg then some (deserialize e.2) else acc) init

theorem lastVer_of_not_mem {rg : SnapId} {i : UInt64} {es : List (Bytes × Bytes)} {init : Option NodeRec}
    (h : ∀ e ∈ es, rdbe e.1 ≠ i) : lastVer rg i es init = init := by
  induction es generalizing init with
  | nil => rfl
  | cons e es ih =>
    have hne : rdbe e.1 ≠ i := h e (by simp)
    have htl := @ih init (fun e' he' => h e' (List.mem_cons_of_mem _ he'))
    simpa [lastVer, hne] using htl

theorem lastVer_eq_getLast? (rg : SnapId) (i : UInt64) (es : List (Bytes × Bytes)) (init : Option NodeRec) :
    lastVer rg i es init =
      ((es.filter (fun e => rdbe e.1 = i ∧ rdbe (e.1.drop 8) ≤ rg)).getLast?.map
        (fun e => deserialize e.2)).or init := by
  induction es generalizing init with
  | nil => simp [lastVer]
  | cons e es ih =>
    have hstep : lastVer rg i (e :: es) init = lastVer rg i es
        (if rdbe e.1 = i ∧ rdbe (e.1.drop 8) ≤ rg then some (deserialize e.2) else init) := rfl
    rw [hstep, ih]
    by_cases he : rdbe e.1 = i ∧ rdbe (e.1.drop 8) ≤ rg
    · simp only [he, and_self, if_true, decide_true, List.filter_cons_of_pos, List.getLast?_cons,
        Option.map_some, Option.some_or]
      cases (es.filter (fun e => decide (rdbe e.1 = i ∧ rdbe (e.1.drop 8) ≤ rg))).getLast? <;> simp
    · simp [he]

/-- The id order of the node table. -/
theorem Data.Wf.nodes_ordered {kv : Data} (h : kv.Wf) :
    kv.nodes.entries.Pairwise (fun a b => rdbe a.1 ≤ rdbe b.1) := by
  refine List.Pairwise.imp_of_mem ?_ kv.nodes.sorted
  intro a b ha hb hab
  obtain ⟨i, v, hi⟩ := h.node (OrdMap.mem_iff_get.mp ha)
  obtain ⟨j, w, hj⟩ := h.node (OrdMap.mem_iff_get.mp hb)
  rw [hi, hj, key2_lt_iff] at hab
  rw [hi, hj, rdbe_be_append, rdbe_be_append]
  rcases hab with hlt | ⟨rfl, -⟩
  · exact le_of_lt hlt
  · exact le_rfl

theorem lastVer_eq_loadNode {kv : Data} (h : kv.Wf) (i : UInt64) (rg : SnapId) :
    lastVer rg i kv.nodes.entries none = loadNode kv i rg := by
  rw [lastVer_eq_getLast?, Option.or_none]
  have hs : (kv.nodes.entries.filter (fun e => decide (rdbe e.1 = i ∧ rdbe (e.1.drop 8) ≤ rg))).Pairwise
      (fun a b => a.1 < b.1) := kv.nodes.sorted.filter _
  have hkey : ∀ v, rdbe (be i ++ be v) = i ∧ rdbe ((be i ++ be v).drop 8) = v := by
    intro v
    simpa using key2_fields i v []
  have hmem : ∀ {v r}, recAt kv i v = some r → v ≤ rg → ∃ val, (be i ++ be v, val) ∈
      kv.nodes.entries.filter (fun e => decide (rdbe e.1 = i ∧ rdbe (e.1.drop 8) ≤ rg)) := by
    intro v r hr hv
    obtain ⟨val, hval, -⟩ := Option.map_eq_some_iff.mp hr
    refine ⟨val, List.mem_filter.mpr ⟨OrdMap.mem_iff_get.mpr hval, ?_⟩⟩
    simp [(hkey v).1, hv]
  cases hl : (kv.nodes.entries.filter (fun e => decide (rdbe e.1 = i ∧ rdbe (e.1.drop 8) ≤ rg))).getLast? with
  | none =>
    rw [Option.map_none, eq_comm, loadNode_eq_none_iff h]
    intro v hv
    cases hr : recAt kv i v with
    | none => rfl
    | some r =>
      obtain ⟨val, hm⟩ := hmem hr hv
      rw [List.getLast?_eq_none_iff.mp hl] at hm
      simp at hm
  | some e =>
    have he := List.mem_filter.mp (List.mem_of_getLast? hl)
    obtain ⟨id, v, hk⟩ := h.node (OrdMap.mem_iff_get.mp he.1)
    have hp := of_decide_eq_true he.2
    have hid : id = i := by
      rw [hk, rdbe_be_append] at hp
      exact hp.1
    subst hid
    rw [hk, (hkey v).2] at hp
    rw [Option.map_some, eq_comm, loadNode_eq_some_iff h]
    refine ⟨v, hp.2, ?_, fun w hvw hwr => ?_⟩
    · rw [recAt, ← hk, OrdMap.mem_iff_get.mp he.1, Option.map_some]
    · cases hr : recAt kv id w with
      | none => rfl
      | some r =>
        obtain ⟨val, hm⟩ := hmem hr hwr
        have hle := OrdMap.sorted_getLast? hs hl hm
        rw [hk, key2_le_iff] at hle
        exact absurd hvw (by grind)

theorem effFinish_mem {curId i : UInt64} {chosen : Option NodeRec} {r : NodeRec} :
    (i, r) ∈ effFinish curId chosen ↔ i = curId ∧ chosen = some r := by
  cases chosen <;> simp [effFinish, eq_comm]

/-- The loop yields the newest version of each id, the current one's choice so far
included. -/
theorem mem_effLoop {rg : SnapId} {es : List (Bytes × Bytes)} {curId i : UInt64} {chosen : Option NodeRec}
    {r : NodeRec} (hs : es.Pairwise (fun a b => rdbe a.1 ≤ rdbe b.1)) (hge : ∀ e ∈ es, curId ≤ rdbe e.1) :
    (i, r) ∈ effLoop rg es curId chosen ↔
      lastVer rg i es (if i = curId then chosen else none) = some r := by
  induction es generalizing curId chosen with
  | nil =>
    simp only [effLoop, effFinish_mem, lastVer, List.foldl_nil]
    split_ifs with hi <;> simp [hi]
  | cons e es ih =>
    obtain ⟨he, hs⟩ := List.pairwise_cons.mp hs
    have hge' := hge e (by simp)
    have hstep : ∀ init, lastVer rg i (e :: es) init = lastVer rg i es
        (if rdbe e.1 = i ∧ rdbe (e.1.drop 8) ≤ rg then some (deserialize e.2) else init) := fun _ => rfl
    rw [effLoop, List.mem_append, ih hs he, hstep]
    by_cases hid : rdbe e.1 = curId
    · subst hid
      simp only [ne_eq, not_true_eq_false, if_false, List.not_mem_nil, false_or]
      by_cases hi : i = rdbe e.1
      · simp [hi]
      · simp [hi, Ne.symm hi]
    · have hlt : curId < rdbe e.1 := lt_of_le_of_ne hge' (Ne.symm hid)
      simp only [ne_eq, hid, not_false_eq_true, if_true, effFinish_mem]
      by_cases hi : i = curId
      · subst hi
        have hno : ∀ e' ∈ es, rdbe e'.1 ≠ i := fun e' he' => ne_of_gt (lt_of_lt_of_le hlt (he e' he'))
        simp [hid, Ne.symm hid, lastVer_of_not_mem hno]
      · by_cases hie : i = rdbe e.1
        · simp [hie, hid]
        · simp [hi, hie, Ne.symm hie]

theorem effLoop_sorted {rg : SnapId} {es : List (Bytes × Bytes)} {curId : UInt64} {chosen : Option NodeRec}
    (hs : es.Pairwise (fun a b => rdbe a.1 ≤ rdbe b.1)) (hge : ∀ e ∈ es, curId ≤ rdbe e.1) :
    (effLoop rg es curId chosen).Pairwise (fun a b => a.1 < b.1) ∧
      ∀ e ∈ effLoop rg es curId chosen, curId ≤ e.1 := by
  have hfin : ∀ (c : UInt64) (x : Option NodeRec), (effFinish c x).Pairwise (fun a b => a.1 < b.1) ∧
      ∀ e ∈ effFinish c x, e.1 = c := by
    intro c x
    cases x <;> simp [effFinish]
  induction es generalizing curId chosen with
  | nil => exact ⟨(hfin _ _).1, fun e he => le_of_eq ((hfin _ _).2 e he).symm⟩
  | cons e es ih =>
    obtain ⟨he, hs⟩ := List.pairwise_cons.mp hs
    have hge' := hge e (by simp)
    rw [effLoop]
    generalize (if rdbe (e.1.drop 8) ≤ rg then some (deserialize e.2)
      else if rdbe e.1 ≠ curId then none else chosen) = next
    obtain ⟨ih1, ih2⟩ := @ih _ next hs he
    split_ifs with hid
    · have hlt : curId < rdbe e.1 := lt_of_le_of_ne hge' (Ne.symm hid)
      refine ⟨List.pairwise_append.mpr ⟨(hfin _ _).1, ih1, fun a ha b hb => ?_⟩, fun x hx => ?_⟩
      · rw [(hfin _ _).2 a ha]
        exact lt_of_lt_of_le hlt (ih2 b hb)
      · rcases List.mem_append.mp hx with hx | hx
        · exact le_of_eq ((hfin _ _).2 x hx).symm
        · exact le_trans hge' (ih2 x hx)
    · exact ⟨ih1, fun x hx => le_trans hge' (ih2 x hx)⟩

/-- The nodes a view has, in id order, each with its effective record. -/
theorem mem_eachEffNode {kv : Data} (h : kv.Wf) {rg : SnapId} {i : UInt64} {r : NodeRec} :
    (i, r) ∈ eachEffNode kv rg ↔ loadNode kv i rg = some r := by
  rw [eachEffNode, OrdMap.first, mem_effLoop h.nodes_ordered (fun e _ => by grind), ← lastVer_eq_loadNode h]
  simp

theorem eachEffNode_sorted {kv : Data} (h : kv.Wf) (rg : SnapId) :
    (eachEffNode kv rg).Pairwise (fun a b => a.1 < b.1) :=
  (effLoop_sorted h.nodes_ordered (fun e _ => by grind)).1

end Prfs
