import Prfs.StoreRead

namespace Prfs

/-- The tables of a store read at decoded keys. -/
def recAt (kv : Data) (id : UInt64) (snap : SnapId) : Option NodeRec :=
  (kv.nodes.get (be id ++ be snap)).map deserialize

def dnAt (kv : Data) (dir ver : UInt64) (name : Bytes) : Option UInt64 :=
  (kv.downLinks.get (be dir ++ be ver ++ name)).map rdbe

def upAt (kv : Data) (node ver dir : UInt64) (name : Bytes) : Prop :=
  (kv.upLinks.get (be node ++ be ver ++ be dir ++ name)).isSome

def chAt (kv : Data) (snap : SnapId) (id : UInt64) : Prop :=
  (kv.changes.get (be snap ++ be id)).isSome

/-- Every key in the tables is the encoding of the tuple it stands for. -/
structure Data.Wf (kv : Data) : Prop where
  node : ∀ {k v}, kv.nodes.get k = some v → ∃ id snap, k = be id ++ be snap
  down : ∀ {k v}, kv.downLinks.get k = some v → ∃ dir ver name c, k = be dir ++ be ver ++ name ∧ v = be c
  up : ∀ {k v}, kv.upLinks.get k = some v → ∃ node ver dir name, k = be node ++ be ver ++ be dir ++ name
  change : ∀ {k v}, kv.changes.get k = some v → ∃ snap id, k = be snap ++ be id

theorem loadNode_eq_floor (kv : Data) (id : UInt64) (rg : SnapId) :
    loadNode kv id rg = (kv.nodes.floor (be id ++ be rg)).bind (fun e =>
      if e.1.length = 16 ∧ rdbe e.1 = id ∧ rdbe (e.1.drop 8) ≤ rg then some (deserialize e.2)
      else none) := by
  have hhit : ∀ x : Bytes, (x.length = 16 ∧ rdbe x = id ∧ rdbe (x.drop 8) = rg) ↔ x = be id ++ be rg := by
    intro x
    constructor
    · rintro ⟨hl, rfl, rfl⟩
      exact (key2_of_length hl).symm
    · rintro rfl
      have hf := key2_fields id rg []
      simp only [List.append_nil] at hf
      exact ⟨by simp, hf.1, hf.2⟩
  have hh := kv.nodes.seek_back_entry (be id ++ be rg)
    (fun x => x.length = 16 ∧ rdbe x = id ∧ rdbe (x.drop 8) = rg) hhit
  simp only [loadNode, ← hh]
  cases (kv.nodes.seek (be id ++ be rg)).entry with
  | none => cases (kv.nodes.seek (be id ++ be rg)).last.entry <;> rfl
  | some e =>
    dsimp only
    split_ifs <;> [rfl; cases (kv.nodes.seek (be id ++ be rg)).prev.entry <;> rfl]

/-- Range-back in a table of any keys. -/
theorem loadNode_floor_iff {kv : Data} {id : UInt64} {rg : SnapId} {r : NodeRec} :
    loadNode kv id rg = some r ↔
      ∃ v ≤ rg, ∃ x, kv.nodes.get (be id ++ be v) = some x ∧ deserialize x = r ∧
        ∀ k, be id ++ be v < k → k ≤ be id ++ be rg → kv.nodes.get k = none := by
  rw [loadNode_eq_floor]
  constructor
  · intro h
    obtain ⟨⟨k, x⟩, hf, h⟩ := Option.bind_eq_some_iff.mp h
    split_ifs at h with hk
    obtain ⟨hg, -, hmax⟩ := OrdMap.floor_eq_some_iff.mp hf
    have hkey : k = be id ++ be (rdbe (k.drop 8)) := by
      have := key2_of_length hk.1
      rw [hk.2.1] at this
      exact this.symm
    rw [hkey] at hg hmax
    exact ⟨rdbe (k.drop 8), hk.2.2, x, hg, by simpa using h, hmax⟩
  · rintro ⟨v, hv, x, hg, rfl, hmax⟩
    have hfl : kv.nodes.floor (be id ++ be rg) = some (be id ++ be v, x) :=
      OrdMap.floor_eq_some_iff.mpr ⟨hg, key2_le_iff.mpr (Or.inr ⟨rfl, hv⟩), hmax⟩
    have hf := key2_fields id v []
    simp only [List.append_nil] at hf
    simp [hfl, hf.1, hv]

/-- Range-back: the record under the greatest snapshot not after `rg`. -/
theorem loadNode_eq_some_iff {kv : Data} (hw : kv.Wf) {id : UInt64} {rg : SnapId} {r : NodeRec} :
    loadNode kv id rg = some r ↔
      ∃ v ≤ rg, recAt kv id v = some r ∧ ∀ w, v < w → w ≤ rg → recAt kv id w = none := by
  rw [loadNode_floor_iff]
  constructor
  · rintro ⟨v, hv, x, hx, rfl, hmax⟩
    refine ⟨v, hv, by simp [recAt, hx], fun w hvw hwr => ?_⟩
    have := hmax (be id ++ be w) (key2_lt_iff.mpr (Or.inr ⟨rfl, hvw⟩)) (key2_le_iff.mpr (Or.inr ⟨rfl, hwr⟩))
    simp [recAt, this]
  · rintro ⟨v, hv, hr, hmax⟩
    obtain ⟨x, hx, rfl⟩ := Option.map_eq_some_iff.mp hr
    refine ⟨v, hv, x, hx, rfl, fun k hlt hle => ?_⟩
    cases hk : kv.nodes.get k with
    | none => rfl
    | some y =>
      obtain ⟨id', snap', rfl⟩ := hw.node hk
      have h1 := key2_lt_iff.mp hlt
      have h2 := key2_le_iff.mp hle
      obtain ⟨rfl, h3, h4⟩ : id = id' ∧ v < snap' ∧ snap' ≤ rg := by grind
      have hn := hmax snap' h3 h4
      simp [recAt, hk] at hn

theorem exists_loadNode {kv : Data} (hw : kv.Wf) {id : UInt64} {v rg : SnapId} {r : NodeRec}
    (hr : recAt kv id v = some r) (hv : v ≤ rg) : ∃ r', loadNode kv id rg = some r' := by
  obtain ⟨val, hval, -⟩ := Option.map_eq_some_iff.mp hr
  obtain ⟨⟨k, w⟩, hf, hle⟩ := OrdMap.floor_of_get hval (key2_le_iff.mpr (Or.inr ⟨rfl, hv⟩))
  obtain ⟨hg, hk, -⟩ := OrdMap.floor_eq_some_iff.mp hf
  obtain ⟨id', snap', rfl⟩ := hw.node hg
  have h1 := key2_le_iff.mp hle
  have h2 := key2_le_iff.mp hk
  obtain ⟨rfl, h3⟩ : id = id' ∧ snap' ≤ rg := by grind
  have hfd := key2_fields id snap' []
  simp only [List.append_nil] at hfd
  exact ⟨deserialize w, by simp [loadNode_eq_floor, hf, hfd.1, h3]⟩

theorem loadNode_eq_none_iff {kv : Data} (hw : kv.Wf) {id : UInt64} {rg : SnapId} :
    loadNode kv id rg = none ↔ ∀ v ≤ rg, recAt kv id v = none := by
  constructor
  · intro h v hv
    cases hr : recAt kv id v with
    | none => rfl
    | some r =>
      obtain ⟨r', hr'⟩ := exists_loadNode hw hr hv
      simp [h] at hr'
  · intro h
    cases hl : loadNode kv id rg with
    | none => rfl
    | some r =>
      obtain ⟨v, hv, hr, -⟩ := (loadNode_eq_some_iff hw).mp hl
      simp [h v hv] at hr

/-- Views with no record of `id` between them see the same record. -/
theorem loadNode_eq_of_no_rec {kv : Data} (hw : kv.Wf) {id : UInt64} {a b : SnapId} (hab : a ≤ b)
    (h : ∀ v, a < v → v ≤ b → recAt kv id v = none) : loadNode kv id a = loadNode kv id b := by
  cases hb : loadNode kv id b with
  | none =>
    rw [loadNode_eq_none_iff hw] at hb ⊢
    exact fun v hv => hb v (le_trans hv hab)
  | some r =>
    rw [loadNode_eq_some_iff hw] at hb ⊢
    obtain ⟨v, hv, hr, hmax⟩ := hb
    have hva : v ≤ a := by
      by_contra hc
      simp [h v (not_le.mp hc) hv] at hr
    exact ⟨v, hva, hr, fun w hvw hwa => hmax w hvw (le_trans hwa hab)⟩

/-- `loadNode` depends only on the records not after the view. -/
theorem loadNode_congr {kv kv' : Data} (hw : kv.Wf) (hw' : kv'.Wf) {id : UInt64} {rg : SnapId}
    (h : ∀ v ≤ rg, recAt kv id v = recAt kv' id v) : loadNode kv id rg = loadNode kv' id rg := by
  cases hb : loadNode kv' id rg with
  | none =>
    rw [loadNode_eq_none_iff hw'] at hb
    rw [loadNode_eq_none_iff hw]
    exact fun v hv => (h v hv).trans (hb v hv)
  | some r =>
    rw [loadNode_eq_some_iff hw'] at hb
    rw [loadNode_eq_some_iff hw]
    obtain ⟨v, hv, hr, hmax⟩ := hb
    exact ⟨v, hv, (h v hv).trans hr, fun w hvw hwr => (h w hwr).trans (hmax w hvw hwr)⟩

theorem prefix_test {pfx : Bytes} (hl : pfx.length = 16) (x : Bytes) :
    (!(x.length < 16 || x.take 16 != pfx)) = pfx.isPrefixOf x := by
  rw [Bool.eq_iff_iff, List.isPrefixOf_iff_prefix, List.prefix_iff_eq_take, hl]
  simp only [Bool.not_or, Bool.and_eq_true, Bool.not_eq_true', decide_eq_false_iff_not, not_lt,
    bne_eq_false_iff_eq]
  constructor
  · exact fun h => h.2.symm
  · intro h
    refine ⟨?_, h.symm⟩
    have := congrArg List.length h
    simp only [hl, List.length_take] at this
    omega

theorem scanPrefix_eq (m : OrdMap Bytes Bytes) {pfx : Bytes} (hl : pfx.length = 16) :
    scanPrefix m pfx = m.entries.filter (fun e => pfx.isPrefixOf e.1) := by
  unfold scanPrefix
  rw [funext (fun e : Bytes × Bytes => prefix_test hl e.1)]
  refine m.seek_takeWhile pfx (fun x => pfx.isPrefixOf x) ?_ ?_
  · exact fun x hx => prefix_le (List.isPrefixOf_iff_prefix.mp hx)
  · intro x y hx hxy hy
    rw [List.isPrefixOf_iff_prefix] at hy ⊢
    exact prefix_of_between hx (le_of_lt hxy) hy

/-- A prefix scan yields exactly the suffixes stored under the prefix. -/
theorem mem_scanPrefix {m : OrdMap Bytes Bytes} {pfx : Bytes} (hl : pfx.length = 16) {e : Bytes × Bytes} :
    e ∈ scanPrefix m pfx ↔ ∃ x, e.1 = pfx ++ x ∧ m.get (pfx ++ x) = some e.2 := by
  rw [scanPrefix_eq m hl, List.mem_filter, List.isPrefixOf_iff_prefix]
  constructor
  · rintro ⟨hm, x, hx⟩
    exact ⟨x, hx.symm, hx ▸ OrdMap.mem_iff_get.mp hm⟩
  · rintro ⟨x, hx, hg⟩
    refine ⟨?_, x, hx.symm⟩
    have := OrdMap.mem_iff_get.mpr hg
    rwa [← hx] at this

theorem scanPrefix_sorted (m : OrdMap Bytes Bytes) {pfx : Bytes} (hl : pfx.length = 16) :
    (scanPrefix m pfx).Pairwise (fun a b => a.1.drop 16 < b.1.drop 16) := by
  have hs : (scanPrefix m pfx).Pairwise (fun a b => a.1 < b.1) := by
    rw [scanPrefix_eq m hl]
    exact m.sorted.filter _
  refine List.Pairwise.imp_of_mem ?_ hs
  intro a b ha hb hab
  obtain ⟨x, hx, -⟩ := (mem_scanPrefix hl).mp ha
  obtain ⟨y, hy, -⟩ := (mem_scanPrefix hl).mp hb
  rw [hx, hy, append_right_lt_iff] at hab
  rwa [hx, hy, List.drop_left' hl, List.drop_left' hl]

theorem mem_scanDownlinks {kv : Data} {dir ver : UInt64} {name : Bytes} {c : UInt64} :
    (name, c) ∈ scanDownlinks kv dir ver ↔ dnAt kv dir ver name = some c := by
  have hl : (be dir ++ be ver).length = 16 := by simp
  simp only [scanDownlinks, List.mem_map, dnAt, Option.map_eq_some_iff, Prod.mk.injEq]
  constructor
  · rintro ⟨e, he, hn, hc⟩
    obtain ⟨x, hx, hg⟩ := (mem_scanPrefix hl).mp he
    rw [hx, List.drop_left' hl] at hn
    exact ⟨e.2, hn ▸ hg, hc⟩
  · rintro ⟨v, hg, hc⟩
    exact ⟨(be dir ++ be ver ++ name, v), (mem_scanPrefix hl).mpr ⟨name, rfl, hg⟩,
      List.drop_left' hl, hc⟩

theorem scanDownlinks_sorted (kv : Data) (dir ver : UInt64) :
    (scanDownlinks kv dir ver).Pairwise (fun a b => a.1 < b.1) :=
  List.pairwise_map.mpr (scanPrefix_sorted _ (by simp))

theorem mem_scanUplinks {kv : Data} {node ver : UInt64} {x : Bytes} :
    x ∈ scanUplinks kv node ver ↔ (kv.upLinks.get (be node ++ be ver ++ x)).isSome := by
  have hl : (be node ++ be ver).length = 16 := by simp
  simp only [scanUplinks, List.mem_map]
  constructor
  · rintro ⟨e, he, rfl⟩
    obtain ⟨x, hx, hg⟩ := (mem_scanPrefix hl).mp he
    rw [hx, List.drop_left' hl, hg]
    rfl
  · intro h
    obtain ⟨v, hg⟩ := Option.isSome_iff_exists.mp h
    exact ⟨(be node ++ be ver ++ x, v), (mem_scanPrefix hl).mpr ⟨x, rfl, hg⟩, List.drop_left' hl⟩

theorem scanUplinks_sorted (kv : Data) (node ver : UInt64) :
    (scanUplinks kv node ver).Pairwise (· < ·) :=
  List.pairwise_map.mpr (scanPrefix_sorted _ (by simp))

end Prfs
