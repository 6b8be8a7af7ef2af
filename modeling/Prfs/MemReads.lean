import Prfs.MemExec
import Prfs.StoreReads

namespace Prfs

namespace Mirrors

variable {m : MemStore} {a : FileSys} {n : Node}

/-- The view a handle reads. -/
theorem eff_toRec (h : Mirrors m a) (id : UInt64) (g : SnapId) :
    (m.eff id g).map NodeVer.toRec = (a.viewOf (m.resolve g)).node id := h.node _ id

theorem attrs_eq (h : Mirrors m a) (hn : isSnapDir n.id = false) :
    m.attrs n = Attrs.of n.id (((a.viewOf (m.resolve n.snap)).node n.id).getD {}) := by
  rw [← h.eff_toRec]
  simp only [MemStore.attrs, MemStore.effAttr, hn, Bool.false_eq_true, if_false, MemStore.attrOf]
  cases m.eff n.id n.snap with
  | none => rfl
  | some v => simp [Attrs.of, NodeVer.toRec]

theorem effAttr_isDir (h : Mirrors m a) (hn : isSnapDir n.id = false) :
    (m.effAttr n.id n.snap).type = .DIR ↔ (a.viewOf (m.resolve n.snap)).IsDir n.id := by
  unfold View.IsDir
  rw [← h.eff_toRec]
  simp only [MemStore.effAttr, hn, Bool.false_eq_true, if_false, MemStore.attrOf]
  cases m.eff n.id n.snap with
  | none => simp
  | some v => simp [NodeVer.toRec]

open Classical in
theorem lookup_eq (h : Mirrors m a) (hn : isSnapDir n.id = false) (name : Bytes) :
    m.lookup n name =
      if name = SNAPSHOT_NAME ∧ n.snap = LATEST ∧ (a.viewOf (m.resolve n.snap)).IsDir n.id then
        some ⟨n.id ||| SNAP_BIT, LATEST⟩
      else ((a.viewOf (m.resolve n.snap)).entry n.id name).map (fun c => ⟨c, n.snap⟩) := by
  simp only [MemStore.lookup, hn, Bool.false_eq_true, if_false, h.effAttr_isDir hn, h.linkLiveAt_eq]

theorem namesOf_sorted (m : MemStore) (d : UInt64) : (m.namesOf d).Pairwise (· < ·) :=
  List.pairwise_map.mpr ((m.names.get d).getD .empty).sorted

/-- The live names of a directory are its listing. -/
theorem liveNames_lists (h : Mirrors m a) (d : Node) :
    ∃ l, (a.viewOf (m.resolve d.snap)).Lists d.id l ∧ m.liveNames d = l.map (fun e => (e.1, ⟨e.2, d.snap⟩)) := by
  refine ⟨(m.namesOf d.id).filterMap (fun name => (m.linkLiveAt d.id name d.snap).map (fun c => (name, c))),
    ⟨?_, fun nm c => ?_⟩, ?_⟩
  · refine List.pairwise_filterMap.mpr ((namesOf_sorted m d.id).imp fun {x y} hxy p hp q hq => ?_)
    obtain ⟨c, -, rfl⟩ := Option.map_eq_some_iff.mp hp
    obtain ⟨c', -, rfl⟩ := Option.map_eq_some_iff.mp hq
    exact hxy
  · simp only [List.mem_filterMap, Option.map_eq_some_iff, Prod.mk.injEq, h.linkLiveAt_eq]
    constructor
    · rintro ⟨_, -, _, he, rfl, rfl⟩
      exact he
    · intro he
      refine ⟨nm, h.ok.named d.id nm fun hnil => ?_, c, he, rfl, rfl⟩
      rw [← h.entry, hnil] at he
      cases he
  · simp only [MemStore.liveNames, List.map_filterMap, Option.map_map]
    rfl

theorem readdir_eq (h : Mirrors m a) (hn : isSnapDir n.id = false) :
    ∃ l, (a.viewOf (m.resolve n.snap)).Lists n.id l ∧ m.readdir n = l.map (fun e => (e.1, ⟨e.2, n.snap⟩)) := by
  simp only [MemStore.readdir, hn, Bool.false_eq_true, if_false]
  exact h.liveNames_lists n

theorem readdirPage_eq (h : Mirrors m a) (hn : isSnapDir n.id = false) (after : Bytes) (max : Nat) :
    ∃ l, (a.viewOf (m.resolve n.snap)).Lists n.id l ∧ m.readdirPage n after max =
      pageLoop max ((l.filter (fun e => after < e.1)).map (fun e => (e.1, ⟨e.2, n.snap⟩))) {} := by
  obtain ⟨l, hl, he⟩ := h.liveNames_lists n
  refine ⟨l, hl, ?_⟩
  simp only [MemStore.readdirPage, hn, Bool.false_eq_true, if_false, he, List.filter_map]
  congr 2
  refine List.filter_congr fun e _ => ?_
  rw [Bool.eq_iff_iff]
  simp only [Function.comp, Bool.not_eq_true', decide_eq_false_iff_not, not_le, decide_eq_true_eq]

/-- The lifetimes under a key, from an entry of the table. -/
theorem ivs_of_mem {k : UInt64 ×ₗ Bytes} {l : List LinkIv} (hm : (k, l) ∈ m.links.entries) :
    m.ivs (ofLex k).1 (ofLex k).2 = l := by
  have hk : toLex ((ofLex k).1, (ofLex k).2) = k := rfl
  rw [MemStore.ivs, hk, OrdMap.mem_iff_get.mp hm, Option.getD_some]

theorem mem_of_ivs {d : UInt64} {nm : Bytes} (hne : m.ivs d nm ≠ []) :
    (toLex (d, nm), m.ivs d nm) ∈ m.links.entries := by
  rw [OrdMap.mem_iff_get]
  unfold MemStore.ivs at hne ⊢
  cases hg : m.links.get (toLex (d, nm)) with
  | none =>
    rw [hg] at hne
    exact absurd rfl hne
  | some l => rfl

/-- The containers among the live lifetimes of a node are its holders. -/
theorem parents_eq (h : Mirrors m a) (n : Node) :
    ∃ l, (a.viewOf (m.resolve n.snap)).Holders n.id l ∧ m.parents n = l.map (fun c => ⟨c, n.snap⟩) := by
  have hsub : ∀ (k : UInt64 ×ₗ Bytes) (l : List LinkIv),
      ∀ x ∈ (l.filter (fun iv => iv.child = n.id && liveAt iv (m.resolve n.snap))).map (fun _ => (ofLex k).1),
        x = (ofLex k).1 := by
    intro k l x hx
    obtain ⟨_, -, rfl⟩ := List.mem_map.mp hx
    rfl
  have hord : (m.links.entries.flatMap (fun e => (e.2.filter
      (fun iv => iv.child = n.id && liveAt iv (m.resolve n.snap))).map (fun _ => (ofLex e.1).1))).Pairwise (· ≤ ·) := by
    refine List.pairwise_flatMap.mpr ⟨fun e _ => ?_, m.links.sorted.imp fun {x y} hxy p hp q hq => ?_⟩
    · exact List.pairwise_of_forall_mem_list fun x hx y hy => le_of_eq
        ((hsub e.1 e.2 x hx).trans (hsub e.1 e.2 y hy).symm)
    · rw [hsub x.1 x.2 p hp, hsub y.1 y.2 q hq]
      exact Prod.Lex.monotone_fst _ _ (le_of_lt hxy)
  obtain ⟨h1, h2⟩ := foldl_distinct hord List.Pairwise.nil (by simp)
  refine ⟨_, ⟨h1, fun d => (h2 d).trans ?_⟩, rfl⟩
  simp only [List.not_mem_nil, false_or, List.mem_flatMap, List.mem_map, List.mem_filter, Bool.and_eq_true,
    decide_eq_true_eq, Prod.exists]
  constructor
  · rintro ⟨k, l, hm, iv, ⟨hiv, hc, hl⟩, rfl⟩
    refine ⟨(ofLex k).2, ?_⟩
    have hlive : iv ∈ (liveIv l (m.resolve n.snap)).toList := by
      rw [← ivs_of_mem hm, ← (h.ok.ivs _ _).filter_live, ivs_of_mem hm]
      exact List.mem_filter.mpr ⟨hiv, hl⟩
    rw [← h.entry, ivs_of_mem hm, liveAtR, Option.mem_toList.mp hlive, Option.map_some, hc]
  · rintro ⟨nm, he⟩
    rw [← h.entry] at he
    obtain ⟨iv, hiv, hc⟩ := Option.map_eq_some_iff.mp he
    have hmem : iv ∈ m.ivs d nm := List.mem_of_find?_eq_some hiv
    have hlive : liveAt iv (m.resolve n.snap) = true := by simpa using List.find?_some hiv
    exact ⟨toLex (d, nm), m.ivs d nm, mem_of_ivs (List.ne_nil_of_mem hmem), iv, ⟨hmem, hc, hlive⟩, rfl⟩

end Mirrors

end Prfs
