import Prfs.MemReads
import Prfs.StoreDiff

namespace Prfs

theorem countVer_eq (st : Stats) (v : NodeVer) : MemStore.countVer st v = PrfsStore.countNode st v.toRec := by
  have ht : v.toRec.type = FType.REG.code ↔ v.a.type = .REG := FType.code_inj
  simp only [MemStore.countVer, PrfsStore.countNode, ht]
  rfl

theorem foldl_live_links {g : SnapId} (l : List LinkIv) (st : Stats) :
    l.foldl (fun st iv => if liveAt iv g then { st with links := st.links + 1 } else st) st =
      { st with links := st.links + UInt64.ofNat (l.filter (fun iv => liveAt iv g)).length } := by
  rw [← foldl_links, List.foldl_filter]

namespace MemStore

variable {m : MemStore}

/-- The live pairs of a directory and a name, in the order of the table. -/
def livePairs (m : MemStore) (g : SnapId) : List (UInt64 × Bytes) :=
  (m.links.entries.filter (fun e => (liveAtR e.2 g).isSome)).map (fun e => ofLex e.1)

theorem Ok.foldl_stats_links (h : m.Ok) (g : SnapId) (st : Stats) :
    m.links.entries.foldl (fun st e =>
      e.2.foldl (fun st iv => if liveAt iv g then { st with links := st.links + 1 } else st) st) st =
      { st with links := st.links + UInt64.ofNat (m.livePairs g).length } := by
  have hone : ∀ e ∈ m.links.entries, (e.2.filter (fun iv => liveAt iv g)).length =
      if (liveAtR e.2 g).isSome then 1 else 0 := by
    intro e he
    rw [← Mirrors.ivs_of_mem he, (h.ivs _ _).filter_live, liveAtR]
    cases liveIv (m.ivs (ofLex e.1).1 (ofLex e.1).2) g <;> rfl
  unfold livePairs
  simp only [foldl_live_links]
  generalize m.links.entries = es at hone ⊢
  induction es generalizing st with
  | nil => simp
  | cons e es ih =>
    rw [List.foldl_cons, ih _ fun x hx => hone x (List.mem_cons_of_mem _ hx), hone e (by simp)]
    cases hl : (liveAtR e.2 g).isSome
    · simp [hl]
    · simp only [if_true, hl, List.filter_cons_of_pos, List.map_cons, List.length_cons, UInt64.ofNat_add]
      simp only [Stats.mk.injEq, true_and, and_true]
      grind

end MemStore

namespace Mirrors

variable {m : MemStore} {a : FileSys}

theorem livePairs_bound (h : Mirrors m a) (g : SnapId) : (a.viewOf g).Bound (m.livePairs g) := by
  constructor
  · refine List.pairwise_map.mpr ((m.links.sorted.filter _).imp fun {x y} hxy he => ?_)
    exact absurd (ofLex.injective he) (ne_of_lt hxy)
  · intro d nm
    simp only [MemStore.livePairs, List.mem_map, List.mem_filter, Prod.exists, Option.isSome_iff_exists, ← h.entry]
    constructor
    · rintro ⟨k, l, ⟨hm, c, hc⟩, hk⟩
      refine ⟨c, ?_⟩
      rw [← hc, ← ivs_of_mem hm, hk]
    · rintro ⟨c, hc⟩
      refine ⟨toLex (d, nm), m.ivs d nm, ⟨mem_of_ivs fun hnil => ?_, c, hc⟩, rfl⟩
      rw [hnil] at hc
      cases hc

theorem nodes_nodes (h : Mirrors m a) (g : SnapId) :
    (a.viewOf g).Nodes (m.nodes.entries.filterMap (fun e => (m.effR e.1 g).map (fun v => (e.1, v.toRec)))) := by
  constructor
  · refine List.pairwise_filterMap.mpr (m.nodes.sorted.imp fun {x y} hxy p hp q hq => ?_)
    obtain ⟨v, -, rfl⟩ := Option.map_eq_some_iff.mp hp
    obtain ⟨w, -, rfl⟩ := Option.map_eq_some_iff.mp hq
    exact hxy
  · intro id r
    simp only [List.mem_filterMap, Option.map_eq_some_iff, Prod.mk.injEq, Prod.exists, ← h.node, MemStore.recAt]
    constructor
    · rintro ⟨_, _, -, v, hv, rfl, rfl⟩
      exact ⟨v, hv, rfl⟩
    · rintro ⟨v, hv, rfl⟩
      cases hg : m.nodes.get id with
      | none => simp [MemStore.effR, MemStore.vers, hg, effAt, effScan] at hv
      | some vs => exact ⟨id, vs, OrdMap.mem_iff_get.mpr hg, v, hv, rfl, rfl⟩

theorem stats_eq (h : Mirrors m a) (g : SnapId) :
    ∃ l e, (a.viewOf (m.resolve g)).Nodes l ∧ (a.viewOf (m.resolve g)).Bound e ∧
      m.stats g = Stats.tally (l.map Prod.snd) e.length := by
  refine ⟨_, _, h.nodes_nodes _, h.livePairs_bound _, ?_⟩
  unfold MemStore.stats Stats.tally
  dsimp only
  rw [h.ok.foldl_stats_links]
  have hcount : ∀ st, m.nodes.entries.foldl (fun st e => m.countAt (m.resolve g) st e.1) st =
      ((m.nodes.entries.filterMap (fun e => (m.effR e.1 (m.resolve g)).map (fun v => (e.1, v.toRec)))).map
        Prod.snd).foldl PrfsStore.countNode st := by
    intro st
    rw [List.foldl_map, List.foldl_filterMap]
    congr 1
    funext st e
    unfold MemStore.countAt
    cases m.effR e.1 (m.resolve g) with
    | none => rfl
    | some v => exact countVer_eq st v
  rw [hcount, countNode_links]
  simp

theorem mem_candidates {ra rb : SnapId} {id : UInt64} :
    id ∈ (m.candidates ra rb).entries.map Prod.fst ↔ ∃ v, ra < v ∧ v ≤ rb ∧ m.Touched v id := by
  have hkey : id ∈ (m.candidates ra rb).entries.map Prod.fst ↔ ((m.candidates ra rb).get id).isSome := by
    simp [Option.isSome_iff_exists, ← OrdMap.mem_iff_get]
  rw [hkey, MemStore.candidates, OrdMap.get_foldl_put_isSome]
  simp only [OrdMap.get_empty, Option.isSome_none, Bool.false_eq_true, or_false, List.mem_flatMap, List.mem_filter,
    Bool.and_eq_true, decide_eq_true_eq, Prod.exists, MemStore.Touched]
  constructor
  · rintro ⟨i, u, ⟨v, s, ⟨hm, hlo, hhi⟩, hi⟩, rfl⟩
    refine ⟨v, hlo, hhi, ?_⟩
    rw [OrdMap.mem_iff_get.mp hm, Option.getD_some, OrdMap.mem_iff_get.mp hi]
    rfl
  · rintro ⟨v, hlo, hhi, ht⟩
    cases hg : m.changes.get v with
    | none => simp [hg] at ht
    | some s =>
      rw [hg, Option.getD_some, Option.isSome_iff_exists] at ht
      obtain ⟨u, hu⟩ := ht
      exact ⟨id, u, ⟨v, s, ⟨OrdMap.mem_iff_get.mpr hg, hlo, hhi⟩, OrdMap.mem_iff_get.mpr hu⟩, rfl⟩

/-- A node that is no candidate has one effective version over the whole interval. -/
theorem recAt_of_not_candidate (h : Mirrors m a) {ra rb : SnapId} (hab : ra ≤ rb) {id : UInt64}
    (hid : id ∉ (m.candidates ra rb).entries.map Prod.fst) : m.recAt ra id = m.recAt rb id := by
  have hv := h.ok.vers id
  rw [MemStore.recAt, MemStore.recAt, MemStore.effR, MemStore.effR, hv.effAt_eq, hv.effAt_eq]
  congr 2
  refine List.filter_congr fun v hm => ?_
  rw [Bool.eq_iff_iff, decide_eq_true_eq, decide_eq_true_eq]
  refine ⟨fun hle => le_trans hle hab, fun hle => ?_⟩
  by_contra hlt
  exact hid (mem_candidates.mpr ⟨v.snap, not_le.mp hlt, hle, h.ok.touched id v hm⟩)

theorem diffNodes_diffs (h : Mirrors m a) {x y : SnapId} (hxy : m.resolve x ≤ m.resolve y) :
    (a.viewOf (m.resolve x)).Diffs (a.viewOf (m.resolve y)) (m.diffNodes x y) := by
  constructor
  · unfold MemStore.diffNodes
    refine List.pairwise_filterMap.mpr (List.pairwise_map.mpr ?_)
    refine (m.candidates (m.resolve x) (m.resolve y)).sorted.imp fun {p q} hpq d hd e he => ?_
    obtain ⟨c, -, rfl⟩ := Option.map_eq_some_iff.mp hd
    obtain ⟨c', -, rfl⟩ := Option.map_eq_some_iff.mp he
    exact hpq
  · intro id c
    rw [← h.node, ← h.node]
    simp only [MemStore.diffNodes, List.mem_filterMap, Option.map_eq_some_iff, NodeDiff.mk.injEq]
    constructor
    · rintro ⟨i, -, z, hz, rfl, rfl⟩
      exact hz
    · intro hc
      refine ⟨id, ?_, c, hc, rfl, rfl⟩
      by_contra hid
      rw [h.recAt_of_not_candidate hxy hid, nodeChange_self] at hc
      simp at hc

theorem diffNodes_eq_nil {x y : SnapId} (hxy : m.resolve y ≤ m.resolve x) : m.diffNodes x y = [] := by
  have hnil : (m.candidates (m.resolve x) (m.resolve y)).entries.map Prod.fst = [] := by
    refine List.eq_nil_iff_forall_not_mem.mpr fun id hid => ?_
    obtain ⟨v, hv, hvb, -⟩ := mem_candidates.mp hid
    exact absurd (lt_of_lt_of_le hv hvb) (not_lt.mpr hxy)
  simp only [MemStore.diffNodes, hnil, List.filterMap_nil]

theorem snapInfo_eq (h : Mirrors m a) (g : SnapId) :
    m.snapInfo g = ((a.snaps g).map (fun p => ⟨g, p.1, p.2⟩)).getD { id := g } := by
  rw [MemStore.snapInfo, h.snaps]

end Mirrors

end Prfs
