import Prfs.StoreEffNodes
import Prfs.StoreReach
import Prfs.ViewReads

namespace Prfs

variable {kv : Data}

theorem bare_getD (x : Option NodeRec) : (x.map NodeRec.bare).getD {} = (x.getD {}).bare := by
  cases x <;> rfl

theorem scanDownlinks_lists {g : SnapId} {dir : UInt64} {r : NodeRec} (hr : loadNode kv dir g = some r) :
    (viewAt kv g).Lists dir (scanDownlinks kv dir r.dnLinkVer) := by
  refine ⟨scanDownlinks_sorted .., fun n c => ?_⟩
  rw [mem_scanDownlinks, viewAt_entry]
  simp [hr]

theorem lists_nil {g : SnapId} {dir : UInt64} (hr : loadNode kv dir g = none) :
    (viewAt kv g).Lists dir [] := by
  refine ⟨List.Pairwise.nil, fun n c => ?_⟩
  rw [viewAt_entry]
  simp [hr]

theorem eachEffNode_nodes (hw : kv.Wf) (g : SnapId) :
    (viewAt kv g).Nodes ((eachEffNode kv g).map (fun e => (e.1, e.2.bare))) := by
  refine ⟨List.pairwise_map.mpr (eachEffNode_sorted hw g), fun id r => ?_⟩
  simp only [List.mem_map, viewAt, Option.map_eq_some_iff, Prod.mk.injEq]
  constructor
  · rintro ⟨⟨i, q⟩, hm, rfl, rfl⟩
    exact ⟨q, (mem_eachEffNode hw).mp hm, rfl⟩
  · rintro ⟨q, hq, rfl⟩
    exact ⟨(id, q), (mem_eachEffNode hw).mpr hq, rfl, rfl⟩

/-- Pairs of a directory and a name, directory by directory. -/
def boundPairs (kv : Data) (g : SnapId) : List (UInt64 × Bytes) :=
  ((eachEffNode kv g).filter (fun e => e.2.type = FType.DIR.code)).flatMap
    (fun e => (scanDownlinks kv e.1 e.2.dnLinkVer).map (fun x => (e.1, x.1)))

theorem boundPairs_bound (hw : kv.Wf) {g : SnapId} (hc : (viewAt kv g).Consistent) :
    (viewAt kv g).Bound (boundPairs kv g) := by
  constructor
  · refine List.nodup_flatMap.mpr ⟨fun e _ => ?_, ?_⟩
    · refine List.Nodup.map_on ?_ (OrdMap.sorted_nodup (scanDownlinks_sorted kv e.1 e.2.dnLinkVer))
      rintro ⟨n, c⟩ h1 ⟨n', c'⟩ h2 he
      obtain rfl : n = n' := (Prod.mk.inj he).2
      rw [mem_scanDownlinks] at h1 h2
      obtain rfl := Option.some.inj (h1.symm.trans h2)
      rfl
    · refine ((eachEffNode_sorted hw g).filter _).imp fun {a b} hab => ?_
      intro x hx hy
      obtain ⟨p, -, rfl⟩ := List.mem_map.mp hx
      obtain ⟨q, -, hq⟩ := List.mem_map.mp hy
      exact absurd (Prod.mk.inj hq).1 (ne_of_gt hab)
  · intro d n
    simp only [boundPairs, List.mem_flatMap, List.mem_filter, List.mem_map, Prod.mk.injEq]
    constructor
    · rintro ⟨⟨i, r⟩, ⟨hm, -⟩, ⟨n', c⟩, hs, rfl, rfl⟩
      exact ⟨c, viewAt_entry.mpr ⟨r, (mem_eachEffNode hw).mp hm, mem_scanDownlinks.mp hs⟩⟩
    · rintro ⟨c, he⟩
      obtain ⟨r, hr, hd⟩ := viewAt_entry.mp he
      obtain ⟨q, hq, ht⟩ := viewAt_isDir.mp (hc.dir he)
      obtain rfl := Option.some.inj (hr.symm.trans hq)
      exact ⟨(d, r), ⟨(mem_eachEffNode hw).mpr hr, by simpa using ht⟩, (n, c), mem_scanDownlinks.mpr hd, rfl, rfl⟩

theorem foldl_links {α : Type} (l : List α) (st : Stats) :
    l.foldl (fun st _ => { st with links := st.links + 1 }) st =
      { st with links := st.links + UInt64.ofNat l.length } := by
  induction l generalizing st with
  | nil => simp
  | cons x l ih =>
    rw [List.foldl_cons, ih]
    simp only [List.length_cons, Stats.mk.injEq, true_and, and_true]
    rw [UInt64.ofNat_add]
    grind

theorem foldl_stats_links (g : SnapId) (st : Stats) :
    (eachEffNode kv g).foldl (fun st e =>
      if e.2.type = FType.DIR.code then
        (scanDownlinks kv e.1 e.2.dnLinkVer).foldl (fun st _ => { st with links := st.links + 1 }) st
      else st) st = { st with links := st.links + UInt64.ofNat (boundPairs kv g).length } := by
  unfold boundPairs
  induction eachEffNode kv g generalizing st with
  | nil => simp
  | cons e es ih =>
    rw [List.foldl_cons, ih]
    by_cases ht : e.2.type = FType.DIR.code
    · simp only [ht, if_true, foldl_links, decide_true, List.filter_cons_of_pos, List.flatMap_cons,
        List.length_append, List.length_map, UInt64.ofNat_add, UInt64.add_assoc]
    · simp [ht]

theorem countNode_links (l : List NodeRec) (st : Stats) :
    (l.foldl PrfsStore.countNode st).links = st.links := by
  induction l generalizing st with
  | nil => rfl
  | cons r l ih =>
    rw [List.foldl_cons, ih]
    unfold PrfsStore.countNode
    split_ifs <;> rfl

/-- A scan resumed after a name meets the entries with greater names. -/
theorem scanAfter_eq (m : OrdMap Bytes Bytes) {pfx : Bytes} (hl : pfx.length = 16) (after : Bytes) :
    ((m.seek (pfx ++ after)).after.takeWhile (fun e => !(e.1.length < 16 || e.1.take 16 != pfx))).filter
      (fun e => !(e.1.drop 16 ≤ after)) =
      (scanPrefix m pfx).filter (fun e => after < e.1.drop 16) := by
  have hp : (fun e : Bytes × Bytes => !(decide (e.1.length < 16) || e.1.take 16 != pfx)) =
      fun e => pfx.isPrefixOf e.1 := funext fun e => prefix_test hl e.1
  have htake : ((m.seek (pfx ++ after)).after.takeWhile (fun e => pfx.isPrefixOf e.1)) =
      (m.seek (pfx ++ after)).after.filter (fun e => pfx.isPrefixOf e.1) := by
    refine takeWhile_eq_filter ?_
    rw [m.seek_after]
    refine List.Pairwise.imp_of_mem ?_ (m.sorted.filter _)
    intro a b ha _ hab hb
    have hka : pfx ++ after ≤ a.1 := by simpa using (List.mem_filter.mp ha).2
    rw [List.isPrefixOf_iff_prefix] at hb ⊢
    exact prefix_of_between (le_trans (prefix_le (List.prefix_append ..)) hka) (le_of_lt hab) hb
  rw [hp, htake, m.seek_after, scanPrefix_eq m hl, List.filter_filter, List.filter_filter, List.filter_filter]
  refine List.filter_congr fun e _ => ?_
  rw [Bool.eq_iff_iff]
  simp only [Bool.and_eq_true, Bool.not_eq_true', decide_eq_true_eq, decide_eq_false_iff_not, not_le,
    List.isPrefixOf_iff_prefix]
  constructor
  · rintro ⟨⟨h1, h2⟩, h3⟩
    exact ⟨h1, h2⟩
  · rintro ⟨h1, t, ht⟩
    refine ⟨⟨h1, t, ht⟩, ?_⟩
    rw [← ht, List.drop_left' hl] at h1
    rw [← ht, append_right_le_iff]
    exact le_of_lt h1

theorem foldl_distinct {l acc : List UInt64} (hl : l.Pairwise (· ≤ ·)) (hacc : acc.Pairwise (· < ·))
    (hle : ∀ a ∈ acc, ∀ b ∈ l, a ≤ b) :
    (l.foldl (fun out c => if out.contains c then out else out ++ [c]) acc).Pairwise (· < ·) ∧
      ∀ d, d ∈ l.foldl (fun out c => if out.contains c then out else out ++ [c]) acc ↔ d ∈ acc ∨ d ∈ l := by
  induction l generalizing acc with
  | nil => simpa using hacc
  | cons c l ih =>
    obtain ⟨hc, hl⟩ := List.pairwise_cons.mp hl
    rw [List.foldl_cons]
    split_ifs with hm
    · obtain ⟨h1, h2⟩ := ih hl hacc (fun a ha b hb => hle a ha b (List.mem_cons_of_mem _ hb))
      refine ⟨h1, fun d => (h2 d).trans ?_⟩
      grind
    · have hacc' : (acc ++ [c]).Pairwise (· < ·) := by
        refine List.pairwise_append.mpr ⟨hacc, List.pairwise_singleton .., fun a ha b hb => ?_⟩
        obtain rfl := List.mem_singleton.mp hb
        exact lt_of_le_of_ne (hle a ha b (by simp)) (fun he => hm (List.contains_iff_mem.mpr (he ▸ ha)))
      have hle' : ∀ a ∈ acc ++ [c], ∀ b ∈ l, a ≤ b := by
        intro a ha b hb
        rcases List.mem_append.mp ha with ha | ha
        · exact hle a ha b (List.mem_cons_of_mem _ hb)
        · exact List.mem_singleton.mp ha ▸ hc b hb
      obtain ⟨h1, h2⟩ := ih hl hacc' hle'
      refine ⟨h1, fun d => (h2 d).trans ?_⟩
      grind

/-- The distinct containers among a node's up-links are its holders. -/
theorem scanUplinks_holders (hw : kv.Wf) {g : SnapId} (hc : (viewAt kv g).Consistent) {node : UInt64} {r : NodeRec}
    (hr : loadNode kv node g = some r) :
    (viewAt kv g).Holders node (((scanUplinks kv node r.upLinkVer).map rdbe).foldl
      (fun out c => if out.contains c then out else out ++ [c]) []) := by
  have hmem : ∀ d n, (viewAt kv g).entry d n = some node ↔ be d ++ n ∈ scanUplinks kv node r.upLinkVer := by
    intro d n
    rw [hc.mirror, mem_scanUplinks]
    simp [viewAt, hr, upAt]
  have hsuf : ∀ x ∈ scanUplinks kv node r.upLinkVer, ∃ d n, x = be d ++ n :=
    fun x hx => hw.suffix (mem_scanUplinks.mp hx)
  have hord : ((scanUplinks kv node r.upLinkVer).map rdbe).Pairwise (· ≤ ·) := by
    refine List.pairwise_map.mpr (List.Pairwise.imp_of_mem ?_ (scanUplinks_sorted kv node r.upLinkVer))
    intro x y hx hy hxy
    obtain ⟨d, n, rfl⟩ := hsuf x hx
    obtain ⟨d', n', rfl⟩ := hsuf y hy
    rw [append_lt_append_iff (by simp), be_lt_iff, be_inj] at hxy
    rw [rdbe_be_append, rdbe_be_append]
    rcases hxy with hlt | ⟨rfl, -⟩
    · exact le_of_lt hlt
    · exact le_rfl
  obtain ⟨h1, h2⟩ := foldl_distinct hord List.Pairwise.nil (by simp)
  refine ⟨h1, fun d => (h2 d).trans ?_⟩
  simp only [List.not_mem_nil, false_or, List.mem_map, hmem]
  constructor
  · rintro ⟨x, hx, rfl⟩
    obtain ⟨d, n, rfl⟩ := hsuf x hx
    exact ⟨n, by rwa [rdbe_be_append]⟩
  · rintro ⟨n, hn⟩
    exact ⟨_, hn, rdbe_be_append d n⟩

namespace PrfsStore

variable {s : PrfsStore}

theorem attrs_eq {n : Node} (hn : isSnapDir n.id = false) :
    s.attrs n = Attrs.of n.id (((viewAt s.kv (s.rr n.snap)).node n.id).getD {}) := by
  simp only [attrs, readNode, hn, Bool.false_eq_true, if_false, viewAt, bare_getD]
  rfl

theorem lookup_eq {d : Node} (hd : isSnapDir d.id = false) {n : Bytes}
    (hn : ¬ (n = SNAPSHOT_NAME ∧ d.snap = LATEST)) :
    s.lookup d n = ((viewAt s.kv (s.rr d.snap)).entry d.id n).map (fun c => ⟨c, d.snap⟩) := by
  simp only [lookup, hd, Bool.false_eq_true, if_false, ← and_assoc, hn, false_and, viewAt, dnAt]
  cases loadNode s.kv d.id (s.rr d.snap) with
  | none => rfl
  | some r =>
    dsimp only [Option.bind_some]
    cases s.kv.downLinks.get (be d.id ++ be r.dnLinkVer ++ n) <;> rfl

open Classical in
/-- The name of the snapshot directory too, as a live directory view resolves it. -/
theorem lookup_view {d : Node} (hd : isSnapDir d.id = false) (n : Bytes) :
    s.lookup d n =
      if n = SNAPSHOT_NAME ∧ d.snap = LATEST ∧ (viewAt s.kv (s.rr d.snap)).IsDir d.id then
        some ⟨d.id ||| SNAP_BIT, LATEST⟩
      else ((viewAt s.kv (s.rr d.snap)).entry d.id n).map (fun c => ⟨c, d.snap⟩) := by
  by_cases hn : n = SNAPSHOT_NAME ∧ d.snap = LATEST
  · have hent : (viewAt s.kv (s.rr d.snap)).entry d.id n = (loadNode s.kv d.id (s.rr d.snap)).bind
        (fun r => (s.kv.downLinks.get (be d.id ++ be r.dnLinkVer ++ n)).map rdbe) := rfl
    rw [hent, viewAt_isDir]
    simp only [lookup, hd, Bool.false_eq_true, if_false, hn, true_and]
    cases loadNode s.kv d.id (s.rr LATEST) with
    | none => simp
    | some r =>
      simp only [Option.some.injEq, exists_eq_left', Option.bind_some]
      split_ifs
      · rfl
      · cases s.kv.downLinks.get (be d.id ++ be r.dnLinkVer ++ SNAPSHOT_NAME) <;> rfl
  · rw [lookup_eq hd hn, if_neg fun hh => hn ⟨hh.1, hh.2.1⟩]

theorem readdir_eq {d : Node} (hd : isSnapDir d.id = false) :
    ∃ l, (viewAt s.kv (s.rr d.snap)).Lists d.id l ∧
      s.readdir d = l.map (fun e => (e.1, ⟨e.2, d.snap⟩)) := by
  simp only [readdir, hd, Bool.false_eq_true, if_false]
  cases hr : loadNode s.kv d.id (s.rr d.snap) with
  | none => exact ⟨[], lists_nil hr, rfl⟩
  | some r => exact ⟨_, scanDownlinks_lists hr, rfl⟩

theorem readdirPage_eq {d : Node} (hd : isSnapDir d.id = false) (after : Bytes) (max : Nat) :
    ∃ l, (viewAt s.kv (s.rr d.snap)).Lists d.id l ∧ s.readdirPage d after max =
      pageLoop max ((l.filter (fun e => after < e.1)).map (fun e => (e.1, ⟨e.2, d.snap⟩))) {} := by
  simp only [readdirPage, hd, Bool.false_eq_true, if_false]
  cases hr : loadNode s.kv d.id (s.rr d.snap) with
  | none => exact ⟨[], lists_nil hr, rfl⟩
  | some r =>
    refine ⟨_, scanDownlinks_lists hr, ?_⟩
    dsimp only
    rw [scanAfter_eq _ (by simp), scanDownlinks, List.filter_map, List.map_map]
    rfl

theorem parents_eq (hw : s.kv.Wf) {n : Node} (hc : (viewAt s.kv (s.rr n.snap)).Consistent) :
    ∃ l, (viewAt s.kv (s.rr n.snap)).Holders n.id l ∧ s.parents n = l.map (fun c => ⟨c, n.snap⟩) := by
  unfold parents
  cases hr : loadNode s.kv n.id (s.rr n.snap) with
  | none =>
    refine ⟨[], ⟨List.Pairwise.nil, fun d => ?_⟩, rfl⟩
    simp only [List.not_mem_nil, false_iff, not_exists]
    intro m he
    obtain ⟨q, hq⟩ := hc.child he
    simp [viewAt, hr] at hq
  | some nr => exact ⟨_, scanUplinks_holders hw hc hr, rfl⟩

theorem stats_eq (hw : s.kv.Wf) {g : SnapId} (hc : (viewAt s.kv (s.rr g)).Consistent) :
    ∃ l e, (viewAt s.kv (s.rr g)).Nodes l ∧ (viewAt s.kv (s.rr g)).Bound e ∧
      s.stats g = Stats.tally (l.map Prod.snd) e.length := by
  refine ⟨_, _, eachEffNode_nodes hw _, boundPairs_bound hw hc, ?_⟩
  unfold stats Stats.tally
  dsimp only
  rw [foldl_stats_links]
  have hbare : ∀ st, (eachEffNode s.kv (s.rr g)).foldl (fun st e => countNode st e.2) st =
      (((eachEffNode s.kv (s.rr g)).map (fun e => (e.1, e.2.bare))).map Prod.snd).foldl countNode st := by
    intro st
    rw [List.map_map, List.foldl_map]
    rfl
  rw [hbare, countNode_links]
  simp

end PrfsStore

end Prfs
