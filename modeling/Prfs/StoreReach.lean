import Prfs.StoreBase

namespace Prfs

variable {cur : SnapId} {kv : Data}

theorem viewAt_isDir {g : SnapId} {id : UInt64} :
    (viewAt kv g).IsDir id ↔ ∃ r, loadNode kv id g = some r ∧ r.type = FType.DIR.code := by
  simp only [View.IsDir, viewAt, Option.map_eq_some_iff]
  constructor
  · rintro ⟨_, ⟨r, hr, rfl⟩, ht⟩
    exact ⟨r, hr, ht⟩
  · rintro ⟨r, hr, ht⟩
    exact ⟨r.bare, ⟨r, hr, rfl⟩, ht⟩

theorem viewAt_entry {g : SnapId} {d c : UInt64} {n : Bytes} :
    (viewAt kv g).entry d n = some c ↔ ∃ r, loadNode kv d g = some r ∧ dnAt kv d r.dnLinkVer n = some c := by
  simp only [viewAt, Option.bind_eq_some_iff]

theorem viewAt_node_none {g : SnapId} {id : UInt64} :
    (viewAt kv g).node id = none ↔ loadNode kv id g = none := by
  simp [viewAt]

theorem mem_dirChildren {n c : UInt64} :
    c ∈ dirChildren kv cur n ↔ (viewAt kv cur).IsDir n ∧ (viewAt kv cur).Edge n c := by
  unfold View.Edge
  rw [viewAt_isDir, viewAt_isDir]
  simp only [viewAt_entry]
  unfold dirChildren
  cases hn : loadNode kv n cur with
  | none => simp
  | some r =>
    by_cases ht : r.type = FType.DIR.code
    · have hlink : (∃ e ∈ scanDownlinks kv n r.dnLinkVer, e.2 = c) ↔ ∃ name, dnAt kv n r.dnLinkVer name = some c := by
        constructor
        · rintro ⟨⟨name, c'⟩, hm, rfl⟩
          exact ⟨name, mem_scanDownlinks.mp hm⟩
        · rintro ⟨name, hd⟩
          exact ⟨(name, c), mem_scanDownlinks.mpr hd, rfl⟩
      simp only [ht, ne_eq, not_true_eq_false, if_false, List.mem_filter, List.mem_map, Option.some.injEq,
        exists_eq_left', true_and, hlink]
      rw [and_comm]
      refine and_congr_left fun _ => ?_
      cases loadNode kv c cur <;> simp
    · simp [ht]

/-- Down-link keys of directories the search has not expanded. -/
def unseenLinks (kv : Data) (seen : List UInt64) : Nat :=
  (kv.downLinks.entries.filter (fun e => !seen.contains (rdbe e.1))).length

theorem dirChildren_length_le (n : UInt64) :
    (dirChildren kv cur n).length ≤ (kv.downLinks.entries.filter (fun e => rdbe e.1 = n)).length := by
  have hscan : ∀ ver, (scanDownlinks kv n ver).length ≤
      (kv.downLinks.entries.filter (fun e => rdbe e.1 = n)).length := by
    intro ver
    rw [scanDownlinks, List.length_map, scanPrefix_eq _ (by simp)]
    refine (List.monotone_filter_right _ fun e he => ?_).length_le
    obtain ⟨x, hx⟩ := List.isPrefixOf_iff_prefix.mp he
    simpa [← hx] using (key2_fields n ver x).1
  unfold dirChildren
  cases loadNode kv n cur with
  | none => simp
  | some r =>
    dsimp only
    split_ifs
    · simp
    · exact le_trans (List.length_filter_le _ _) (by simpa using hscan r.dnLinkVer)

theorem unseenLinks_expand (n : UInt64) (seen : List UInt64) (hn : n ∉ seen) :
    (dirChildren kv cur n).length + unseenLinks kv (n :: seen) ≤ unseenLinks kv seen := by
  refine le_trans (Nat.add_le_add_right (dirChildren_length_le n) _) ?_
  unfold unseenLinks
  induction kv.downLinks.entries with
  | nil => simp
  | cons e es ih =>
    by_cases he : rdbe e.1 = n
    · simp [he, hn] at ih ⊢
      omega
    · by_cases hs : rdbe e.1 ∈ seen
      · simpa [he, hs] using ih
      · simp [he, hs] at ih ⊢
        omega

/-- The search runs dry or finds its goal within its fuel on every table. -/
theorem reachLoop_terminates (kv : Data) (cur : SnapId) (src dst : UInt64) :
    ∃ b, reachLoop kv cur dst (kv.downLinks.entries.length + 2) [src] [] = some b := by
  refine search_terminates (unseenLinks kv) (fun n seen hn => unseenLinks_expand n seen hn) ?_
  have : unseenLinks kv [] = kv.downLinks.entries.length := by simp [unseenLinks]
  simp only [List.length_singleton, this]
  omega

theorem reachable_iff (hc : (viewAt kv cur).Consistent) (src dst : UInt64) :
    reachable kv cur src dst = true ↔ Relation.ReflTransGen (viewAt kv cur).Edge src dst := by
  have hedge : (fun a b => b ∈ dirChildren kv cur a) = (viewAt kv cur).Edge := by
    funext a b
    rw [mem_dirChildren]
    refine propext ⟨And.right, fun h => ⟨?_, h⟩⟩
    obtain ⟨-, n, hn⟩ := h
    exact hc.dir hn
  obtain ⟨b, hb⟩ := reachLoop_terminates kv cur src dst
  rw [reachable, hb, ← hedge]
  cases b with
  | true =>
    obtain ⟨n, hn, hp⟩ := search_sound hb
    obtain rfl := List.mem_singleton.mp hn
    simpa using hp
  | false => simpa using search_complete hb

end Prfs
