import Prfs.MemMirrors

namespace Prfs

/-- The reference store `m` stands for the file system `a`. -/
structure Mirrors (m : MemStore) (a : FileSys) : Prop where
  ok : m.Ok
  root : m.root = 1
  next : m.next = a.next
  cur : m.cur = a.cur
  clock : m.clock = a.clock
  config : m.contentConfig = a.config
  snaps : ∀ g, m.snaps.get g = (a.snaps g).map (fun p => ⟨g, p.1, p.2⟩)
  node : ∀ g id, m.recAt g id = (a.viewOf g).node id
  entry : ∀ g d n, liveAtR (m.ivs d n) g = (a.viewOf g).entry d n

namespace Mirrors

variable {m : MemStore} {a : FileSys}

theorem live_node (h : Mirrors m a) (id : UInt64) : m.recAt m.cur id = a.live.node id := by
  rw [h.node, h.cur, FileSys.Inv.viewOf_cur]

theorem live_entry (h : Mirrors m a) (d : UInt64) (n : Bytes) : liveAtR (m.ivs d n) m.cur = a.live.entry d n := by
  rw [h.entry, h.cur, FileSys.Inv.viewOf_cur]

theorem linkLiveAt_eq (h : Mirrors m a) (d : UInt64) (n : Bytes) (g : SnapId) :
    m.linkLiveAt d n g = (a.viewOf (m.resolve g)).entry d n := h.entry _ d n

theorem linkLiveAt_latest (h : Mirrors m a) (d : UInt64) (n : Bytes) :
    m.linkLiveAt d n LATEST = a.live.entry d n := by
  rw [← h.live_entry, MemStore.linkLiveAt, MemStore.resolve, if_pos rfl]

theorem eff_isDir (h : Mirrors m a) (id : UInt64) :
    (m.eff id LATEST).any (fun v => v.a.type = .DIR) = true ↔ a.live.IsDir id := by
  have hn : (m.eff id LATEST).map NodeVer.toRec = a.live.node id := by
    rw [← h.live_node, MemStore.eff, MemStore.resolve, if_pos rfl]
    rfl
  unfold View.IsDir
  rw [← hn]
  cases m.eff id LATEST with
  | none => simp
  | some v => simp [NodeVer.toRec]

theorem mem_dirChildren (h : Mirrors m a) {n c : UInt64} : c ∈ m.dirChildren n ↔ a.live.Edge n c := by
  simp only [MemStore.dirChildren, List.mem_filter, List.mem_filterMap, h.linkLiveAt_latest, h.eff_isDir, View.Edge]
  constructor
  · rintro ⟨⟨name, -, he⟩, hd⟩
    exact ⟨hd, name, he⟩
  · rintro ⟨hd, name, he⟩
    refine ⟨⟨name, h.ok.named n name fun hnil => ?_, he⟩, hd⟩
    rw [← h.live_entry, hnil] at he
    cases he

end Mirrors

namespace MemStore

variable {m : MemStore}

/-- Names of directories the search has not expanded. -/
def unseenNames (es : List (UInt64 × OrdMap Bytes Unit)) (seen : List UInt64) : Nat :=
  ((es.filter (fun e => !seen.contains e.1)).map (fun e => e.2.entries.length)).sum

theorem unseenNames_cons_le (es : List (UInt64 × OrdMap Bytes Unit)) (n : UInt64) (seen : List UInt64) :
    unseenNames es (n :: seen) ≤ unseenNames es seen := by
  unfold unseenNames
  induction es with
  | nil => simp
  | cons e es ih =>
    by_cases hs : e.1 ∈ seen
    · simpa [hs] using ih
    · by_cases hn : e.1 = n
      · subst hn
        simp [hs] at ih ⊢
        omega
      · simp [hs, hn] at ih ⊢
        omega

theorem unseenNames_expand (es : List (UInt64 × OrdMap Bytes Unit)) {n : UInt64} {seen : List UInt64} (hn : n ∉ seen) :
    (((es.find? (fun e => e.1 = n)).map (fun e => e.2.entries.length)).getD 0) + unseenNames es (n :: seen) ≤
      unseenNames es seen := by
  induction es with
  | nil => simp [unseenNames]
  | cons e es ih =>
    by_cases he : e.1 = n
    · have := unseenNames_cons_le es n seen
      simp [unseenNames, he, hn] at this ⊢
      omega
    · by_cases hs : e.1 ∈ seen
      · simpa [unseenNames, he, hs] using ih
      · simp [unseenNames, he, hs] at ih ⊢
        omega

theorem dirChildren_expand (n : UInt64) (seen : List UInt64) (hn : n ∉ seen) :
    (m.dirChildren n).length + unseenNames m.names.entries (n :: seen) ≤ unseenNames m.names.entries seen := by
  refine le_trans (Nat.add_le_add_right ?_ _) (unseenNames_expand m.names.entries hn)
  refine le_trans (List.length_filter_le _ _) (le_trans (List.length_filterMap_le _ _) ?_)
  unfold namesOf OrdMap.get
  cases m.names.entries.find? (fun e => decide (e.1 = n)) with
  | none => simp [OrdMap.empty]
  | some e => simp

/-- The search runs dry or finds its goal within its fuel on every table. -/
theorem reachable_terminates (m : MemStore) (src dst : UInt64) :
    ∃ b, search m.dirChildren dst ((m.names.entries.map (fun e => e.2.entries.length)).sum + 2) [src] [] = some b := by
  refine search_terminates (unseenNames m.names.entries) (fun n seen hn => dirChildren_expand n seen hn) ?_
  simp only [unseenNames, List.contains_nil, Bool.not_false, List.filter_true, List.length_singleton]
  omega

end MemStore

theorem Mirrors.reachable_iff {m : MemStore} {a : FileSys} (h : Mirrors m a) (src dst : UInt64) :
    m.reachable src dst = true ↔ Relation.ReflTransGen a.live.Edge src dst := by
  have hedge : (fun x y => y ∈ m.dirChildren x) = a.live.Edge := by
    funext x y
    exact propext h.mem_dirChildren
  obtain ⟨b, hb⟩ := m.reachable_terminates src dst
  rw [MemStore.reachable, hb, ← hedge]
  cases b with
  | true =>
    obtain ⟨n, hn, hp⟩ := search_sound hb
    obtain rfl := List.mem_singleton.mp hn
    simpa using hp
  | false => simpa using search_complete hb

end Prfs
