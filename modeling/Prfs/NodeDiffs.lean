import Prfs.StoreRuns
import Prfs.StoreDiff

namespace Prfs

theorem add_ofNat_toNat {start stop : UInt64} {i : Nat} (hi : i < stop.toNat - start.toNat) :
    (start + UInt64.ofNat i).toNat = start.toNat + i := by
  have ht := stop.toNat_lt
  have hlt : i < UInt64.size := by
    simp only [UInt64.size]
    omega
  rw [UInt64.toNat_add, UInt64.toNat_ofNat_of_lt' hlt]
  exact Nat.mod_eq_of_lt (by omega)

theorem mem_snapRange {start stop g : SnapId} : g ∈ snapRange start stop ↔ start ≤ g ∧ g < stop := by
  simp only [snapRange, List.mem_map, List.mem_range, UInt64.le_iff_toNat_le, UInt64.lt_iff_toNat_lt]
  constructor
  · rintro ⟨i, hi, rfl⟩
    rw [add_ofNat_toNat hi]
    omega
  · rintro ⟨hlo, hhi⟩
    have hi : g.toNat - start.toNat < stop.toNat - start.toNat := by omega
    refine ⟨g.toNat - start.toNat, hi, ?_⟩
    rw [← UInt64.toNat_inj, add_ofNat_toNat hi]
    omega

theorem snapRange_sorted (start stop : SnapId) : (snapRange start stop).Pairwise (· < ·) := by
  refine List.pairwise_map.mpr (List.pairwise_lt_range.imp_of_mem fun {i j} hi hj hij => ?_)
  rw [List.mem_range] at hi hj
  rw [UInt64.lt_iff_toNat_lt, add_ofNat_toNat hi, add_ofNat_toNat hj]
  omega

/-- The record of a node that is live: one with a link. -/
def liveRec (x : Option NodeRec) : Option NodeRec := x.filter (fun r => 0 < r.nlink)

/-- The difference of a node's states at two views. -/
def stateChange (x y : Option NodeRec) : Option NodeChange :=
  match liveRec x, liveRec y with
  | none, none => none
  | none, some _ => some .CREATED
  | some _, none => some .REMOVED
  | some r, some q =>
    if r.blob ≠ q.blob ∨ r.spec ≠ q.spec ∨ r.size ≠ q.size then some .MODIFIED_CONTENT
    else if r.mode ≠ q.mode ∨ r.uid ≠ q.uid ∨ r.gid ≠ q.gid ∨ r.mtime ≠ q.mtime then some .MODIFIED_ATTRS
    else none

theorem nodeChange_eq_stateChange (x y : Option NodeRec) : nodeChange x y = stateChange x y := by
  have hany : ∀ z : Option NodeRec, z.any (fun r => decide (0 < r.nlink)) = (liveRec z).isSome := by
    intro z
    cases z with
    | none => rfl
    | some r => by_cases hr : 0 < r.nlink <;> simp [liveRec, hr]
  have hget : ∀ {z : Option NodeRec} {r : NodeRec}, liveRec z = some r → z.getD {} = r := by
    intro z r hz
    obtain ⟨rfl, -⟩ := Option.filter_eq_some_iff.mp hz
    rfl
  simp only [nodeChange, stateChange, hany]
  cases hx : liveRec x with
  | none => cases hy : liveRec y <;> simp
  | some r =>
    cases hy : liveRec y with
    | none => simp
    | some q => simp [hget hx, hget hy]

namespace PrfsStore

variable {s : PrfsStore}

/-- Every node id that has been allocated, in ascending order. -/
def allocated (s : PrfsStore) : List UInt64 := snapRange 1 s.next

theorem Sound.mem_allocated (h : s.Sound) {g : SnapId} {id : UInt64} {r : NodeRec}
    (hr : loadNode s.kv id g = some r) : id ∈ s.allocated := by
  obtain ⟨a, ha, hi⟩ := h
  have hv : (a.viewOf g).node id = some r.bare := by
    rw [← ha.viewAt_eq]
    simp [viewAt, hr]
  rw [allocated, mem_snapRange, ha.next]
  exact (hi.ids g id _ hv).1

/-- Over the candidate index `diffNodes` finds what a comparison of all nodes finds. -/
theorem diffNodes_full (hs : Run empty s) {a b : SnapId} (hab : a ≤ b) (hb : b ≤ s.cur) :
    s.diffNodes a b = s.allocated.filterMap (fun id =>
      (stateChange (loadNode s.kv id a) (loadNode s.kv id b)).map (fun c => ⟨id, c⟩)) := by
  have hss := hs.sound
  have ha := hss.rr_of_le (le_trans hab hb)
  have hdiff := diffNodes_diffs hss.base hss.cur_lt (a := a) (b := b) (by rwa [ha, hss.rr_of_le hb])
  rw [ha, hss.rr_of_le hb] at hdiff
  refine hdiff.unique ⟨?_, fun id c => ?_⟩
  · refine List.pairwise_filterMap.mpr ((snapRange_sorted 1 s.next).imp fun {i j} hij d hd e he => ?_)
    obtain ⟨c, -, rfl⟩ := Option.map_eq_some_iff.mp hd
    obtain ⟨c', -, rfl⟩ := Option.map_eq_some_iff.mp he
    exact hij
  · simp only [viewAt, nodeChange_bare, ← nodeChange_eq_stateChange, List.mem_filterMap, Option.map_eq_some_iff,
      NodeDiff.mk.injEq]
    constructor
    · rintro ⟨i, -, x, hx, rfl, rfl⟩
      exact hx
    · intro hc
      refine ⟨id, ?_, c, hc, rfl, rfl⟩
      cases hla : loadNode s.kv id a with
      | some r => exact hss.mem_allocated hla
      | none =>
        cases hlb : loadNode s.kv id b with
        | some r => exact hss.mem_allocated hlb
        | none =>
          rw [hla, hlb, nodeChange_self] at hc
          cases hc

/-- A file made and linked, one unlinked and one rewritten after a snapshot. -/
def edited : PrfsStore :=
  empty.after [.mkfile [], .link ⟨1, LATEST⟩ [97] ⟨2, LATEST⟩, .mkfile [], .link ⟨1, LATEST⟩ [98] ⟨3, LATEST⟩,
    .snapshot [], .unlink ⟨1, LATEST⟩ [97], .setAttr ⟨3, LATEST⟩ (.size 5), .mkfile [],
    .link ⟨1, LATEST⟩ [99] ⟨4, LATEST⟩]

theorem diffNodes_full_edited : edited.diffNodes 1 2 = [⟨2, .REMOVED⟩, ⟨3, .MODIFIED_CONTENT⟩, ⟨4, .CREATED⟩] := by
  have hrun : Run empty edited := run_after (by decide)
  rw [diffNodes_full hrun (by decide) (by decide)]
  decide

end PrfsStore

end Prfs
