import Mathlib.Algebra.BigOperators.Group.List.Basic
import Prfs.FsStat
import Prfs.RoundUp

namespace Prfs

/-- The reporting granularity that `fsStat` works with. -/
def FsConfig.block (cfg : FsConfig) : UInt64 := if cfg.blockSize ≠ 0 then cfg.blockSize else 1

def Stats.nodeCount (s : Stats) : Nat := (s.nodes.map UInt64.toNat).sum

/-- The used bytes in whole blocks, in exact integers. -/
def usedSpace (s : Stats) (cfg : FsConfig) : Nat := roundUp s.totalSize.toNat cfg.block.toNat

/-- What FSSTAT is to say of a view: the capacity covers the usage, and what is not free is used. -/
structure UsageCovered (s : Stats) (cfg : FsConfig) : Prop where
  free : (fsStat s cfg).fbytes ≤ (fsStat s cfg).tbytes
  covers : s.totalSize ≤ (fsStat s cfg).tbytes
  used : (fsStat s cfg).tbytes.toNat - (fsStat s cfg).fbytes.toNat =
    if usedSpace s cfg < 2 ^ 64 then usedSpace s cfg else (fsStat s cfg).tbytes.toNat
  freeFiles : (fsStat s cfg).ffiles ≤ (fsStat s cfg).tfiles
  usedFiles : (fsStat s cfg).tfiles.toNat - (fsStat s cfg).ffiles.toNat = s.nodeCount

variable {s : Stats} {cfg : FsConfig} {used capacity : UInt64}

theorem FsConfig.block_pos (cfg : FsConfig) : 0 < cfg.block.toNat := by
  unfold FsConfig.block
  split_ifs with h
  · exact Nat.pos_of_ne_zero fun h0 => h (UInt64.toNat_inj.mp h0)
  · decide

theorem foldl_add_toNat {xs : List UInt64} {acc : UInt64} (h : acc.toNat + (xs.map UInt64.toNat).sum < 2 ^ 64) :
    (xs.foldl (· + ·) acc).toNat = acc.toNat + (xs.map UInt64.toNat).sum := by
  induction xs generalizing acc with
  | nil => simp
  | cons x xs ih =>
    rw [List.map_cons, List.sum_cons] at h ⊢
    have hadd : (acc + x).toNat = acc.toNat + x.toNat := by
      rw [UInt64.toNat_add]
      exact Nat.mod_eq_of_lt (by omega)
    rw [List.foldl_cons, ih (by omega), hadd, Nat.add_assoc]

/-- Free space never underflows and never exceeds the capacity. -/
theorem freeOf_le (used capacity : UInt64) : freeOf used capacity ≤ capacity := by
  unfold freeOf
  split_ifs with h
  · rw [UInt64.lt_iff_toNat_lt] at h
    rw [UInt64.le_iff_toNat_le, UInt64.toNat_sub_of_le _ _ (UInt64.le_iff_toNat_le.mpr (by omega))]
    omega
  · exact UInt64.le_iff_toNat_le.mpr (Nat.zero_le _)

theorem toNat_grown (used capacity : UInt64) :
    (if used < capacity then capacity else used).toNat = max used.toNat capacity.toNat := by
  split_ifs with h <;> rw [UInt64.lt_iff_toNat_lt] at h <;> omega

/-- A capacity grown to the usage leaves, less what is free, exactly the usage. -/
theorem grown_sub_freeOf (used capacity : UInt64) :
    (if used < capacity then capacity else used).toNat -
      (freeOf used (if used < capacity then capacity else used)).toNat = used.toNat := by
  have hmax := toNat_grown used capacity
  generalize (if used < capacity then capacity else used) = total at hmax ⊢
  unfold freeOf
  split_ifs with h
  · rw [UInt64.lt_iff_toNat_lt] at h
    rw [UInt64.toNat_sub_of_le _ _ (UInt64.le_iff_toNat_le.mpr (by omega))]
    omega
  · rw [UInt64.lt_iff_toNat_lt] at h
    rw [UInt64.toNat_zero]
    omega

/-- The capacity and the usage that `fsStat` reports; once rounding up wraps, nothing is used. -/
theorem fsStat_bytes (s : Stats) (cfg : FsConfig) :
    ∃ u : Nat, u = (if s.totalSize.toNat + (cfg.block.toNat - 1) < 2 ^ 64 then usedSpace s cfg else 0) ∧
      (fsStat s cfg).tbytes.toNat = max u cfg.capacityBytes.toNat ∧
      (fsStat s cfg).tbytes.toNat - (fsStat s cfg).fbytes.toNat = u := by
  refine ⟨((s.totalSize + cfg.block - 1) / cfg.block * cfg.block).toNat, ?_, ?_, ?_⟩
  · exact toNat_roundUp cfg.block_pos
  · exact toNat_grown _ _
  · exact grown_sub_freeOf _ _

theorem fsStat_files (s : Stats) (cfg : FsConfig) (hcount : s.nodeCount < 2 ^ 64) :
    (fsStat s cfg).tfiles.toNat - (fsStat s cfg).ffiles.toNat = s.nodeCount := by
  have hsum : (s.nodes.foldl (· + ·) 0).toNat = s.nodeCount := by
    rw [foldl_add_toNat (by rw [UInt64.toNat_zero, Nat.zero_add]; exact hcount), UInt64.toNat_zero, Nat.zero_add]
    rfl
  rw [← hsum]
  exact grown_sub_freeOf _ _

/-- FSSTAT accounts for what is used exactly when rounding the used bytes up does not wrap. -/
theorem usage_covered_iff (s : Stats) (cfg : FsConfig) (hcount : s.nodeCount < 2 ^ 64) :
    UsageCovered s cfg ↔ s.totalSize.toNat + (cfg.block.toNat - 1) < 2 ^ 64 := by
  have hpos := cfg.block_pos
  have hle : s.totalSize.toNat ≤ usedSpace s cfg := le_roundUp hpos
  have hbound : usedSpace s cfg ≤ s.totalSize.toNat + cfg.block.toNat - 1 := roundUp_le ..
  obtain ⟨u, hu, htotal, hused⟩ := fsStat_bytes s cfg
  constructor
  · intro h
    have hcovers := UInt64.le_iff_toNat_le.mp h.covers
    have hrounded := h.used
    have hblock := cfg.block.toNat_lt
    by_contra hwraps
    rw [if_neg hwraps] at hu
    -- nothing counts as used, so the rounded size is zero or the capacity is
    split_ifs at hrounded <;> omega
  · intro hfit
    rw [if_pos hfit] at hu
    refine ⟨freeOf_le .., ?_, ?_, freeOf_le .., fsStat_files s cfg hcount⟩
    · rw [UInt64.le_iff_toNat_le]
      omega
    · rw [if_pos (by omega), hused, hu]

theorem usage_covered_iff_default : UsageCovered { nodes := [3, 2, 1, 0, 0, 0, 0], totalSize := 10000 } {} :=
  (usage_covered_iff _ _ (by decide)).mpr (by decide)

/-- Three files of 2^64 - 1 bytes in all are reported as no bytes at all. -/
theorem usage_lost : ¬ UsageCovered { nodes := [3, 1, 0, 0, 0, 0, 0], totalSize := 0xffffffffffffffff } {} := by
  intro h
  exact absurd h.covers (by decide)

end Prfs
