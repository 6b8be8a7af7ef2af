import Mathlib.Algebra.Order.Floor.Div
import Mathlib.Data.Nat.Count

namespace Prfs

section Words

variable {x b M : Nat}

/-- The least multiple of `b` that is not below `x`. -/
def roundUp (x b : Nat) : Nat := x ⌈/⌉ b * b

theorem le_roundUp (hb : 0 < b) : x ≤ roundUp x b := by
  have hle := le_smul_ceilDiv (b := x) hb
  rwa [smul_eq_mul, Nat.mul_comm] at hle

theorem roundUp_le (x b : Nat) : roundUp x b ≤ x + b - 1 := by
  unfold roundUp
  rw [Nat.ceilDiv_eq_add_pred_div]
  exact Nat.div_mul_le_self ..

theorem ceilDiv_mono (hb : 0 < b) {m n : Nat} (h : m ≤ n) : m ⌈/⌉ b ≤ n ⌈/⌉ b :=
  (gc_mul_ceilDiv hb).monotone_l h

/-- The block of a position below `x` ends within `x` rounded up. -/
theorem block_end_le_roundUp (hb : 0 < b) {p : Nat} (hp : p < x) : (p / b + 1) * b ≤ roundUp x b := by
  have hle : x ≤ x ⌈/⌉ b * b := le_roundUp hb
  have hlt : p / b < x ⌈/⌉ b := (Nat.div_lt_iff_lt_mul hb).mpr (by omega)
  exact Nat.mul_le_mul_right b hlt

/-- Rounding up by adding `b - 1` modulo `M` loses everything once the sum wraps. -/
theorem ceilDiv_wrapped (hb : 0 < b) (hx : x < M) :
    (x + (b - 1)) % M / b = if x + (b - 1) < M then x ⌈/⌉ b else 0 := by
  split_ifs with hfit
  · rw [Nat.mod_eq_of_lt hfit, Nat.ceilDiv_eq_add_pred_div, Nat.add_sub_assoc hb]
  · apply Nat.div_eq_of_lt
    by_cases hM : b ≤ M
    · rw [Nat.mod_eq_sub_mod (by omega), Nat.mod_eq_of_lt (by omega)]
      omega
    · have hlt := Nat.mod_lt (x + (b - 1)) (show 0 < M by omega)
      omega

theorem toNat_ceilDiv {x b : UInt64} (hb : 0 < b.toNat) :
    ((x + b - 1) / b).toNat = if x.toNat + (b.toNat - 1) < 2 ^ 64 then x.toNat ⌈/⌉ b.toNat else 0 := by
  have hx := x.toNat_lt
  have hsum : (x + b - 1).toNat = (x.toNat + (b.toNat - 1)) % 2 ^ 64 := by
    rw [UInt64.toNat_sub, UInt64.toNat_add, UInt64.toNat_one]
    omega
  rw [UInt64.toNat_div, hsum]
  exact ceilDiv_wrapped hb hx

theorem toNat_roundUp {x b : UInt64} (hb : 0 < b.toNat) :
    ((x + b - 1) / b * b).toNat = if x.toNat + (b.toNat - 1) < 2 ^ 64 then roundUp x.toNat b.toNat else 0 := by
  rw [UInt64.toNat_mul, toNat_ceilDiv hb]
  split_ifs with hfit
  · have hle := roundUp_le x.toNat b.toNat
    exact Nat.mod_eq_of_lt (by unfold roundUp at hle; omega)
  · rw [Nat.zero_mul, Nat.zero_mod]

end Words

section Blocks

variable {p q : Nat → Prop} [DecidablePred p] [DecidablePred q] {B : Nat}

/-- Where `p` depends on the block alone, a part of block `k` counts whole or not at all. -/
theorem count_in_block (hp : ∀ n, p n ↔ q (n / B)) (k : Nat) {r : Nat} (hr : r ≤ B) :
    Nat.count p (k * B + r) = Nat.count p (k * B) + if q k then r else 0 := by
  have hblock : ∀ i < r, (p (k * B + i) ↔ q k) := by
    intro i hi
    rw [hp, Nat.mul_comm, Nat.mul_add_div (by omega), Nat.div_eq_of_lt (by omega), Nat.add_zero]
  rw [Nat.count_add]
  congr 1
  split_ifs with hq
  · exact Nat.count_of_forall fun i hi => (hblock i hi).mpr hq
  · exact Nat.count_of_forall_not fun i hi h => hq ((hblock i hi).mp h)

theorem count_blocks_succ (hp : ∀ n, p n ↔ q (n / B)) (k N : Nat) :
    Nat.count p (min ((k + 1) * B) N) =
      Nat.count p (min (k * B) N) + if q k then min B (N - k * B) else 0 := by
  rw [Nat.add_mul, Nat.one_mul]
  by_cases hk : k * B ≤ N
  · rw [min_eq_left hk, ← count_in_block hp k (Nat.min_le_left B (N - k * B))]
    congr 1
    omega
  · rw [min_eq_right (by omega), min_eq_right (by omega), show N - k * B = 0 by omega]
    simp

end Blocks

end Prfs
