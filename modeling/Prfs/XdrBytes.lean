import Prfs.KeyCodec
import Prfs.XdrWriter

namespace Prfs

theorem word_eq (x : UInt32) : word x = toBE 4 x.toNat := by
  have hx := x.toNat_lt
  simp only [word, toBE, List.cons.injEq, true_and, and_true, ← UInt8.toNat_inj, UInt32.toNat_toUInt8, UInt32.toNat_shiftRight,
    UInt32.reduceToNat, Nat.reduceMod, Nat.shiftRight_eq_div_pow, Nat.reducePow, UInt8.toNat_ofNat']
  omega

/-- A number in two parts, the upper one first. -/
theorem toBE_add {v w n : Nat} (h : n < 256 ^ (v + w)) : toBE (v + w) n = toBE v (n / 256 ^ w) ++ toBE w (n % 256 ^ w) := by
  induction v generalizing n with
  | zero =>
    rw [Nat.zero_add] at h ⊢
    rw [Nat.mod_eq_of_lt h]
    rfl
  | succ v ih =>
    have hpos : 0 < 256 ^ (v + w) := by positivity
    have hhead : n / 256 ^ w / 256 ^ v = n / 256 ^ (v + w) := by
      rw [Nat.div_div_eq_div_mul, pow_add, Nat.mul_comm]
    have htail : n % 256 ^ (v + w) / 256 ^ w = n / 256 ^ w % 256 ^ v := by
      rw [pow_add, Nat.mul_comm, Nat.mod_mul_right_div_self]
    have hlow : n % 256 ^ (v + w) % 256 ^ w = n % 256 ^ w :=
      Nat.mod_mod_of_dvd _ (by rw [pow_add]; exact Nat.dvd_mul_left _ _)
    rw [Nat.succ_add, toBE, ih (Nat.mod_lt n hpos), toBE, hhead, htail, hlow, List.cons_append]

namespace Writer

theorem append_append (w : Writer) (a b : Bytes) : (w.append a).append b = w.append (a ++ b) := by
  simp [append]

theorem u32_eq (w : Writer) (x : UInt32) : w.u32 x = w.append (toBE 4 x.toNat) := by
  rw [u32, word_eq]

/-- A double word is written as its key. -/
theorem u64_eq (w : Writer) (x : UInt64) : w.u64 x = w.append (be x) := by
  have hx : x.toNat < 256 ^ (4 + 4) := by simpa using x.toNat_lt
  have hhi : (x >>> 32).toUInt32.toNat = x.toNat / 256 ^ 4 := by
    have hlt := x.toNat_lt
    simp only [UInt64.toNat_toUInt32, UInt64.toNat_shiftRight, UInt64.reduceToNat, Nat.reduceMod, Nat.shiftRight_eq_div_pow,
      Nat.reducePow]
    omega
  have hlo : x.toUInt32.toNat = x.toNat % 256 ^ 4 := by
    simp only [UInt64.toNat_toUInt32, Nat.reducePow]
  rw [u64, u32_eq, u32_eq, append_append, hhi, hlo, ← toBE_add hx, be_eq]

end Writer

end Prfs
