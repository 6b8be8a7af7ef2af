import Mathlib.Data.Fintype.EquivFin

namespace Prfs

/-- One round of a mixer: the high bits folded into the low ones, the low ones carried up. -/
def mixRound (k m x : UInt64) : UInt64 := (x ^^^ (x >>> k)) * m

theorem mul_word_injective {m inv : UInt64} (h : m * inv = 1) : Function.Injective (fun x : UInt64 => x * m) := by
  intro x y hxy
  have hmul : x * m * inv = y * m * inv := congrArg (· * inv) hxy
  rwa [UInt64.mul_assoc, UInt64.mul_assoc, h, UInt64.mul_one, UInt64.mul_one] at hmul

/-- The difference of two words with one image is its own shift, so it is zero. -/
theorem xor_shift_injective {k : UInt64} (hk : 0 < k.toNat % 64) :
    Function.Injective (fun x : UInt64 => x ^^^ (x >>> k)) := by
  intro x y hxy
  dsimp only at hxy
  have hself : (x ^^^ y) >>> k = x ^^^ y := by
    have hsum : (x >>> k) ^^^ (y >>> k) ^^^ (x ^^^ y) = 0 := by
      rw [← UInt64.xor_eq_zero_iff.mpr hxy]
      ac_rfl
    rw [UInt64.shiftRight_xor]
    exact UInt64.xor_eq_zero_iff.mp hsum
  have hzero : (x ^^^ y).toNat = 0 := by
    by_contra hne
    have hshift : (x ^^^ y).toNat >>> (k.toNat % 64) = (x ^^^ y).toNat := by
      rw [← UInt64.toNat_shiftRight, hself]
    rw [Nat.shiftRight_eq_div_pow] at hshift
    exact absurd hshift (Nat.div_lt_self (Nat.pos_of_ne_zero hne) (Nat.one_lt_two_pow hk.ne')).ne
  exact UInt64.xor_eq_zero_iff.mp (UInt64.toNat_inj.mp hzero)

theorem mixRound_injective {k m inv : UInt64} (hk : 0 < k.toNat % 64) (h : m * inv = 1) :
    Function.Injective (mixRound k m) :=
  (mul_word_injective h).comp (xor_shift_injective hk)

theorem word_surjective {f : UInt64 → UInt64} (h : Function.Injective f) : Function.Surjective f := by
  have hfin : Finite UInt64 := Finite.of_injective UInt64.toFin fun _ _ h => UInt64.toFin_inj.mp h
  exact Finite.surjective_of_injective h

theorem word_ext {x y : UInt64} (h : ∀ i < 64, x.toBitVec.getLsbD i = y.toBitVec.getLsbD i) : x = y :=
  UInt64.toBitVec_inj.mp (BitVec.eq_of_getLsbD_eq h)

/-- Setting the low bit gives each word the image of one other. -/
theorem or_one_eq_iff {x y : UInt64} : x ||| 1 = y ||| 1 ↔ x = y ∨ x = y ^^^ 1 := by
  constructor
  · intro h
    have hbits : ∀ i, 0 < i → x.toBitVec.getLsbD i = y.toBitVec.getLsbD i := by
      intro i hi
      have hi' := congrArg (fun w : UInt64 => w.toBitVec.getLsbD i) h
      simpa [BitVec.getLsbD_one, hi.ne'] using hi'
    by_cases h0 : x.toBitVec.getLsbD 0 = y.toBitVec.getLsbD 0
    · refine Or.inl (word_ext fun i _ => ?_)
      rcases Nat.eq_zero_or_pos i with rfl | hi
      · exact h0
      · exact hbits i hi
    · refine Or.inr (word_ext fun i _ => ?_)
      rcases Nat.eq_zero_or_pos i with rfl | hi
      · simpa [BitVec.getLsbD_one, Bool.eq_not] using h0
      · simp [BitVec.getLsbD_one, hi.ne', hbits i hi]
  · rintro (rfl | rfl)
    · rfl
    · refine word_ext fun i _ => ?_
      rcases Nat.eq_zero_or_pos i with rfl | hi
      · simp
      · simp [BitVec.getLsbD_one, hi.ne']

end Prfs
