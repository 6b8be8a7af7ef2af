import Prfs.OrdCursor

namespace Prfs

def beLoop : Nat → UInt64 → Bytes → Bytes
  | 0, _, s => s
  | i + 1, x, s => beLoop i (x >>> 8) ((x &&& 0xff).toUInt8 :: s)

/-- Big-endian key encoding: the eight bytes are written from the last one on. -/
def be (x : UInt64) : Bytes := beLoop 8 x []

def rdbe (p : Bytes) : UInt64 := (p.take 8).foldl (fun x b => (x <<< 8) ||| b.toUInt64) 0

theorem toBE_succ_last {w n : Nat} (h : n < 256 ^ (w + 1)) :
    toBE (w + 1) n = toBE w (n / 256) ++ [UInt8.ofNat (n % 256)] := by
  induction w generalizing n with
  | zero => simp [toBE, Nat.mod_eq_of_lt (show n < 256 by simpa using h)]
  | succ w ih =>
    have hpos : 0 < 256 ^ (w + 1) := by positivity
    have hquot : n / 256 / 256 ^ w = n / 256 ^ (w + 1) := by
      rw [Nat.div_div_eq_div_mul, pow_succ, Nat.mul_comm]
    have hmid : n % 256 ^ (w + 1) / 256 = n / 256 % 256 ^ w := by
      rw [pow_succ, Nat.mul_comm, Nat.mod_mul_right_div_self]
    have hlow : n % 256 ^ (w + 1) % 256 = n % 256 :=
      Nat.mod_mod_of_dvd n (by rw [pow_succ]; exact Nat.dvd_mul_left _ _)
    rw [toBE, ih (Nat.mod_lt n hpos), hmid, hlow, toBE, hquot, List.cons_append]

theorem beLoop_eq (i : Nat) (x : UInt64) (s : Bytes) :
    beLoop i x s = toBE i (x.toNat % 256 ^ i) ++ s := by
  induction i generalizing x s with
  | zero => simp [beLoop, toBE]
  | succ i ih =>
    have hpos : 0 < 256 ^ (i + 1) := by positivity
    have hshift : (x >>> 8).toNat = x.toNat / 256 := by
      simp [UInt64.toNat_shiftRight, Nat.shiftRight_eq_div_pow]
    have hmid : x.toNat % 256 ^ (i + 1) / 256 = x.toNat / 256 % 256 ^ i := by
      rw [pow_succ, Nat.mul_comm, Nat.mod_mul_right_div_self]
    have hlow : x.toNat % 256 ^ (i + 1) % 256 = x.toNat % 256 :=
      Nat.mod_mod_of_dvd _ (by rw [pow_succ]; exact Nat.dvd_mul_left _ _)
    have hbyte : (x &&& 0xff).toUInt8 = UInt8.ofNat (x.toNat % 256) := by
      apply UInt8.toNat_inj.mp
      have hand : x.toNat % 256 &&& 255 = x.toNat % 256 % 2 ^ 8 :=
        Nat.and_two_pow_sub_one_eq_mod _ 8
      simp [hand]
    rw [beLoop, ih, toBE_succ_last (Nat.mod_lt _ hpos), hshift, hmid, hlow, hbyte]
    simp

theorem be_eq (x : UInt64) : be x = toBE 8 x.toNat := by
  simp [be, beLoop_eq]

@[simp] theorem be_length (x : UInt64) : (be x).length = 8 := by simp [be_eq]

theorem be_lt_iff {x y : UInt64} : be x < be y ↔ x < y := by
  rw [be_eq, be_eq, UInt64.lt_iff_toNat_lt]
  exact toBE_lt_iff (by simpa using x.toNat_lt) (by simpa using y.toNat_lt)

@[simp] theorem be_inj {x y : UInt64} : be x = be y ↔ x = y := by
  refine ⟨fun h => ?_, congrArg be⟩
  rcases lt_trichotomy x y with hlt | heq | hgt
  · exact absurd (be_lt_iff.mpr hlt) (by simp [h])
  · exact heq
  · exact absurd (be_lt_iff.mpr hgt) (by simp [h])

theorem be_le_iff {x y : UInt64} : be x ≤ be y ↔ x ≤ y := by
  simp only [le_iff_lt_or_eq, be_lt_iff, be_inj]

theorem rdbe_step (x : UInt64) (b : UInt8) :
    ((x <<< 8) ||| b.toUInt64).toNat = (x.toNat * 256 + b.toNat) % 2 ^ 64 := by
  have hb : b.toNat < 256 := b.toNat_lt
  have hx : x.toNat <<< 8 % 2 ^ 64 = (x.toNat % 2 ^ 56) <<< 8 := by
    simp only [Nat.shiftLeft_eq]
    omega
  have hor : (x.toNat % 2 ^ 56) <<< 8 ||| b.toNat = (x.toNat % 2 ^ 56) <<< 8 + b.toNat :=
    (Nat.shiftLeft_add_eq_or_of_lt (by simpa using hb) _).symm
  rw [UInt64.toNat_or, UInt64.toNat_shiftLeft, UInt8.toNat_toUInt64,
    show UInt64.toNat 8 % 64 = 8 from rfl, hx, hor, Nat.shiftLeft_eq]
  omega

theorem rdbe_foldl (bs : Bytes) (x : UInt64) :
    UInt64.toNat (bs.foldl (fun y b => (y <<< 8) ||| b.toUInt64) x) =
      (x.toNat * 256 ^ bs.length + ofBE bs) % 2 ^ 64 := by
  induction bs generalizing x with
  | nil =>
    have hx : x.toNat < 2 ^ 64 := x.toNat_lt
    simp only [List.foldl_nil, List.length_nil, pow_zero, Nat.mul_one, ofBE, Nat.add_zero]
    omega
  | cons b bs ih =>
    rw [List.foldl_cons, ih, rdbe_step, ofBE_cons, List.length_cons, Nat.add_mod, Nat.mul_mod,
      Nat.mod_mod, ← Nat.mul_mod, ← Nat.add_mod]
    ring_nf

theorem rdbe_be_append (x : UInt64) (s : Bytes) : rdbe (be x ++ s) = x := by
  have ht : (be x ++ s).take 8 = be x := List.take_left' (be_length x)
  have hx : x.toNat < 256 ^ 8 := by simpa using x.toNat_lt
  apply UInt64.toNat_inj.mp
  rw [rdbe, ht, rdbe_foldl, be_eq, ofBE_toBE hx]
  simp only [UInt64.toNat_zero, Nat.zero_mul, Nat.zero_add]
  exact Nat.mod_eq_of_lt x.toNat_lt

@[simp] theorem rdbe_be (x : UInt64) : rdbe (be x) = x := by
  simpa using rdbe_be_append x []

theorem be_rdbe {p : Bytes} (h : p.length = 8) : be (rdbe p) = p := by
  have ht : p.take 8 = p := List.take_of_length_le (by omega)
  have hlt := ofBE_lt p
  rw [h] at hlt
  have hn : (rdbe p).toNat = ofBE p := by
    rw [rdbe, ht, rdbe_foldl, UInt64.toNat_zero, Nat.zero_mul, Nat.zero_add]
    exact Nat.mod_eq_of_lt (by simpa using hlt)
  rw [be_eq, hn, ← h, toBE_ofBE]

theorem append_eq_append_of_length {p q x y : Bytes} (h : p.length = q.length) :
    p ++ x = q ++ y ↔ p = q ∧ x = y :=
  ⟨fun he => List.append_inj he h, fun ⟨hp, hx⟩ => by rw [hp, hx]⟩

/-- Composite keys are equal, and ordered, as the tuples they encode. -/
theorem key2_inj {a b c d : UInt64} : be a ++ be b = be c ++ be d ↔ a = c ∧ b = d := by
  rw [append_eq_append_of_length (by simp), be_inj, be_inj]

theorem name_key_inj {a b : UInt64} {x y : Bytes} : be a ++ x = be b ++ y ↔ a = b ∧ x = y := by
  rw [append_eq_append_of_length (by simp), be_inj]

theorem key3_inj {a b c d : UInt64} {x y : Bytes} :
    be a ++ be b ++ x = be c ++ be d ++ y ↔ (a = c ∧ b = d) ∧ x = y := by
  rw [append_eq_append_of_length (by simp), key2_inj]

theorem key2_lt_iff {a b c d : UInt64} :
    be a ++ be b < be c ++ be d ↔ a < c ∨ a = c ∧ b < d := by
  rw [append_lt_append_iff (by simp), be_lt_iff, be_inj, be_lt_iff]

theorem key2_le_iff {a b c d : UInt64} :
    be a ++ be b ≤ be c ++ be d ↔ a < c ∨ a = c ∧ b ≤ d := by
  rw [append_le_append_iff (by simp), be_lt_iff, be_inj, be_le_iff]

theorem key2_fields (a b : UInt64) (s : Bytes) :
    rdbe (be a ++ be b ++ s) = a ∧ rdbe ((be a ++ be b ++ s).drop 8) = b := by
  refine ⟨by rw [List.append_assoc]; exact rdbe_be_append a _, ?_⟩
  rw [List.append_assoc, List.drop_left' (be_length a)]
  exact rdbe_be_append b s

/-- A 16-byte key is the encoding of the two words read from it. -/
theorem key2_of_length {k : Bytes} (h : k.length = 16) : be (rdbe k) ++ be (rdbe (k.drop 8)) = k := by
  have hk : k.take 8 ++ k.drop 8 = k := List.take_append_drop 8 k
  have h1 : (k.take 8).length = 8 := by simp [h]
  have h2 : (k.drop 8).length = 8 := by simp [h]
  have hr : rdbe k = rdbe (k.take 8) := by simp only [rdbe, List.take_take, Nat.min_self]
  rw [hr, be_rdbe h1, be_rdbe h2, hk]

end Prfs
