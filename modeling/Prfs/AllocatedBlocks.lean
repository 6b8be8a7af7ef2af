import Prfs.ContentBytes
import Prfs.Host
import Prfs.RoundUp

namespace Prfs

namespace Content

variable {gen : IRng} {c : ContentConfig} {seed size : UInt64}

/-- The bytes that the first `n` turns of the loop of `allocatedBlocks` count. -/
def allocBytes (c : ContentConfig) (seed size bs : UInt64) (n : Nat) : UInt64 :=
  (List.range n).foldl (fun (acc : UInt64) b =>
    if isHole c seed (UInt64.ofNat b) then acc else acc + min bs (size - UInt64.ofNat b * bs)) 0

theorem allocBytes_succ (c : ContentConfig) (seed size bs : UInt64) (n : Nat) :
    allocBytes c seed size bs (n + 1) =
      if isHole c seed (UInt64.ofNat n) then allocBytes c seed size bs n
      else allocBytes c seed size bs n + min bs (size - UInt64.ofNat n * bs) := by
  unfold allocBytes
  rw [List.range_succ, List.foldl_append, List.foldl_cons, List.foldl_nil]

theorem allocatedBlocks_eq (c : ContentConfig) (seed : UInt64) (h : size ≠ 0) :
    ∃ bs : UInt64, bs.toNat = blockBytes c ∧ allocatedBlocks c seed size =
      (allocBytes c seed size bs ((size + bs - 1) / bs).toNat + 511) / 512 :=
  ⟨_, blockBytes_toNat c, if_neg h⟩

def InHole (c : ContentConfig) (seed : UInt64) (p : Nat) : Prop :=
  isHole c seed (UInt64.ofNat (p / blockBytes c)) = true

instance : DecidablePred (InHole c seed) := fun _ => inferInstanceAs (Decidable (_ = true))

/-- The number of positions below `n` that are not in a hole. -/
def allocated (c : ContentConfig) (seed : UInt64) (n : Nat) : Nat := Nat.count (fun p => ¬ InHole c seed p) n

theorem allocated_le (c : ContentConfig) (seed : UInt64) (n : Nat) : allocated c seed n ≤ n := Nat.count_le _

theorem allocated_mono {m n : Nat} (h : m ≤ n) : allocated c seed m ≤ allocated c seed n :=
  Nat.count_monotone _ h

theorem not_inHole_of_full (h : c.sparsePercent = 0) (p : Nat) : ¬ InHole c seed p := by
  simp [InHole, isHole, h]

theorem allocated_full (h : c.sparsePercent = 0) (n : Nat) : allocated c seed n = n :=
  Nat.count_of_forall fun p _ => not_inHole_of_full h p

/-- One turn counts the part of its block below the size, or nothing for a hole. -/
theorem allocated_block (c : ContentConfig) (seed : UInt64) (b n : Nat) :
    allocated c seed (min ((b + 1) * blockBytes c) n) = allocated c seed (min (b * blockBytes c) n) +
      if isHole c seed (UInt64.ofNat b) then 0 else min (blockBytes c) (n - b * blockBytes c) := by
  have hcount := @count_blocks_succ (fun p => ¬ InHole c seed p) (fun b => ¬ isHole c seed (UInt64.ofNat b) = true)
    _ _ (blockBytes c) (fun p => Iff.rfl) b n
  rw [ite_not] at hcount
  exact hcount

/-- While the loop's blocks start below the size, neither the products nor the sum wrap. -/
theorem toNat_allocBytes {bs : UInt64} (hbs : bs.toNat = blockBytes c) {n : Nat}
    (hn : ∀ b < n, b * blockBytes c < size.toNat) :
    (allocBytes c seed size bs n).toNat = allocated c seed (min (n * blockBytes c) size.toNat) := by
  have hsize := size.toNat_lt
  induction n with
  | zero => simp [allocBytes, allocated]
  | succ n ih =>
    have hlt := hn n (Nat.lt_succ_self n)
    have hle := Nat.le_mul_of_pos_right n (blockBytes_pos c)
    have hb : (UInt64.ofNat n).toNat = n := UInt64.toNat_ofNat_of_lt' (show n < 2 ^ 64 by omega)
    have hmul : (UInt64.ofNat n * bs).toNat = n * blockBytes c := by
      rw [UInt64.toNat_mul, hb, hbs]
      exact Nat.mod_eq_of_lt (by omega)
    have hsub : (size - UInt64.ofNat n * bs).toNat = size.toNat - n * blockBytes c := by
      rw [UInt64.toNat_sub_of_le _ _ (by rw [UInt64.le_iff_toNat_le]; omega), hmul]
    have hstep := allocated_block c seed n size.toNat
    have hnext := allocated_le c seed (min ((n + 1) * blockBytes c) size.toNat)
    rw [← ih fun b hb => hn b (by omega)] at hstep
    rw [allocBytes_succ]
    split_ifs at hstep ⊢
    · omega
    · rw [UInt64.toNat_add, toNat_min, hsub, hbs, hstep]
      exact Nat.mod_eq_of_lt (by omega)

theorem toNat_half_kib (x : UInt64) :
    ((x + 511) / 512).toNat = if x.toNat + 511 < 2 ^ 64 then x.toNat ⌈/⌉ 512 else 0 := by
  have hx : x + 511 = x + 512 - 1 := by
    rw [← UInt64.toNat_inj, UInt64.toNat_sub, UInt64.toNat_add, UInt64.toNat_add]
    simp only [UInt64.toNat_ofNat]
    omega
  rw [hx]
  exact toNat_ceilDiv (by decide)

/-- What the code returns in exact integers: nothing once one of its two roundings wraps. -/
theorem toNat_allocatedBlocks (c : ContentConfig) (seed size : UInt64) :
    (allocatedBlocks c seed size).toNat =
      if size.toNat + (blockBytes c - 1) < 2 ^ 64 ∧ allocated c seed size.toNat + 511 < 2 ^ 64 then
        allocated c seed size.toNat ⌈/⌉ 512
      else 0 := by
  have hpos := blockBytes_pos c
  by_cases h0 : size = 0
  · subst h0
    simp [allocatedBlocks, allocated]
  · obtain ⟨bs, hbs, hcode⟩ := allocatedBlocks_eq c seed h0
    have hblocks := @toNat_ceilDiv size bs (by omega)
    rw [hbs] at hblocks
    rw [hcode, toNat_half_kib, hblocks]
    by_cases hfit : size.toNat + (blockBytes c - 1) < 2 ^ 64
    · have hbelow : ∀ b < size.toNat ⌈/⌉ blockBytes c, b * blockBytes c < size.toNat := by
        intro b hb
        by_contra hge
        refine absurd hb (not_lt.mpr ((ceilDiv_le_iff_le_mul hpos).mpr ?_))
        rw [Nat.mul_comm]
        omega
      have hcover : size.toNat ≤ size.toNat ⌈/⌉ blockBytes c * blockBytes c := le_roundUp hpos
      rw [if_pos hfit, toNat_allocBytes hbs hbelow, min_eq_right hcover]
      simp only [hfit, true_and]
    · have hno : ¬ (size.toNat + (blockBytes c - 1) < 2 ^ 64 ∧ allocated c seed size.toNat + 511 < 2 ^ 64) :=
        fun h => hfit h.1
      rw [if_neg hfit, if_neg hno]
      simp [allocBytes]

/-- The byte can be read alone, and every read that stays in its output and covers it
leaves a zero there. -/
def ReadsZero (gen : IRng) (c : ContentConfig) (seed size : UInt64) (p : Nat) : Prop :=
  ReadsWithin gen c seed size (UInt64.ofNat p) 1 ∧
  ∀ offset len fuel res, ReadsWithin gen c seed size offset len → read gen fuel c seed size offset len = some res →
    ∀ out : Bytes, res.ret.toNat ≤ out.length → ∀ j < res.ret.toNat, offset.toNat + j = p →
      (res.into out)[j]? = some 0

theorem InHole.byteAt {p : Nat} (h : InHole c seed p) : byteAt gen c seed p = 0 := by
  unfold Content.byteAt blockByte
  exact if_pos (Or.inl h)

theorem InHole.readsWithin {p : Nat} (h : InHole c seed p) (hp : p < size.toNat)
    (hfit : (p / blockBytes c + 1) * blockBytes c < 2 ^ 64) :
    ReadsWithin gen c seed size (UInt64.ofNat p) 1 := by
  have hsize := size.toNat_lt
  have hof : (UInt64.ofNat p).toNat = p := UInt64.toNat_ofNat_of_lt' (show p < 2 ^ 64 by omega)
  have hmin : min (p + 1) size.toNat - 1 = p := by omega
  apply RangeFits.readsWithin
  · unfold RangeFits
    rw [hof, UInt64.toNat_one, hmin]
    refine ⟨by omega, hfit, Or.inr fun b hb hb' => ?_⟩
    have hbp : b = UInt64.ofNat (p / blockBytes c) := by
      rw [← le_antisymm hb' hb, UInt64.ofNat_toNat]
    rw [hbp]
    exact h
  · omega
  · decide

/-- A byte of a hole that can be read alone reads as zero in every longer read too. -/
theorem InHole.readsZero {p : Nat} (h : InHole c seed p) (hp : p < size.toNat)
    (hfit : (p / blockBytes c + 1) * blockBytes c < 2 ^ 64) : ReadsZero gen c seed size p := by
  refine ⟨h.readsWithin hp hfit, fun offset len fuel res hw hres out hout j hj hjp => ?_⟩
  have hret := (hw.2 fuel res hres).2
  obtain ⟨hrange, hlast, -⟩ := RangeFits.of_readsWithin hw (by omega) (by omega)
  rw [read_bytes (by omega) (by omega) hrange hlast hres out (by omega), List.getElem?_eq_getElem (by omega),
    Option.map_some, hjp, h.byteAt]

/-- What the number of allocated blocks of a file is to mean. -/
structure AllocationExact (gen : IRng) (c : ContentConfig) (seed size : UInt64) : Prop where
  exact : (allocatedBlocks c seed size).toNat = allocated c seed size.toNat ⌈/⌉ 512
  bounded : (allocatedBlocks c seed size).toNat ≤ size.toNat ⌈/⌉ 512
  full : c.sparsePercent = 0 → (allocatedBlocks c seed size).toNat = size.toNat ⌈/⌉ 512
  grows : ∀ size' ≤ size, allocatedBlocks c seed size' ≤ allocatedBlocks c seed size
  zero : ∀ p < size.toNat, InHole c seed p → ReadsZero gen c seed size p

/-- Counts that never wrap, or a file all of holes, give every part of what the number means. -/
theorem AllocationExact.of_value
    (hexact : (allocatedBlocks c seed size).toNat = allocated c seed size.toNat ⌈/⌉ 512)
    (hend : roundUp size.toNat (blockBytes c) < 2 ^ 64) : AllocationExact gen c seed size where
  exact := hexact
  bounded := by
    rw [hexact]
    exact ceilDiv_mono (by decide) (allocated_le c seed size.toNat)
  full h := by rw [hexact, allocated_full h]
  grows size' h := by
    rw [UInt64.le_iff_toNat_le] at h ⊢
    have hmono : allocated c seed size'.toNat ⌈/⌉ 512 ≤ allocated c seed size.toNat ⌈/⌉ 512 :=
      ceilDiv_mono (by decide) (allocated_mono h)
    rw [hexact, toNat_allocatedBlocks]
    split_ifs
    · exact hmono
    · exact Nat.zero_le _
  zero p hp h := h.readsZero hp (lt_of_le_of_lt (block_end_le_roundUp (blockBytes_pos c) hp) hend)

theorem AllocationExact.roundUp_lt (h : AllocationExact gen c seed size)
    (hnone : allocated c seed size.toNat = 0) : roundUp size.toNat (blockBytes c) < 2 ^ 64 := by
  have hpos := blockBytes_pos c
  by_cases h0 : size.toNat = 0
  · rw [h0]
    simp [roundUp]
  · have hsize := size.toNat_lt
    have hof : (UInt64.ofNat (size.toNat - 1)).toNat = size.toNat - 1 :=
      UInt64.toNat_ofNat_of_lt' (show size.toNat - 1 < 2 ^ 64 by omega)
    have hhole : InHole c seed (size.toNat - 1) := by
      by_contra hno
      exact Nat.count_iff_forall_not.mp hnone (size.toNat - 1) (by omega) hno
    have hfit := (RangeFits.of_readsWithin (h.zero _ (by omega) hhole).1 (by omega) (by decide)).2.1
    rw [hof, UInt64.toNat_one, Nat.sub_add_cancel (by omega), min_self] at hfit
    refine lt_of_le_of_lt (Nat.mul_le_mul_right _ ?_) hfit
    rw [ceilDiv_le_iff_le_mul hpos, Nat.mul_comm]
    have hlt : size.toNat - 1 < ((size.toNat - 1) / blockBytes c + 1) * blockBytes c :=
      (Nat.div_lt_iff_lt_mul hpos).mp (Nat.lt_succ_self _)
    omega

/-- The number is right exactly when neither rounding wraps, or when the file is all of holes
and can be read to its end. -/
theorem allocation_exact_iff (gen : IRng) (c : ContentConfig) (seed size : UInt64) :
    AllocationExact gen c seed size ↔
      (allocated c seed size.toNat = 0 ∧ roundUp size.toNat (blockBytes c) < 2 ^ 64) ∨
        (size.toNat + (blockBytes c - 1) < 2 ^ 64 ∧ allocated c seed size.toNat + 511 < 2 ^ 64) := by
  have hvalue := toNat_allocatedBlocks c seed size
  constructor
  · intro h
    by_cases hnone : allocated c seed size.toNat = 0
    · exact Or.inl ⟨hnone, h.roundUp_lt hnone⟩
    · refine Or.inr ?_
      by_contra hwraps
      rw [if_neg hwraps, h.exact] at hvalue
      have hle : allocated c seed size.toNat ≤ 512 * 0 :=
        (ceilDiv_le_iff_le_mul (by decide)).mp hvalue.le
      omega
  · rintro (⟨hnone, hend⟩ | hfit)
    · apply AllocationExact.of_value
      · rw [hvalue, hnone]
        simp
      · exact hend
    · have hpos := blockBytes_pos c
      have hle := roundUp_le size.toNat (blockBytes c)
      exact .of_value (by rw [hvalue, if_pos hfit]) (by omega)

/-- A file of 2^64 - 1 bytes without holes has no blocks. -/
theorem allocation_lost : ¬ AllocationExact (fun _ _ => ⟨0, 0, 0, 0⟩) {} 0 0xffffffffffffffff := by
  intro h
  have hfull := h.full rfl
  exact absurd hfull (by decide)

end Content

end Prfs
