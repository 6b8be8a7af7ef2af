import Mathlib.Data.List.Lex
import Mathlib.Tactic.Ring
import Mathlib.Tactic.Linarith
import Mathlib.Tactic.SplitIfs

namespace Prfs

abbrev Bytes := List UInt8

instance linearOrderUInt8 : LinearOrder UInt8 where
  le_refl a := UInt8.le_refl a
  le_trans _ _ _ := UInt8.le_trans
  lt_iff_le_not_ge a b := by simp only [UInt8.lt_iff_toNat_lt, UInt8.le_iff_toNat_le]; omega
  le_antisymm _ _ := UInt8.le_antisymm
  le_total := UInt8.le_total
  toDecidableLE := inferInstance
  toDecidableEq := inferInstance
  toDecidableLT := inferInstance

instance linearOrderUInt64 : LinearOrder UInt64 where
  le_refl a := UInt64.le_refl a
  le_trans _ _ _ := UInt64.le_trans
  lt_iff_le_not_ge a b := by simp only [UInt64.lt_iff_toNat_lt, UInt64.le_iff_toNat_le]; omega
  le_antisymm _ _ := UInt64.le_antisymm
  le_total := UInt64.le_total
  toDecidableLE := inferInstance
  toDecidableEq := inferInstance
  toDecidableLT := inferInstance

section Lex

variable {α : Type} [LinearOrder α]

/-- Behind prefixes of one length the lexicographic order is that of pairs. -/
theorem append_lt_append_iff {p q : List α} (hl : p.length = q.length) (x y : List α) :
    p ++ x < q ++ y ↔ p < q ∨ p = q ∧ x < y := by
  induction p generalizing q with
  | nil =>
    obtain rfl : q = [] := List.length_eq_zero_iff.mp hl.symm
    simp
  | cons a p ih =>
    cases q with
    | nil => simp at hl
    | cons b q =>
      have hh := ih (q := q) (by simpa using hl)
      simp only [List.cons_append, List.cons_lt_cons_iff, hh, List.cons.injEq]
      tauto

theorem append_le_append_iff {p q : List α} (hl : p.length = q.length) (x y : List α) :
    p ++ x ≤ q ++ y ↔ p < q ∨ p = q ∧ x ≤ y := by
  rw [← not_lt, append_lt_append_iff hl.symm, ← not_lt (a := y)]
  constructor
  · intro h
    rcases lt_trichotomy p q with hlt | heq | hgt
    · exact Or.inl hlt
    · exact Or.inr ⟨heq, fun hyx => h (Or.inr ⟨heq.symm, hyx⟩)⟩
    · exact absurd (Or.inl hgt) h
  · rintro (hlt | ⟨rfl, hyx⟩) (hgt | ⟨heq, hyx'⟩)
    · exact lt_asymm hlt hgt
    · exact absurd hlt (by simp [heq])
    · exact lt_irrefl _ hgt
    · exact hyx hyx'

theorem append_right_lt_iff (p x y : List α) : p ++ x < p ++ y ↔ x < y := by
  simp [append_lt_append_iff rfl]

theorem append_right_le_iff (p x y : List α) : p ++ x ≤ p ++ y ↔ x ≤ y := by
  simp [append_le_append_iff rfl]

theorem nil_le_list (x : List α) : [] ≤ x := by
  cases x with
  | nil => exact le_rfl
  | cons a x => exact le_of_lt List.Lex.nil

theorem prefix_le {p x : List α} (h : p <+: x) : p ≤ x := by
  obtain ⟨t, rfl⟩ := h
  simpa using (append_right_le_iff p [] t).mpr (nil_le_list t)

/-- The strings that start with `p` form an interval of the lexicographic order. -/
theorem prefix_of_between {p x y : List α} (hpx : p ≤ x) (hxy : x ≤ y) (h : p <+: y) : p <+: x := by
  induction p generalizing x y with
  | nil => exact List.nil_prefix
  | cons a p ih =>
    obtain ⟨t, rfl⟩ := h
    cases x with
    | nil => exact absurd hpx (not_le.mpr List.Lex.nil)
    | cons b x =>
      rw [← not_lt, List.cons_lt_cons_iff, not_or, not_and] at hpx
      rw [← not_lt, List.cons_append, List.cons_lt_cons_iff, not_or, not_and] at hxy
      obtain rfl : a = b := le_antisymm (not_lt.mp hpx.1) (not_lt.mp hxy.1)
      have hh := ih (not_lt.mp (hpx.2 rfl)) (not_lt.mp (hxy.2 rfl)) (List.prefix_append p t)
      exact List.cons_prefix_cons.mpr ⟨rfl, hh⟩

end Lex

/-- The `w` big-endian bytes of `n`. -/
def toBE : Nat → Nat → Bytes
  | 0, _ => []
  | w + 1, n => UInt8.ofNat (n / 256 ^ w) :: toBE w (n % 256 ^ w)

@[simp] theorem toBE_length (w n : Nat) : (toBE w n).length = w := by
  induction w generalizing n with
  | zero => rfl
  | succ w ih => simp [toBE, ih]

theorem toBE_lt_iff {w m n : Nat} (hm : m < 256 ^ w) (hn : n < 256 ^ w) :
    toBE w m < toBE w n ↔ m < n := by
  induction w generalizing m n with
  | zero =>
    obtain rfl : m = 0 := by simpa using hm
    obtain rfl : n = 0 := by simpa using hn
    simp [toBE]
  | succ w ih =>
    have hpos : 0 < 256 ^ w := by positivity
    have hdm : m / 256 ^ w < 256 := Nat.div_lt_of_lt_mul (by simpa [pow_succ] using hm)
    have hdn : n / 256 ^ w < 256 := Nat.div_lt_of_lt_mul (by simpa [pow_succ] using hn)
    have hh := ih (Nat.mod_lt m hpos) (Nat.mod_lt n hpos)
    have hm' := Nat.div_add_mod m (256 ^ w)
    have hn' := Nat.div_add_mod n (256 ^ w)
    simp only [toBE, List.cons_lt_cons_iff, hh, UInt8.lt_iff_toNat_lt, ← UInt8.toNat_inj,
      UInt8.toNat_ofNat', Nat.mod_eq_of_lt hdm, Nat.mod_eq_of_lt hdn]
    have hmm := Nat.mod_lt m hpos
    have hnm := Nat.mod_lt n hpos
    constructor
    · rintro (h | ⟨h1, h2⟩)
      · have : 256 ^ w * (m / 256 ^ w + 1) ≤ 256 ^ w * (n / 256 ^ w) := Nat.mul_le_mul_left _ h
        rw [Nat.mul_add] at this
        omega
      · rw [h1] at hm'
        omega
    · intro h
      rcases Nat.lt_trichotomy (m / 256 ^ w) (n / 256 ^ w) with hlt | heq | hgt
      · exact Or.inl hlt
      · rw [heq] at hm'
        exact Or.inr ⟨heq, by omega⟩
      · have : 256 ^ w * (n / 256 ^ w + 1) ≤ 256 ^ w * (m / 256 ^ w) := Nat.mul_le_mul_left _ hgt
        rw [Nat.mul_add] at this
        omega

/-- The number that a big-endian string of bytes stands for. -/
def ofBE (bs : Bytes) : Nat := bs.foldl (fun n b => n * 256 + b.toNat) 0

theorem ofBE_foldl (bs : Bytes) (n : Nat) :
    bs.foldl (fun n b => n * 256 + b.toNat) n = n * 256 ^ bs.length + ofBE bs := by
  unfold ofBE
  induction bs generalizing n with
  | nil => simp
  | cons b bs ih =>
    simp only [List.foldl_cons, List.length_cons, ih (n * 256 + b.toNat), ih (0 * 256 + b.toNat)]
    ring

theorem ofBE_toBE {w n : Nat} (h : n < 256 ^ w) : ofBE (toBE w n) = n := by
  induction w generalizing n with
  | zero =>
    obtain rfl : n = 0 := by simpa using h
    rfl
  | succ w ih =>
    have hpos : 0 < 256 ^ w := by positivity
    have hd : n / 256 ^ w < 256 := Nat.div_lt_of_lt_mul (by simpa [pow_succ] using h)
    have hh := ih (Nat.mod_lt n hpos)
    have hf := ofBE_foldl (toBE w (n % 256 ^ w)) (UInt8.ofNat (n / 256 ^ w)).toNat
    rw [hh, toBE_length, UInt8.toNat_ofNat', Nat.mod_eq_of_lt hd] at hf
    have he : ofBE (toBE (w + 1) n) = n / 256 ^ w * 256 ^ w + n % 256 ^ w := by
      rw [← hf]
      simp [ofBE, toBE, Nat.mod_eq_of_lt hd]
    rw [he]
    exact Nat.div_add_mod' n (256 ^ w)

theorem ofBE_cons (b : UInt8) (bs : Bytes) : ofBE (b :: bs) = b.toNat * 256 ^ bs.length + ofBE bs := by
  have hf := ofBE_foldl bs b.toNat
  simpa [ofBE] using hf

theorem ofBE_lt (bs : Bytes) : ofBE bs < 256 ^ bs.length := by
  induction bs with
  | nil => simp [ofBE]
  | cons b bs ih =>
    have hb : b.toNat + 1 ≤ 256 := b.toNat_lt
    have hm := Nat.mul_le_mul_right (256 ^ bs.length) hb
    rw [ofBE_cons, List.length_cons, pow_succ]
    linarith

theorem toBE_ofBE (bs : Bytes) : toBE bs.length (ofBE bs) = bs := by
  induction bs with
  | nil => rfl
  | cons b bs ih =>
    have hlt := ofBE_lt bs
    have hpos : 0 < 256 ^ bs.length := by positivity
    have hd : (b.toNat * 256 ^ bs.length + ofBE bs) / 256 ^ bs.length = b.toNat := by
      rw [Nat.add_comm, Nat.add_mul_div_right _ _ hpos, Nat.div_eq_of_lt hlt, Nat.zero_add]
    have hm : (b.toNat * 256 ^ bs.length + ofBE bs) % 256 ^ bs.length = ofBE bs := by
      rw [Nat.add_comm, Nat.add_mul_mod_self_right, Nat.mod_eq_of_lt hlt]
    rw [List.length_cons, toBE, ofBE_cons, hd, hm, ih, UInt8.ofNat_toNat]

end Prfs
