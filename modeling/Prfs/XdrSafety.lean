import Prfs.XdrReader
import Mathlib.Data.Nat.Bitwise
import Mathlib.Data.List.Induction

namespace Prfs

theorem and_not_three (x : UInt64) : (x &&& ~~~3).toNat = x.toNat / 4 * 4 := by
  have h3 : (~~~(3 : UInt64)).toNat = (2 ^ 62 - 1) * 2 ^ 2 := by decide
  rw [UInt64.toNat_and, h3]
  apply Nat.eq_of_testBit_eq
  intro i
  have hx : x.toNat / 4 * 4 = x.toNat / 2 ^ 2 * 2 ^ 2 := rfl
  rw [hx, Nat.testBit_and, Nat.testBit_mul_two_pow, Nat.testBit_mul_two_pow, Nat.testBit_two_pow_sub_one,
    Nat.testBit_div_two_pow]
  by_cases hi : 2 ≤ i
  · have hs : i - 2 + 2 = i := by omega
    by_cases hlt : i - 2 < 62
    · simp [hi, hlt, hs]
    · have hb : x.toNat.testBit i = false :=
        Nat.testBit_lt_two_pow (lt_of_lt_of_le x.toNat_lt (Nat.pow_le_pow_right (by omega) (by omega)))
      simp [hi, hlt, hs, hb]
  · simp [hi]

theorem padded_toNat (len : UInt32) : (padded len).toNat = (len.toNat + 3) % 2 ^ 32 / 4 * 4 := by
  rw [padded, and_not_three, UInt32.toNat_toUInt64, UInt32.toNat_add]
  rfl

/-- The padding covers the length except for the last three lengths, where it is zero. -/
theorem le_padded {len : UInt32} (h : len.toNat ≤ 2 ^ 32 - 4) : len.toNat ≤ (padded len).toNat := by
  rw [padded_toNat]
  omega

theorem padded_lt (len : UInt32) : (padded len).toNat < 2 ^ 32 := by
  rw [padded_toNat]
  omega

theorem padded_wrapped {len : UInt32} (h : 2 ^ 32 - 4 < len.toNat) : padded len = 0 := by
  have hlt := len.toNat_lt
  apply UInt64.toNat_inj.mp
  rw [padded_toNat, UInt64.toNat_zero]
  omega

namespace Msg

variable (m : Msg)

theorem n_toNat : m.n.toNat = m.buf.length := by
  rw [n, UInt64.toNat_ofNat']
  exact Nat.mod_eq_of_lt (lt_trans m.small (by decide))

@[simp] theorem slice_length (i k : Nat) : (m.slice i k).length = k := by simp [slice]

theorem slice_eq {i k : Nat} (h : i + k ≤ m.buf.length) : m.slice i k = (m.buf.drop i).take k := by
  refine List.ext_getElem (by simp; omega) fun j hj _ => ?_
  rw [slice_length] at hj
  have hij : i + j < m.buf.length := by omega
  simp [slice, byte, hij]

end Msg

namespace Reader

variable {m : Msg} {r : Reader}

/-- Every byte dereferenced so far is in the message, and so is the position. -/
structure InBounds (m : Msg) (r : Reader) : Prop where
  seen : ∀ p ∈ r.seen, ∀ i, i < p.2 → p.1 + i < m.buf.length
  pos : r.pos.toNat ≤ m.buf.length

theorem InBounds.fail (h : r.InBounds m) : r.fail.InBounds m := ⟨h.seen, h.pos⟩

/-- A step over `k` bytes that the bounds check let through. -/
theorem InBounds.advance (h : r.InBounds m) {k : Nat} {pos : UInt64} (hk : r.pos.toNat + k ≤ m.buf.length)
    (hp : pos ≤ m.n) : InBounds m { r.touch k with pos } := by
  refine ⟨fun p hp i hi => ?_, ?_⟩
  · rcases List.mem_append.mp hp with hp | hp
    · exact h.seen p hp i hi
    · obtain rfl := List.mem_singleton.mp hp
      dsimp only at hi ⊢
      omega
  · rw [← m.n_toNat]
    exact UInt64.le_iff_toNat_le.mp hp

theorem pos_add_toNat (h : r.InBounds m) {k : UInt64} (hk : k.toNat < 2 ^ 63) :
    (r.pos + k).toNat = r.pos.toNat + k.toNat := by
  have h1 := h.pos
  have h2 := m.small
  rw [UInt64.toNat_add]
  exact Nat.mod_eq_of_lt (by omega)

theorem le_of_not_gt (h : r.InBounds m) {k : UInt64} (hk : k.toNat < 2 ^ 63) (hc : ¬ r.pos + k > m.n) :
    r.pos.toNat + k.toNat ≤ m.buf.length := by
  rw [gt_iff_lt, not_lt, UInt64.le_iff_toNat_le, pos_add_toNat h hk, m.n_toNat] at hc
  exact hc

theorem InBounds.u32 (h : r.InBounds m) : (r.u32 m).2.InBounds m := by
  unfold Reader.u32
  split_ifs with hc
  · exact h.fail
  · exact h.advance (le_of_not_gt h (by decide) hc) (not_lt.mp hc)

theorem InBounds.u64 (h : r.InBounds m) : (r.u64 m).2.InBounds m := by
  rw [Reader.u64]
  exact h.u32.u32

theorem InBounds.skip (h : r.InBounds m) (k : UInt64) : (r.skip m k).InBounds m := by
  unfold Reader.skip
  split_ifs with hc
  · exact h.fail
  · refine ⟨h.seen, ?_⟩
    rw [← m.n_toNat]
    exact UInt64.le_iff_toNat_le.mp (not_lt.mp hc)

theorem InBounds.skipOpaque (h : r.InBounds m) : (r.skipOpaque m).InBounds m := h.u32.skip _

theorem InBounds.skipAuth (h : r.InBounds m) : (r.skipAuth m).InBounds m := h.u32.skipOpaque

theorem InBounds.fh3 (h : r.InBounds m) : (r.fh3 m).2.InBounds m := by
  unfold Reader.fh3
  dsimp only
  split_ifs with hc
  · exact h.u32.fail
  · simp only [Bool.or_eq_true, decide_eq_true_eq, not_or] at hc
    exact h.u32.advance (le_of_not_gt h.u32 (by decide) hc.2) (not_lt.mp hc.2)

theorem InBounds.fh4 (h : r.InBounds m) : (r.fh4 m).2.InBounds m := by
  unfold Reader.fh4
  dsimp only
  split_ifs
  · exact h.u32.fail
  · have hsnap := h.u32.u64.u64
    generalize ((r.u32 m).2.u64 m).2.u64 m = x at hsnap ⊢
    exact hsnap

theorem InBounds.readCred (h : r.InBounds m) : (r.readCred m).2.InBounds m := by
  have hset : ∀ {r' : Reader} {stop : UInt64}, r'.InBounds m → ¬ stop > m.n →
      InBounds m { r' with pos := stop } := by
    intro r' stop hr' hs
    refine ⟨hr'.seen, ?_⟩
    rw [← m.n_toNat]
    exact UInt64.le_iff_toNat_le.mp (not_lt.mp hs)
  unfold Reader.readCred
  dsimp only
  split_ifs with hc
  · exact h.u32.u32.fail
  · simp only [Bool.or_eq_true, decide_eq_true_eq, not_or] at hc
    exact hset h.u32.u32.u32.skipOpaque.u32.u32 hc.2
  · simp only [Bool.or_eq_true, decide_eq_true_eq, not_or] at hc
    exact hset h.u32.u32 hc.2

theorem InBounds.words (h : r.InBounds m) (k : Nat) : (Reader.words m k r).2.InBounds m := by
  induction k generalizing r with
  | zero => exact h
  | succ k ih => exact ih h.u32

theorem InBounds.bitmap (h : r.InBounds m) : (r.bitmap m).2.InBounds m := by
  unfold Reader.bitmap
  dsimp only
  split_ifs
  · exact h.u32.fail
  · exact h.u32.words _

/-- A `str` whose length word is one of the last three has that many bytes behind it. -/
def StrFits (m : Msg) (r : Reader) : Prop :=
  r.ok = true → r.pos.toNat + 4 ≤ m.buf.length → 2 ^ 32 - 4 < (m.rd32 r.pos.toNat).toNat →
    r.pos.toNat + 4 + (m.rd32 r.pos.toNat).toNat ≤ m.buf.length

/-- `str` fails or returns the bytes that follow its length word, as many as the word says. -/
def StrExact (m : Msg) (r : Reader) : Prop :=
  (r.str m).2.ok = false ∨
    ((r.str m).1 = (m.buf.drop (r.pos.toNat + 4)).take (m.rd32 r.pos.toNat).toNat ∧
      (r.str m).1.length = (m.rd32 r.pos.toNat).toNat)

theorem u32_of_le (h : r.InBounds m) (hle : r.pos.toNat + 4 ≤ m.buf.length) :
    r.u32 m = (m.rd32 r.pos.toNat, { r.touch 4 with pos := r.pos + 4 }) := by
  have hc : ¬ r.pos + 4 > m.n := by
    rw [gt_iff_lt, not_lt, UInt64.le_iff_toNat_le, pos_add_toNat h (by decide), m.n_toNat]
    exact hle
  simp only [Reader.u32, hc, if_false]

theorem u32_end (h : r.InBounds m) (hle : r.pos.toNat + 4 ≤ m.buf.length) :
    (r.u32 m).2.pos.toNat = r.pos.toNat + 4 := by
  rw [u32_of_le h hle]
  exact pos_add_toNat h (by decide)

theorem u32_ok (h : r.InBounds m) (hok : (r.u32 m).2.ok = true) :
    r.ok = true ∧ r.pos.toNat + 4 ≤ m.buf.length := by
  unfold Reader.u32 at hok
  split_ifs at hok with hc
  · simp [Reader.fail] at hok
  · exact ⟨hok, le_of_not_gt h (by decide) hc⟩

/-- What `str` does once its checks have passed. -/
theorem str_cases (h : r.InBounds m) :
    (r.str m = ([], (r.u32 m).2.fail)) ∨
    (r.ok = true ∧ r.pos.toNat + 4 ≤ m.buf.length ∧
      r.pos.toNat + 4 + (padded (m.rd32 r.pos.toNat)).toNat ≤ m.buf.length ∧
      r.str m = (m.slice (r.pos.toNat + 4) (m.rd32 r.pos.toNat).toNat,
        { (r.u32 m).2.touch (m.rd32 r.pos.toNat).toNat with
          pos := (r.u32 m).2.pos + padded (m.rd32 r.pos.toNat) })) := by
  unfold Reader.str
  dsimp only
  split_ifs with hc
  · exact Or.inl rfl
  · right
    simp only [Bool.or_eq_true, Bool.not_eq_true', decide_eq_true_eq, not_or, Bool.not_eq_false] at hc
    obtain ⟨hok, hle⟩ := u32_ok h hc.1
    have hu := u32_of_le h hle
    have hp := u32_end h hle
    have hb := le_of_not_gt h.u32 (lt_trans (padded_lt _) (by decide)) hc.2
    rw [hp, hu] at hb
    refine ⟨hok, hle, hb, ?_⟩
    rw [hp, hu]

theorem InBounds.str (h : r.InBounds m) (hf : r.StrFits m) : (r.str m).2.InBounds m ∧ r.StrExact m := by
  rcases str_cases h with hs | ⟨hok, hle, hpad, hs⟩
  · unfold StrExact
    rw [hs]
    exact ⟨h.u32.fail, Or.inl rfl⟩
  · have hend : r.pos.toNat + 4 + (m.rd32 r.pos.toNat).toNat ≤ m.buf.length := by
      by_cases hl : (m.rd32 r.pos.toNat).toNat ≤ 2 ^ 32 - 4
      · have := le_padded hl
        omega
      · exact hf hok hle (by omega)
    have hp := u32_end h hle
    refine ⟨?_, Or.inr ?_⟩
    · rw [hs]
      refine h.u32.advance (by omega) ?_
      rw [UInt64.le_iff_toNat_le, m.n_toNat, pos_add_toNat h.u32 (lt_trans (padded_lt _) (by decide))]
      omega
    · rw [hs]
      exact ⟨m.slice_eq hend, m.slice_length ..⟩

theorem StrFits.of_exact (h : r.InBounds m) (he : r.StrExact m) : r.StrFits m := by
  intro hok hle hlen
  have hu := u32_of_le h hle
  have hpass : ¬ ((!(r.u32 m).2.ok) = true ∨ (r.u32 m).2.pos + padded (r.u32 m).1 > m.n) := by
    rw [hu]
    dsimp only
    rw [padded_wrapped hlen, UInt64.add_zero]
    have hn : ¬ r.pos + 4 > m.n := by
      rw [gt_iff_lt, not_lt, UInt64.le_iff_toNat_le, pos_add_toNat h (by decide), m.n_toNat]
      exact hle
    simpa [Reader.touch, hok] using hn
  have hstr : (r.str m).2.ok = true := by
    unfold Reader.str
    dsimp only
    rw [if_neg (by simpa using hpass), hu]
    simpa [Reader.touch] using hok
  rcases he with he | ⟨he, hl⟩
  · simp [hstr] at he
  · have := congrArg List.length he
    rw [hl, List.length_take, List.length_drop] at this
    omega

theorem InBounds.init : ({} : Reader).InBounds m := ⟨by simp, Nat.zero_le _⟩

theorem InBounds.step (h : r.InBounds m) {v : NfsVersion} {op : ReadOp v} (hf : op = .str → r.StrFits m) :
    (r.step m op).InBounds m := by
  cases op with
  | u32 => exact h.u32
  | u64 => exact h.u64
  | str => exact (h.str (hf rfl)).1
  | skip k => exact h.skip k
  | skipOpaque => exact h.skipOpaque
  | skipAuth => exact h.skipAuth
  | fh =>
    cases v with
    | v3 => exact h.fh3
    | v4 => exact h.fh4
  | readCred => exact h.readCred
  | bitmap => exact h.bitmap

/-- In every state of the run the reader has stayed inside the message, and each `str`
of the run fails or is exact. -/
def Safe (m : Msg) {v : NfsVersion} (ops : List (ReadOp v)) : Prop :=
  ∀ pre, pre <+: ops → (read m pre).InBounds m ∧ (pre ++ [.str] <+: ops → (read m pre).StrExact m)

/-- Each `str` of the run meets `StrFits` in the state it starts from. -/
def StrsFit (m : Msg) {v : NfsVersion} (ops : List (ReadOp v)) : Prop :=
  ∀ pre, pre ++ [.str] <+: ops → (read m pre).StrFits m

theorem read_inBounds {v : NfsVersion} {ops : List (ReadOp v)} (h : StrsFit m ops) {pre : List (ReadOp v)}
    (hp : pre <+: ops) : (read m pre).InBounds m := by
  induction pre using List.reverseRecOn with
  | nil => exact .init
  | append_singleton pre op ih =>
    have hpre : pre <+: ops := (List.prefix_append pre [op]).trans hp
    have hstep : read m (pre ++ [op]) = (read m pre).step m op := by simp [read]
    rw [hstep]
    refine (ih hpre).step fun hop => ?_
    subst hop
    exact h pre hp

/-- Reading never leaves the message exactly when no `str` meets a length of the last
three 32-bit values without that many bytes behind it. -/
theorem safe_iff_strsFit (m : Msg) {v : NfsVersion} (ops : List (ReadOp v)) : Safe m ops ↔ StrsFit m ops := by
  constructor
  · intro h pre hp
    obtain ⟨hb, he⟩ := h pre ((List.prefix_append pre [.str]).trans hp)
    exact .of_exact hb (he hp)
  · intro h pre hp
    have hb := read_inBounds h hp
    exact ⟨hb, fun hs => (hb.str (h pre hs)).2⟩

/-- Four bytes, all ones, and nothing else. -/
def onesMsg : Msg := ⟨[255, 255, 255, 255], fun _ => 0, by decide⟩

theorem str_leaves_message :
    ¬ Safe onesMsg (v := .v3) [.str] ∧ ¬ Safe onesMsg (v := .v4) [.str] ∧
      (4, 4294967295) ∈ (Reader.read onesMsg (v := .v3) [.str]).seen := by
  have hno : ∀ {v : NfsVersion}, ¬ Safe onesMsg (v := v) [.str] := by
    intro v h
    have hf := StrFits.of_exact .init ((h [] (List.nil_prefix)).2 (List.prefix_refl _))
    exact absurd (hf rfl (by decide) (by decide)) (by decide)
  exact ⟨hno, hno, by decide⟩

end Reader

end Prfs
