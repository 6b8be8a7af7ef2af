import Prfs.XdrBytes
import Prfs.XdrSafety

namespace Prfs

/-- Four bytes in one word, by shifts and by place value. -/
theorem or_shifts_toNat (a b c d : UInt8) :
    (a.toUInt32 <<< 24 ||| b.toUInt32 <<< 16 ||| c.toUInt32 <<< 8 ||| d.toUInt32).toNat = ofBE [a, b, c, d] := by
  have ha := a.toNat_lt
  have hb := b.toNat_lt
  have hc := c.toNat_lt
  have hd := d.toNat_lt
  have h8 : c.toNat <<< 8 ||| d.toNat = c.toNat <<< 8 + d.toNat := (Nat.shiftLeft_add_eq_or_of_lt hd _).symm
  have h16 : b.toNat <<< 16 ||| (c.toNat <<< 8 + d.toNat) = b.toNat <<< 16 + (c.toNat <<< 8 + d.toNat) :=
    (Nat.shiftLeft_add_eq_or_of_lt (by rw [Nat.shiftLeft_eq]; omega) _).symm
  have h24 : a.toNat <<< 24 ||| (b.toNat <<< 16 + (c.toNat <<< 8 + d.toNat)) =
      a.toNat <<< 24 + (b.toNat <<< 16 + (c.toNat <<< 8 + d.toNat)) :=
    (Nat.shiftLeft_add_eq_or_of_lt (by rw [Nat.shiftLeft_eq, Nat.shiftLeft_eq]; omega) _).symm
  have hfits : ∀ x i : Nat, x < 256 → i ≤ 24 → x <<< i % 2 ^ 32 = x <<< i := by
    intro x i hx hi
    rw [Nat.shiftLeft_eq]
    refine Nat.mod_eq_of_lt ?_
    calc x * 2 ^ i < 2 ^ 8 * 2 ^ i := Nat.mul_lt_mul_of_pos_right hx (by positivity)
      _ ≤ 2 ^ 8 * 2 ^ 24 := Nat.mul_le_mul_left _ (Nat.pow_le_pow_right (by decide) hi)
  simp only [UInt32.toNat_or, UInt32.toNat_shiftLeft, UInt8.toNat_toUInt32, UInt32.reduceToNat, Nat.reduceMod]
  rw [hfits _ _ ha (by decide), hfits _ _ hb (by decide), hfits _ _ hc (by decide), Nat.or_assoc, Nat.or_assoc, h8, h16, h24]
  simp only [Nat.shiftLeft_eq, ofBE, List.foldl]
  omega

/-- Two words in one, the upper one first. -/
theorem or_words_toNat (hi lo : UInt32) : (hi.toUInt64 <<< 32 ||| lo.toUInt64).toNat = hi.toNat * 2 ^ 32 + lo.toNat := by
  have hh := hi.toNat_lt
  have hl := lo.toNat_lt
  have hor : hi.toNat <<< 32 ||| lo.toNat = hi.toNat <<< 32 + lo.toNat := (Nat.shiftLeft_add_eq_or_of_lt hl _).symm
  have hfits : hi.toNat <<< 32 % 2 ^ 64 = hi.toNat <<< 32 := by
    rw [Nat.shiftLeft_eq]
    omega
  simp only [UInt64.toNat_or, UInt64.toNat_shiftLeft, UInt32.toNat_toUInt64, UInt64.reduceToNat, Nat.reduceMod]
  rw [hfits, hor, Nat.shiftLeft_eq]

theorem words_of_double (x : UInt64) : (x >>> 32).toUInt32.toUInt64 <<< 32 ||| x.toUInt32.toUInt64 = x := by
  have hx := x.toNat_lt
  apply UInt64.toNat_inj.mp
  rw [or_words_toNat]
  simp only [UInt64.toNat_toUInt32, UInt64.toNat_shiftRight, UInt64.reduceToNat, Nat.reduceMod, Nat.shiftRight_eq_div_pow]
  omega

theorem be_words (x : UInt64) : be x = word (x >>> 32).toUInt32 ++ word x.toUInt32 := by
  exact (congrArg Writer.v (Writer.u64_eq {} x)).symm

namespace Reader

variable {m : Msg} {r : Reader} {bs : Bytes}

/-- The position is in the message, and these bytes come next. -/
structure Ahead (m : Msg) (r : Reader) (bs : Bytes) : Prop where
  pos : r.pos.toNat ≤ m.buf.length
  next : bs <+: m.buf.drop r.pos.toNat

theorem Ahead.length (h : r.Ahead m bs) : r.pos.toNat + bs.length ≤ m.buf.length := by
  have hle := h.next.length_le
  have hpos := h.pos
  rw [List.length_drop] at hle
  omega

theorem Ahead.left {cs : Bytes} (h : r.Ahead m (bs ++ cs)) : r.Ahead m bs :=
  ⟨h.pos, (List.prefix_append bs cs).trans h.next⟩

theorem Ahead.byte (h : r.Ahead m bs) {i : Nat} (hi : i < bs.length) : m.byte (r.pos.toNat + i) = bs[i] := by
  obtain ⟨rest, hrest⟩ := h.next
  have hget : (m.buf.drop r.pos.toNat)[i]? = some bs[i] := by
    rw [← hrest, List.getElem?_append_left hi, List.getElem?_eq_getElem hi]
  rw [List.getElem?_drop] at hget
  rw [Msg.byte, List.getD_eq_getElem?_getD, hget, Option.getD_some]

/-- A step over the first of the bytes ahead. -/
theorem Ahead.advance (p : Bytes) (h : r.Ahead m (p ++ bs)) {r' : Reader} (hr : r'.pos.toNat = r.pos.toNat + p.length) :
    r'.Ahead m bs := by
  have hlen := h.length
  rw [List.length_append] at hlen
  refine ⟨by omega, ?_⟩
  obtain ⟨rest, hrest⟩ := h.next
  rw [hr, ← List.drop_drop, ← hrest, List.append_assoc, List.drop_left]
  exact List.prefix_append bs rest

theorem Ahead.toNat_add (h : r.Ahead m bs) {k : UInt64} (hk : k.toNat = bs.length) :
    (r.pos + k).toNat = r.pos.toNat + bs.length ∧ ¬ r.pos + k > m.n := by
  have hlen := h.length
  have hsmall := m.small
  have hadd : (r.pos + k).toNat = r.pos.toNat + bs.length := by
    rw [UInt64.toNat_add, hk]
    exact Nat.mod_eq_of_lt (by omega)
  refine ⟨hadd, ?_⟩
  rw [gt_iff_lt, not_lt, UInt64.le_iff_toNat_le, hadd, m.n_toNat]
  exact hlen

theorem Ahead.rd32 {x : UInt32} (h : r.Ahead m (word x)) : m.rd32 r.pos.toNat = x := by
  have hx : x.toNat < 256 ^ 4 := by simpa using x.toNat_lt
  have hlen : (word x).length = 4 := rfl
  have h0 : m.byte r.pos.toNat = _ := h.byte (i := 0) (by omega)
  have h1 := h.byte (i := 1) (by omega)
  have h2 := h.byte (i := 2) (by omega)
  have h3 := h.byte (i := 3) (by omega)
  apply UInt32.toNat_inj.mp
  rw [Msg.rd32, h0, h1, h2, h3, or_shifts_toNat]
  exact (congrArg ofBE (word_eq x)).trans (ofBE_toBE hx)

theorem Ahead.u32 {x : UInt32} (h : r.Ahead m (word x ++ bs)) :
    (r.u32 m).1 = x ∧ (r.u32 m).2.Ahead m bs ∧ (r.u32 m).2.ok = r.ok := by
  obtain ⟨hadd, hle⟩ := h.left.toNat_add (k := 4) rfl
  unfold Reader.u32
  rw [if_neg hle]
  exact ⟨h.left.rd32, h.advance _ hadd, rfl⟩

theorem Ahead.u64 {x : UInt64} (h : r.Ahead m (be x ++ bs)) :
    (r.u64 m).1 = x ∧ (r.u64 m).2.Ahead m bs ∧ (r.u64 m).2.ok = r.ok := by
  rw [be_words, List.append_assoc] at h
  obtain ⟨hhi, h1, hok1⟩ := h.u32
  obtain ⟨hlo, h2, hok2⟩ := h1.u32
  rw [Reader.u64]
  dsimp only
  rw [hhi, hlo, words_of_double]
  exact ⟨rfl, h2, hok2.trans hok1⟩

theorem Ahead.u32_pos {x : UInt32} (h : r.Ahead m (word x ++ bs)) : (r.u32 m).2.pos.toNat = r.pos.toNat + 4 := by
  obtain ⟨hadd, hle⟩ := h.left.toNat_add (k := 4) rfl
  unfold Reader.u32
  rw [if_neg hle]
  exact hadd

theorem Ahead.u64_pos {x : UInt64} (h : r.Ahead m (be x ++ bs)) : (r.u64 m).2.pos.toNat = r.pos.toNat + 8 := by
  rw [be_words, List.append_assoc] at h
  have h1 := h.u32_pos
  have h2 := h.u32.2.1.u32_pos
  rw [Reader.u64]
  dsimp only
  omega

theorem Ahead.rd64 {x : UInt64} (h : r.Ahead m (be x)) : m.rd64 r.pos.toNat = x := by
  rw [be_words] at h
  have hadd : (r.pos + 4).toNat = r.pos.toNat + 4 := (h.left.toNat_add (k := 4) rfl).1
  have hlo : Ahead m { r with pos := r.pos + 4 } (word x.toUInt32) := by
    exact Ahead.advance _ h hadd
  rw [Msg.rd64, h.left.rd32, ← hadd, hlo.rd32, words_of_double]

/-- A handle as it is written. -/
def handle (id snap : UInt64) : Bytes := word 16 ++ (be id ++ be snap)

theorem Ahead.fh3 {id snap : UInt64} (h : r.Ahead m (handle id snap ++ bs)) (hok : r.ok = true) :
    ∃ r', r.fh3 m = (some (id, snap), r') ∧ r'.Ahead m bs ∧ r'.ok = true ∧ r'.pos.toNat = r.pos.toNat + 20 := by
  rw [handle, List.append_assoc] at h
  have hpos := h.u32_pos
  obtain ⟨hlen, h1, hok1⟩ := h.u32
  obtain ⟨hadd, hle⟩ := h1.left.toNat_add (k := 16) (by simp)
  have hid : m.rd64 (r.u32 m).2.pos.toNat = id := h1.left.left.rd64
  have hsnap : m.rd64 ((r.u32 m).2.pos.toNat + 8) = snap := by
    obtain ⟨hadd8, -⟩ := h1.left.left.toNat_add (k := 8) (by simp)
    rw [be_length] at hadd8
    have h8 : Ahead m { (r.u32 m).2 with pos := (r.u32 m).2.pos + 8 } (be snap) := by
      refine Ahead.advance (be id) h1.left ?_
      rw [be_length]
      exact hadd8
    have hrd := h8.rd64
    dsimp only at hrd
    rw [← hadd8]
    exact hrd
  unfold Reader.fh3
  dsimp only
  rw [hok1, hok, hlen, hid, hsnap, if_neg (by simpa using hle)]
  rw [List.length_append, be_length, be_length] at hadd
  refine ⟨_, rfl, ?_, hok1.trans hok, ?_⟩
  · refine Ahead.advance (be id ++ be snap) h1 ?_
    rw [List.length_append, be_length, be_length]
    exact hadd
  · dsimp only
    omega

theorem Ahead.fh4 {id snap : UInt64} (h : r.Ahead m (handle id snap ++ bs)) (hok : r.ok = true) :
    ∃ r', r.fh4 m = (some (id, snap), r') ∧ r'.Ahead m bs ∧ r'.ok = true ∧ r'.pos.toNat = r.pos.toNat + 20 := by
  rw [handle, List.append_assoc] at h
  have hpos := h.u32_pos
  obtain ⟨hlen, h1, hok1⟩ := h.u32
  obtain ⟨-, hle⟩ := h1.left.toNat_add (k := 16) (by simp)
  rw [List.append_assoc] at h1
  have hpos1 := h1.u64_pos
  obtain ⟨hid, h2, hok2⟩ := h1.u64
  have hpos2 := h2.u64_pos
  obtain ⟨hsnap, h3, hok3⟩ := h2.u64
  unfold Reader.fh4
  dsimp only
  rw [hok1, hok, hlen, hid, hsnap, if_neg (by simpa using hle)]
  refine ⟨_, rfl, h3, ?_, ?_⟩
  · rw [hok3, hok2, hok1, hok]
  · omega

end Reader

end Prfs
