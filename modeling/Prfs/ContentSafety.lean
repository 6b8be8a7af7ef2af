import Prfs.Content

namespace Prfs

namespace Content

variable {gen : IRng}

theorem genLoop_terminates {bs bl bh : UInt32} {key : UInt32 × UInt32} {K fuel : Nat} {off g : UInt32}
    {buf : Bytes} (hbs : bs.toNat ≤ 2 ^ 32 - 16) (hf : bs.toNat ≤ off.toNat + 16 * fuel) :
    ∃ out, genLoop gen bs bl bh key K (fuel + 1) off g buf = some out := by
  induction fuel generalizing off g buf with
  | zero =>
    have hno : ¬ off < bs := by
      rw [UInt32.lt_iff_toNat_lt]
      omega
    exact ⟨buf, by rw [genLoop, if_neg hno]⟩
  | succ fuel ih =>
    rw [genLoop]
    split_ifs with hlt
    · rw [UInt32.lt_iff_toNat_lt] at hlt
      have hadd : (off + 16).toNat = off.toNat + 16 := by
        rw [UInt32.toNat_add]
        exact Nat.mod_eq_of_lt (by simp only [UInt32.toNat_ofNat]; omega)
      exact ih (by omega)
    · exact ⟨buf, rfl⟩

/-- Past the last multiple of sixteen the offset comes round to zero again. -/
theorem genLoop_diverges {bs bl bh : UInt32} {key : UInt32 × UInt32} {K fuel : Nat} {off g : UInt32}
    {buf : Bytes} (hbs : 2 ^ 32 - 16 < bs.toNat) (hoff : off.toNat % 16 = 0) :
    genLoop gen bs bl bh key K fuel off g buf = none := by
  induction fuel generalizing off g buf with
  | zero => rfl
  | succ fuel ih =>
    have hoff' := off.toNat_lt
    have hlt : off < bs := by
      rw [UInt32.lt_iff_toNat_lt]
      omega
    rw [genLoop, if_pos hlt]
    refine ih ?_
    rw [UInt32.toNat_add]
    simp only [UInt32.toNat_ofNat]
    omega

theorem genBlock_terminates {c : ContentConfig} {seed b : UInt64}
    (h : c.blockSize.toNat ≤ 2 ^ 32 - 16 ∨ isHole c seed b = true) {fuel : Nat}
    (hf : c.blockSize.toNat < fuel) (K : Nat) (buf : Bytes) :
    ∃ out, genBlock gen fuel c seed b K buf = some out := by
  unfold genBlock
  split_ifs with hh
  · exact ⟨_, rfl⟩
  · obtain ⟨fuel, rfl⟩ : ∃ k, fuel = k + 1 := ⟨fuel - 1, by omega⟩
    exact genLoop_terminates (h.resolve_right hh) (by simp only [UInt32.toNat_zero]; omega)

theorem genBlock_diverges {c : ContentConfig} {seed b : UInt64} (hbs : 2 ^ 32 - 16 < c.blockSize.toNat)
    (hh : isHole c seed b = false) (fuel K : Nat) (buf : Bytes) : genBlock gen fuel c seed b K buf = none := by
  unfold genBlock
  rw [hh]
  exact genLoop_diverges hbs rfl

section Loop

variable {block : UInt64 → Bytes → Option Bytes} {bs offset stop last : UInt64}

theorem succ_toNat {b : UInt64} (hb : b ≤ last) (hlast : last.toNat < 2 ^ 64 - 1) :
    (b + 1).toNat = b.toNat + 1 := by
  rw [UInt64.le_iff_toNat_le] at hb
  rw [UInt64.toNat_add]
  exact Nat.mod_eq_of_lt (by simp only [UInt64.toNat_one]; omega)

theorem blockLoop_terminates (hlast : last.toNat < 2 ^ 64 - 1) {fuel : Nat} {b : UInt64} {buf : Bytes}
    (hf : last.toNat + 1 ≤ b.toNat + fuel)
    (hblock : ∀ x, b ≤ x → x ≤ last → ∀ buf, ∃ out, block x buf = some out) :
    ∃ cs, blockLoop block bs offset stop last (fuel + 1) b buf = some cs := by
  induction fuel generalizing b buf with
  | zero =>
    have hno : ¬ b ≤ last := by
      rw [UInt64.le_iff_toNat_le]
      omega
    exact ⟨[], by rw [blockLoop, if_neg hno]⟩
  | succ fuel ih =>
    rw [blockLoop]
    split_ifs with hb
    · obtain ⟨out, hout⟩ := hblock b le_rfl hb buf
      have hs := succ_toNat hb hlast
      obtain ⟨cs, hcs⟩ := @ih (b + 1) out (by omega) (fun x hx => hblock x (by
        rw [UInt64.le_iff_toNat_le] at hx ⊢
        omega))
      exact ⟨_, by rw [hout]; dsimp only; rw [hcs, Option.map_some]⟩
    · exact ⟨[], rfl⟩

/-- A loop that returns has generated and copied every block of its range, and nothing else. -/
theorem blockLoop_copies (hlast : last.toNat < 2 ^ 64 - 1) {fuel : Nat} {b : UInt64} {buf : Bytes}
    {cs : List Copy} (h : blockLoop block bs offset stop last fuel b buf = some cs) :
    (∀ x, b ≤ x → x ≤ last → ∃ i o, block x i = some o ∧ copyOf bs offset stop x o ∈ cs) ∧
      ∀ y ∈ cs, ∃ x o, b ≤ x ∧ x ≤ last ∧ y = copyOf bs offset stop x o := by
  induction fuel generalizing b buf cs with
  | zero => simp [blockLoop] at h
  | succ fuel ih =>
    rw [blockLoop] at h
    split_ifs at h with hb
    · cases hout : block b buf with
      | none => simp [hout] at h
      | some out =>
        simp only [hout, Option.map_eq_some_iff] at h
        obtain ⟨rest, hrest, rfl⟩ := h
        obtain ⟨h1, h2⟩ := ih hrest
        have hs := succ_toNat hb hlast
        refine ⟨fun x hx hxl => ?_, fun y hy => ?_⟩
        · by_cases hxb : x = b
          · subst hxb
            exact ⟨buf, out, hout, by simp⟩
          · have hle : b + 1 ≤ x := by
              have hne : x.toNat ≠ b.toNat := fun he => hxb (UInt64.toNat_inj.mp he)
              rw [UInt64.le_iff_toNat_le] at hx ⊢
              omega
            obtain ⟨i, o, ho, hm⟩ := h1 x hle hxl
            exact ⟨i, o, ho, List.mem_cons_of_mem _ hm⟩
        · rcases List.mem_cons.mp hy with rfl | hy
          · exact ⟨b, out, le_rfl, hb, rfl⟩
          · obtain ⟨x, o, hx, hxl, rfl⟩ := h2 y hy
            refine ⟨x, o, ?_, hxl, rfl⟩
            rw [UInt64.le_iff_toNat_le] at hx ⊢
            omega
    · obtain rfl : [] = cs := Option.some.inj h
      refine ⟨fun x hx hxl => absurd (le_trans hx hxl) hb, by simp⟩

end Loop

theorem toNat_max (a b : UInt64) : (max a b).toNat = max a.toNat b.toNat := by
  rcases le_total a b with h | h
  · rw [max_eq_right h, max_eq_right (UInt64.le_iff_toNat_le.mp h)]
  · rw [max_eq_left h, max_eq_left (UInt64.le_iff_toNat_le.mp h)]

theorem toNat_min (a b : UInt64) : (min a b).toNat = min a.toNat b.toNat := by
  rcases le_total a b with h | h
  · rw [min_eq_left h, min_eq_left (UInt64.le_iff_toNat_le.mp h)]
  · rw [min_eq_right h, min_eq_right (UInt64.le_iff_toNat_le.mp h)]

theorem toNat_sub_mod (a b : UInt64) : (a - b).toNat = (a.toNat + (2 ^ 64 - b.toNat)) % 2 ^ 64 := by
  rw [UInt64.toNat_sub, Nat.add_comm]

/-- The block size `read` works with. -/
def blockBytes (c : ContentConfig) : Nat := max c.blockSize.toNat 1

theorem blockBytes_pos (c : ContentConfig) : 0 < blockBytes c := by
  unfold blockBytes
  omega

section Span

variable {bs offset stop b : UInt64}

theorem copyOf_toNat (offset stop : UInt64) (block : Bytes) (hb : b.toNat * bs.toNat < 2 ^ 64) :
    (copyOf bs offset stop b block).dst.toNat =
      (max offset.toNat (b.toNat * bs.toNat) + (2 ^ 64 - offset.toNat)) % 2 ^ 64 ∧
    (copyOf bs offset stop b block).count.toNat =
      (min stop.toNat ((b.toNat * bs.toNat + bs.toNat) % 2 ^ 64) +
        (2 ^ 64 - max offset.toNat (b.toNat * bs.toNat))) % 2 ^ 64 := by
  have hmul : (b * bs).toNat = b.toNat * bs.toNat := by
    rw [UInt64.toNat_mul]
    exact Nat.mod_eq_of_lt hb
  simp only [copyOf, toNat_sub_mod, toNat_max, toNat_min, UInt64.toNat_add, hmul, and_self]

/-- Where the block ends below 2^64 and meets the range, none of the three differences wraps. -/
theorem copyOf_fits (block : Bytes) (hb : b.toNat * bs.toNat < stop.toNat)
    (ho : offset.toNat < (b.toNat + 1) * bs.toNat) (hos : offset.toNat < stop.toNat) (hfit : (b.toNat + 1) * bs.toNat < 2 ^ 64) :
    (copyOf bs offset stop b block).dst.toNat = max offset.toNat (b.toNat * bs.toNat) - offset.toNat ∧
    (copyOf bs offset stop b block).src.toNat = max offset.toNat (b.toNat * bs.toNat) - b.toNat * bs.toNat ∧
    (copyOf bs offset stop b block).count.toNat =
      min stop.toNat ((b.toNat + 1) * bs.toNat) - max offset.toNat (b.toNat * bs.toNat) := by
  have hstop := stop.toNat_lt
  have hmul : (b * bs).toNat = b.toNat * bs.toNat := by
    rw [UInt64.toNat_mul]
    exact Nat.mod_eq_of_lt (lt_trans hb hstop)
  obtain ⟨hd, hc⟩ := copyOf_toNat offset stop block (lt_trans hb hstop)
  have hs : (copyOf bs offset stop b block).src.toNat =
      (max offset.toNat (b.toNat * bs.toNat) + (2 ^ 64 - b.toNat * bs.toNat)) % 2 ^ 64 := by
    simp only [copyOf, toNat_sub_mod, toNat_max, hmul]
  rw [Nat.add_mul, Nat.one_mul] at ho hfit ⊢
  rw [hd, hs, hc]
  generalize b.toNat * bs.toNat = start at *
  exact ⟨by omega, by omega, by omega⟩

/-- A block that ends below 2^64 is copied to inside the range. -/
theorem copyOf_inside (block : Bytes) (hb : b.toNat * bs.toNat < stop.toNat)
    (ho : offset.toNat < (b.toNat + 1) * bs.toNat) (hos : offset.toNat < stop.toNat) (hfit : (b.toNat + 1) * bs.toNat < 2 ^ 64) :
    (copyOf bs offset stop b block).dst.toNat + (copyOf bs offset stop b block).count.toNat ≤
      stop.toNat - offset.toNat := by
  obtain ⟨hd, -, hc⟩ := copyOf_fits block hb ho hos hfit
  rw [hd, hc]
  omega

/-- The end of a block that reaches 2^64 wraps below its start, and the copy runs past the range. -/
theorem copyOf_overruns (block : Bytes) (hb : b.toNat * bs.toNat < stop.toNat)
    (hos : offset.toNat < stop.toNat) (hover : 2 ^ 64 ≤ (b.toNat + 1) * bs.toNat) (hbs : bs.toNat < 2 ^ 32) :
    0 < (copyOf bs offset stop b block).count.toNat ∧ stop.toNat - offset.toNat <
      (copyOf bs offset stop b block).dst.toNat + (copyOf bs offset stop b block).count.toNat := by
  have hstop := stop.toNat_lt
  obtain ⟨hd, hc⟩ := copyOf_toNat offset stop block (lt_trans hb hstop)
  rw [hd, hc]
  rw [Nat.add_mul, Nat.one_mul] at hover
  generalize b.toNat * bs.toNat = start at *
  omega

end Span

/-- The read returns, copies only into the part of the output it reports, and reports
what is left of the file. -/
def ReadsWithin (gen : IRng) (c : ContentConfig) (seed size offset len : UInt64) : Prop :=
  (∃ fuel res, read gen fuel c seed size offset len = some res) ∧
  ∀ fuel res, read gen fuel c seed size offset len = some res →
    (∀ y ∈ res.copies, ∀ i < y.count.toNat, y.dst.toNat + i < res.ret.toNat) ∧
    res.ret.toNat = min len.toNat (size.toNat - offset.toNat)

/-- The range and the block that holds its last byte end below 2^64, and blocks larger
than a 32-bit offset can step through are all holes. -/
def RangeFits (c : ContentConfig) (seed size offset len : UInt64) : Prop :=
  offset.toNat + len.toNat < 2 ^ 64 ∧
  ((min (offset.toNat + len.toNat) size.toNat - 1) / blockBytes c + 1) * blockBytes c < 2 ^ 64 ∧
  (c.blockSize.toNat ≤ 2 ^ 32 - 16 ∨ ∀ b : UInt64, offset.toNat / blockBytes c ≤ b.toNat →
    b.toNat ≤ (min (offset.toNat + len.toNat) size.toNat - 1) / blockBytes c → isHole c seed b = true)

section Read

variable {c : ContentConfig} {seed size offset len : UInt64}

theorem blockBytes_toNat (c : ContentConfig) :
    (if c.blockSize ≠ 0 then c.blockSize else 1 : UInt32).toUInt64.toNat = blockBytes c := by
  unfold blockBytes
  split_ifs with h
  · have hne : c.blockSize.toNat ≠ 0 := fun he => h (UInt32.toNat_inj.mp he)
    rw [UInt32.toNat_toUInt64]
    omega
  · rw [not_not] at h
    simp [h]

theorem blockBytes_lt (c : ContentConfig) : blockBytes c < 2 ^ 32 := by
  have := c.blockSize.toNat_lt
  unfold blockBytes
  omega

/-- A read whose range does not wrap runs its loop over the blocks of the range. -/
theorem read_eq (gen : IRng) (c : ContentConfig) (seed : UInt64) (hin : offset.toNat < size.toNat) (hlen : 0 < len.toNat) :
    ∃ bs stop first last : UInt64, bs.toNat = blockBytes c ∧
      stop.toNat = min ((offset.toNat + len.toNat) % 2 ^ 64) size.toNat ∧
      first.toNat = offset.toNat / blockBytes c ∧
      last.toNat = (stop.toNat + (2 ^ 64 - 1)) % 2 ^ 64 / blockBytes c ∧
      ∀ fuel, read gen fuel c seed size offset len =
        (blockLoop (fun b buf => genBlock gen fuel c seed b (alphabet c.entropy) buf) bs offset stop last fuel
          first (List.replicate (blockBytes c) 0)).map (fun cs => ⟨stop - offset, cs⟩) := by
  have hbs := blockBytes_toNat c
  have hrep : (if c.blockSize ≠ 0 then c.blockSize else 1 : UInt32).toNat = blockBytes c := by
    rw [← hbs, UInt32.toNat_toUInt64]
  refine ⟨_, min (offset + len) size, offset / (if c.blockSize ≠ 0 then c.blockSize else 1 : UInt32).toUInt64,
    (min (offset + len) size - 1) / (if c.blockSize ≠ 0 then c.blockSize else 1 : UInt32).toUInt64, hbs,
    ?_, ?_, ?_, fun fuel => ?_⟩
  · rw [toNat_min, UInt64.toNat_add]
  · rw [UInt64.toNat_div, hbs]
  · rw [UInt64.toNat_div, hbs, toNat_sub_mod, UInt64.toNat_one]
  · have hno : ¬ (size ≤ offset ∨ len = 0) := by
      rintro (h | rfl)
      · rw [UInt64.le_iff_toNat_le] at h
        omega
      · simp at hlen
    unfold read
    rw [if_neg hno]
    simp only [hrep]

theorem readsWithin_of_empty (h : size.toNat ≤ offset.toNat ∨ len = 0) :
    ReadsWithin gen c seed size offset len := by
  have hread : ∀ fuel, read gen fuel c seed size offset len = some ⟨0, []⟩ := by
    intro fuel
    unfold read
    rw [if_pos]
    exact h.imp_left UInt64.le_iff_toNat_le.mpr
  refine ⟨⟨0, _, hread 0⟩, fun fuel res hres => ?_⟩
  rw [hread] at hres
  obtain rfl := Option.some.inj hres
  refine ⟨by simp, ?_⟩
  rcases h with h | rfl
  · simp
    omega
  · simp

/-- The loop of a read whose range does not wrap. -/
theorem read_span (gen : IRng) (c : ContentConfig) (seed : UInt64) (hin : offset.toNat < size.toNat)
    (hlen : 0 < len.toNat) (hrange : offset.toNat + len.toNat < 2 ^ 64) :
    ∃ bs stop first last : UInt64, bs.toNat = blockBytes c ∧
      stop.toNat = min (offset.toNat + len.toNat) size.toNat ∧
      first.toNat = offset.toNat / blockBytes c ∧ last.toNat = (stop.toNat - 1) / blockBytes c ∧
      last.toNat * blockBytes c < stop.toNat ∧ last.toNat < 2 ^ 64 - 1 ∧
      (stop - offset).toNat = min len.toNat (size.toNat - offset.toNat) ∧
      ∀ fuel, read gen fuel c seed size offset len =
        (blockLoop (fun b buf => genBlock gen fuel c seed b (alphabet c.entropy) buf) bs offset stop last fuel
          first (List.replicate (blockBytes c) 0)).map (fun cs => ⟨stop - offset, cs⟩) := by
  obtain ⟨bs, stop, first, last, hbs, hstop, hfirst, hlast, hread⟩ :=
    read_eq gen c seed hin hlen
  have hstopLt := stop.toNat_lt
  have hpos := blockBytes_pos c
  rw [Nat.mod_eq_of_lt hrange] at hstop
  have hlast' : last.toNat = (stop.toNat - 1) / blockBytes c := by
    rw [hlast, show (stop.toNat + (2 ^ 64 - 1)) % 2 ^ 64 = stop.toNat - 1 by omega]
  have hlastMul : last.toNat * blockBytes c ≤ stop.toNat - 1 := by
    rw [hlast']
    exact Nat.div_mul_le_self ..
  have hlastLe := Nat.le_mul_of_pos_right last.toNat hpos
  refine ⟨bs, stop, first, last, hbs, hstop, hfirst, hlast', by omega, by omega, ?_, hread⟩
  rw [UInt64.toNat_sub_of_le _ _ (UInt64.le_iff_toNat_le.mpr (by omega))]
  omega

theorem RangeFits.readsWithin (h : RangeFits c seed size offset len) (hin : offset.toNat < size.toNat)
    (hlen : 0 < len.toNat) : ReadsWithin gen c seed size offset len := by
  obtain ⟨hrange, hblock, hgen⟩ := h
  obtain ⟨bs, stop, first, last, hbs, hstop, hfirst, hlast, hmul, hlt, hret, hread⟩ :=
    read_span gen c seed hin hlen hrange
  rw [← hstop, ← hlast] at hblock hgen
  refine ⟨⟨last.toNat + c.blockSize.toNat + 1 + 1, ?_⟩, fun fuel res hres => ?_⟩
  · obtain ⟨cs, hcs⟩ : ∃ cs, blockLoop (fun b buf => genBlock gen (last.toNat + c.blockSize.toNat + 1 + 1) c seed b
        (alphabet c.entropy) buf) bs offset stop last (last.toNat + c.blockSize.toNat + 1 + 1) first
        (List.replicate (blockBytes c) 0) = some cs := by
      refine blockLoop_terminates hlt (by omega) fun x hx hxl buf => genBlock_terminates ?_ (by omega) _ buf
      exact hgen.imp_right fun hh => hh x (by rwa [← hfirst, ← UInt64.le_iff_toNat_le])
        (UInt64.le_iff_toNat_le.mp hxl)
    exact ⟨_, by rw [hread, hcs, Option.map_some]⟩
  · rw [hread, Option.map_eq_some_iff] at hres
    obtain ⟨cs, hcs, rfl⟩ := hres
    refine ⟨fun y hy i hi => ?_, hret⟩
    obtain ⟨x, o, hx, hxl, rfl⟩ := (blockLoop_copies hlt hcs).2 y hy
    rw [UInt64.le_iff_toNat_le] at hx hxl
    have hxmul : x.toNat * bs.toNat ≤ last.toNat * bs.toNat := Nat.mul_le_mul_right _ hxl
    have hsucc : (x.toNat + 1) * bs.toNat ≤ (last.toNat + 1) * bs.toNat :=
      Nat.mul_le_mul_right _ (by omega)
    have hoff : offset.toNat < (x.toNat + 1) * bs.toNat := by
      rw [hbs]
      refine (Nat.div_lt_iff_lt_mul (blockBytes_pos c)).mp ?_
      omega
    have hin' := copyOf_inside o (by rw [hbs] at hxmul ⊢; omega : x.toNat * bs.toNat < stop.toNat) hoff (by omega)
      (by rw [hbs] at hsucc ⊢; omega)
    rw [← UInt64.toNat_sub_of_le _ _ (UInt64.le_iff_toNat_le.mpr (by omega))] at hin'
    dsimp only
    omega

theorem RangeFits.of_readsWithin (h : ReadsWithin gen c seed size offset len)
    (hin : offset.toNat < size.toNat) (hlen : 0 < len.toNat) : RangeFits c seed size offset len := by
  obtain ⟨⟨fuel, res, hres⟩, hall⟩ := h
  obtain ⟨hcopies, hret⟩ := hall fuel res hres
  have hrange : offset.toNat + len.toNat < 2 ^ 64 := by
    by_contra hwrap
    obtain ⟨bs, stop, first, last, -, hstop, -, -, hread⟩ :=
      read_eq gen c seed hin hlen
    rw [hread, Option.map_eq_some_iff] at hres
    obtain ⟨cs, -, rfl⟩ := hres
    have hl := len.toNat_lt
    have ho := offset.toNat_lt
    have hs := size.toNat_lt
    rw [toNat_sub_mod] at hret
    omega
  obtain ⟨bs, stop, first, last, hbs, hstop, hfirst, hlast, hmul, hlt, hret', hread⟩ :=
    read_span gen c seed hin hlen hrange
  have hbsLt := blockBytes_lt c
  rw [hread, Option.map_eq_some_iff] at hres
  obtain ⟨cs, hcs, rfl⟩ := hres
  have hloop := (blockLoop_copies hlt hcs).1
  have hle : first ≤ last := by
    rw [UInt64.le_iff_toNat_le, hfirst, hlast]
    exact Nat.div_le_div_right (by omega)
  refine ⟨hrange, ?_, ?_⟩
  · rw [← hstop, ← hlast]
    by_contra hover
    obtain ⟨-, o, -, hm⟩ := hloop last hle le_rfl
    obtain ⟨hpos, hrun⟩ := copyOf_overruns o (by rw [hbs]; exact hmul : last.toNat * bs.toNat < stop.toNat)
      (by omega : offset.toNat < stop.toNat) (by rw [hbs]; omega) (by omega)
    have hend := hcopies _ hm ((copyOf bs offset stop last o).count.toNat - 1) (by omega)
    dsimp only at hend hret
    omega
  · rw [← hstop, ← hlast, or_iff_not_imp_left]
    intro hbig b hb hbl
    by_contra hh
    obtain ⟨i, o, ho, -⟩ := hloop b (UInt64.le_iff_toNat_le.mpr (by omega)) (UInt64.le_iff_toNat_le.mpr hbl)
    rw [genBlock_diverges (by omega) (by simpa using hh)] at ho
    simp at ho

end Read

/-- `read` stays inside its output and the file exactly when the range is empty or
its end, the end of its last block and the offsets in a block do not wrap. -/
theorem readsWithin_iff (gen : IRng) (c : ContentConfig) (seed size offset len : UInt64) :
    ReadsWithin gen c seed size offset len ↔
      size ≤ offset ∨ len = 0 ∨ RangeFits c seed size offset len := by
  by_cases he : size.toNat ≤ offset.toNat ∨ len = 0
  · refine iff_of_true (readsWithin_of_empty he) ?_
    rcases he with he | he
    · exact Or.inl (UInt64.le_iff_toNat_le.mpr he)
    · exact Or.inr (Or.inl he)
  · rw [not_or, not_le] at he
    have hlen : 0 < len.toNat := Nat.pos_of_ne_zero fun h0 => he.2 (UInt64.toNat_inj.mp h0)
    constructor
    · exact fun h => Or.inr (Or.inr (.of_readsWithin h he.1 hlen))
    · rintro (hs | hl | hf)
      · exact absurd (UInt64.le_iff_toNat_le.mp hs) (by omega)
      · exact absurd hl he.2
      · exact hf.readsWithin he.1 hlen

/-- The last byte but one of a file of 2^64 - 1 bytes, under the default policy. -/
theorem read_overruns_last_block :
    ¬ ReadsWithin (fun _ _ => ⟨0, 0, 0, 0⟩) {} 0 0xffffffffffffffff 0xfffffffffffffffe 1 := by
  intro h
  have hfit := (RangeFits.of_readsWithin h (by decide) (by decide)).2.1
  exact absurd hfit (by decide)

end Content

end Prfs
