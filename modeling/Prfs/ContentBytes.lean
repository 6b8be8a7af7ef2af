import Mathlib.Data.List.Chain
import Prfs.ContentSafety

namespace Prfs

namespace Content

variable {gen : IRng} {c : ContentConfig} {seed : UInt64}

/-- Byte `i` of one generator output, in the alphabet of size `K`. -/
def groupByte (K : Nat) (out : Words4) (i : Nat) : UInt8 :=
  mapByte (out.get (i / 4) >>> UInt32.ofNat (8 * (i % 4))).toUInt8 K

theorem add_ofNat_toNat {off : UInt32} {i : Nat} (h : off.toNat + i < 2 ^ 32) :
    (off + UInt32.ofNat i).toNat = off.toNat + i := by
  rw [UInt32.toNat_add, UInt32.toNat_ofNat_of_lt' (show i < 2 ^ 32 by omega)]
  exact Nat.mod_eq_of_lt h

theorem fillGroup_spec {bs off : UInt32} {K : Nat} {out : Words4} {buf : Bytes}
    (hoff : off.toNat + 16 < 2 ^ 32) (hlen : buf.length = bs.toNat) :
    (fillGroup bs K out off buf).length = bs.toNat ∧
      ∀ j, (fillGroup bs K out off buf)[j]? =
        if off.toNat ≤ j ∧ j < off.toNat + 16 ∧ j < bs.toNat then some (groupByte K out (j - off.toNat))
        else buf[j]? := by
  have hn : ∀ n ≤ 16,
      ((List.range n).foldl (fun buf i =>
        if off + UInt32.ofNat i < bs then buf.set (off + UInt32.ofNat i).toNat (groupByte K out i) else buf) buf).length =
          bs.toNat ∧
      ∀ j, ((List.range n).foldl (fun buf i =>
        if off + UInt32.ofNat i < bs then buf.set (off + UInt32.ofNat i).toNat (groupByte K out i) else buf) buf)[j]? =
          if off.toNat ≤ j ∧ j < off.toNat + n ∧ j < bs.toNat then some (groupByte K out (j - off.toNat))
          else buf[j]? := by
    intro n hn
    induction n with
    | zero =>
      refine ⟨by simpa using hlen, fun j => ?_⟩
      rw [if_neg (by omega)]
      rfl
    | succ n ih =>
      obtain ⟨ih1, ih2⟩ := ih (by omega)
      have hadd := add_ofNat_toNat (show off.toNat + n < 2 ^ 32 by omega)
      rw [List.range_succ, List.foldl_append]
      simp only [List.foldl_cons, List.foldl_nil, UInt32.lt_iff_toNat_lt, hadd] at ih1 ih2 ⊢
      split_ifs with hlt
      · refine ⟨by rw [List.length_set, ih1], fun j => ?_⟩
        rw [List.getElem?_set, ih1, ih2]
        by_cases hj : off.toNat + n = j
        · subst hj
          rw [if_pos rfl, if_pos hlt, if_pos (by omega), Nat.add_sub_cancel_left]
        · rw [if_neg hj]
          exact if_congr (by omega) rfl rfl
      · refine ⟨ih1, fun j => ?_⟩
        rw [ih2]
        exact if_congr (by omega) rfl rfl
  exact hn 16 le_rfl

/-- The loop of `genBlock` from a group boundary on writes each byte after it once. -/
theorem genLoop_spec {bs bl bh : UInt32} {key : UInt32 × UInt32} {K fuel : Nat} {off g : UInt32}
    {buf out : Bytes} (hbs : bs.toNat ≤ 2 ^ 32 - 16) (hlen : buf.length = bs.toNat)
    (hg : off.toNat = 16 * g.toNat) (h : genLoop gen bs bl bh key K fuel off g buf = some out) :
    out.length = bs.toNat ∧ ∀ j, out[j]? =
      if off.toNat ≤ j ∧ j < bs.toNat then
        some (groupByte K (gen ⟨bl, bh, UInt32.ofNat (j / 16), 0⟩ key) (j % 16))
      else buf[j]? := by
  induction fuel generalizing off g buf with
  | zero => simp [genLoop] at h
  | succ fuel ih =>
    rw [genLoop] at h
    split_ifs at h with hlt
    · rw [UInt32.lt_iff_toNat_lt] at hlt
      obtain ⟨hl, hfill⟩ := @fillGroup_spec bs off K (gen ⟨bl, bh, g, 0⟩ key) buf (by omega) hlen
      have hoff : (off + 16).toNat = off.toNat + 16 := by
        rw [UInt32.toNat_add]
        exact Nat.mod_eq_of_lt (by simp only [UInt32.toNat_ofNat]; omega)
      have hg' : (g + 1).toNat = g.toNat + 1 := by
        rw [UInt32.toNat_add]
        exact Nat.mod_eq_of_lt (by simp only [UInt32.toNat_one]; omega)
      obtain ⟨ho, hout⟩ := ih hl (by omega) h
      refine ⟨ho, fun j => ?_⟩
      rw [hout, hfill, hoff]
      by_cases hj : off.toNat ≤ j ∧ j < off.toNat + 16 ∧ j < bs.toNat
      · have hdiv : UInt32.ofNat (j / 16) = g := by
          rw [← UInt32.toNat_inj, UInt32.toNat_ofNat_of_lt' (show j / 16 < 2 ^ 32 by omega)]
          omega
        rw [if_neg (by omega), if_pos hj, if_pos (by omega), hdiv, show j % 16 = j - off.toNat by omega]
      · rw [if_neg hj]
        exact if_congr (by omega) rfl rfl
    · obtain rfl := Option.some.inj h
      rw [UInt32.lt_iff_toNat_lt] at hlt
      refine ⟨hlen, fun j => ?_⟩
      rw [if_neg (by omega)]

/-- Byte `i` of block `b`. -/
def blockByte (gen : IRng) (c : ContentConfig) (seed b : UInt64) (i : Nat) : UInt8 :=
  if isHole c seed b = true ∨ c.blockSize = 0 then 0
  else
    let src := blockSrc c seed b
    groupByte (alphabet c.entropy) (gen ⟨b.toUInt32, (b >>> 32).toUInt32, UInt32.ofNat (i / 16), 0⟩
      (src.toUInt32, (src >>> 32).toUInt32)) (i % 16)

/-- The byte at position `p` of a file, as the policy and the seed give it. -/
def byteAt (gen : IRng) (c : ContentConfig) (seed : UInt64) (p : Nat) : UInt8 :=
  blockByte gen c seed (UInt64.ofNat (p / blockBytes c)) (p % blockBytes c)

/-- A buffer of one block; without a block size it is the single zero that `read` puts there. -/
def Scratch (c : ContentConfig) (buf : Bytes) : Prop :=
  buf.length = blockBytes c ∧ (c.blockSize = 0 → buf = [0])

theorem Scratch.replicate (c : ContentConfig) : Scratch c (List.replicate (blockBytes c) 0) := by
  refine ⟨List.length_replicate .., fun h => ?_⟩
  simp [blockBytes, h]

theorem blockBytes_of_ne_zero (h : c.blockSize ≠ 0) : blockBytes c = c.blockSize.toNat := by
  have hne : c.blockSize.toNat ≠ 0 := fun he => h (UInt32.toNat_inj.mp he)
  unfold blockBytes
  omega

/-- Whatever the buffer held before, a generated block is the block's bytes. -/
theorem genBlock_spec {b : UInt64} {fuel : Nat} {buf out : Bytes} (hbuf : Scratch c buf)
    (h : genBlock gen fuel c seed b (alphabet c.entropy) buf = some out) :
    Scratch c out ∧ ∀ i < blockBytes c, out[i]? = some (blockByte gen c seed b i) := by
  obtain ⟨hlen, hzero⟩ := hbuf
  by_cases hbs : c.blockSize = 0
  · have hout : out = [0] := by
      rw [hzero hbs] at h
      unfold genBlock at h
      split_ifs at h
      · simpa [hbs] using h.symm
      · cases fuel with
        | zero => simp [genLoop] at h
        | succ fuel => simpa [genLoop, hbs] using h.symm
    have hone : blockBytes c = 1 := by simp [blockBytes, hbs]
    subst hout
    refine ⟨⟨by simp [hone], fun _ => rfl⟩, fun i hi => ?_⟩
    obtain rfl : i = 0 := by omega
    simp [blockByte, hbs]
  · have hbb := blockBytes_of_ne_zero hbs
    by_cases hh : isHole c seed b = true
    · unfold genBlock at h
      rw [if_pos hh] at h
      obtain rfl := Option.some.inj h
      refine ⟨⟨by simp [hlen, hbb], fun h0 => absurd h0 hbs⟩, fun i hi => ?_⟩
      rw [List.getElem?_append_left (by simpa [← hbb] using hi), List.getElem?_replicate, if_pos (by omega)]
      simp [blockByte, hh]
    · have hfits : c.blockSize.toNat ≤ 2 ^ 32 - 16 := by
        by_contra hbig
        rw [genBlock_diverges (by omega) (by simpa using hh)] at h
        simp at h
      unfold genBlock at h
      rw [if_neg hh] at h
      obtain ⟨hl, hout⟩ := genLoop_spec hfits (by omega) rfl h
      refine ⟨⟨by omega, fun h0 => absurd h0 hbs⟩, fun i hi => ?_⟩
      rw [hout, if_pos (by simp only [UInt32.toNat_zero]; omega)]
      simp [blockByte, hh, hbs]

/-- The bytes of the output after one `memcpy`. -/
def Copy.write (y : Copy) (out : Bytes) : Bytes :=
  out.mapIdx (fun i x =>
    if y.dst.toNat ≤ i ∧ i < y.dst.toNat + y.count.toNat then
      (y.block[y.src.toNat + (i - y.dst.toNat)]?).getD 0
    else x)

def ReadResult.into (res : ReadResult) (out : Bytes) : Bytes :=
  res.copies.foldl (fun out y => y.write out) out

theorem Copy.write_length (y : Copy) (out : Bytes) : (y.write out).length = out.length :=
  List.length_mapIdx

theorem ReadResult.into_length (res : ReadResult) (out : Bytes) : (res.into out).length = out.length := by
  unfold into
  induction res.copies generalizing out with
  | nil => rfl
  | cons y ys ih => rw [List.foldl_cons, ih, Copy.write_length]

theorem byteAt_of_block {b : UInt64} {p : Nat} (hp : b.toNat * blockBytes c ≤ p) (hp' : p < (b.toNat + 1) * blockBytes c) :
    byteAt gen c seed p = blockByte gen c seed b (p - b.toNat * blockBytes c) := by
  have hdiv : p / blockBytes c = b.toNat := Nat.div_eq_of_lt_le hp hp'
  have hmod : p % blockBytes c = p - b.toNat * blockBytes c := by
    rw [Nat.mod_eq_sub_div_mul, hdiv]
  rw [byteAt, hdiv, hmod, UInt64.ofNat_toNat]

/-- One turn of the loop brings the part of its block that the range asks for. -/
theorem copyOf_write {bs offset stop b : UInt64} {block out : Bytes} (hbs : bs.toNat = blockBytes c)
    (hb : b.toNat * blockBytes c < stop.toNat) (ho : offset.toNat < (b.toNat + 1) * blockBytes c)
    (hos : offset.toNat < stop.toNat) (hfit : (b.toNat + 1) * blockBytes c < 2 ^ 64)
    (hblock : ∀ i < blockBytes c, block[i]? = some (blockByte gen c seed b i)) {j : Nat}
    (hj : offset.toNat + j < stop.toNat) :
    ((copyOf bs offset stop b block).write out)[j]? =
      if b.toNat * blockBytes c ≤ offset.toNat + j ∧ offset.toNat + j < (b.toNat + 1) * blockBytes c then
        (out[j]?).map (fun _ => byteAt gen c seed (offset.toNat + j))
      else out[j]? := by
  obtain ⟨hd, hs, hc⟩ := @copyOf_fits bs offset stop b block (by rwa [hbs]) (by rwa [hbs]) hos (by rwa [hbs])
  have hat := @byteAt_of_block gen c seed b (offset.toNat + j)
  have hget := hblock (offset.toNat + j - b.toNat * blockBytes c)
  rw [hbs] at hd hs hc
  unfold Copy.write
  rw [List.getElem?_mapIdx, hd, hc, hs]
  rw [Nat.add_mul, Nat.one_mul] at *
  generalize b.toNat * blockBytes c = start at *
  cases out[j]? with
  | none => simp
  | some x =>
    simp only [Option.map_some]
    by_cases hin : start ≤ offset.toNat + j ∧ offset.toNat + j < start + blockBytes c
    · have hidx : max offset.toNat start - start + (j - (max offset.toNat start - offset.toNat)) =
          offset.toNat + j - start := by omega
      rw [if_pos hin, if_pos (by omega), hidx, hat hin.1 hin.2]
      change some ((block[offset.toNat + j - start]?).getD 0) = _
      rw [hget (by omega), Option.getD_some]
    · rw [if_neg hin, if_neg (by omega)]

/-- The loop from block `b` on brings every byte of the range from the block's start. -/
theorem blockLoop_bytes {bs offset stop last : UInt64} {fuelB fuel : Nat} {b : UInt64} {buf : Bytes} {cs : List Copy}
    (hbs : bs.toNat = blockBytes c) (hos : offset.toNat < stop.toNat)
    (hlast : last.toNat = (stop.toNat - 1) / blockBytes c) (hfit : (last.toNat + 1) * blockBytes c < 2 ^ 64)
    (hb : b.toNat ≤ last.toNat + 1)
    (ho : offset.toNat < (b.toNat + 1) * blockBytes c) (hbuf : Scratch c buf)
    (h : blockLoop (fun b buf => genBlock gen fuelB c seed b (alphabet c.entropy) buf) bs offset stop last fuel b buf =
      some cs) (ret : UInt64) (out : Bytes) {j : Nat} (hj : offset.toNat + j < stop.toNat) :
    ((ReadResult.mk ret cs).into out)[j]? =
      if b.toNat * blockBytes c ≤ offset.toNat + j then (out[j]?).map (fun _ => byteAt gen c seed (offset.toNat + j))
      else out[j]? := by
  have hpos := blockBytes_pos c
  have hstop := stop.toNat_lt
  have hmulLe : last.toNat * blockBytes c ≤ stop.toNat - 1 := by
    rw [hlast]
    exact Nat.div_mul_le_self ..
  have hmulLt : stop.toNat - 1 < (last.toNat + 1) * blockBytes c := by
    rw [hlast]
    exact (Nat.div_lt_iff_lt_mul hpos).mp (Nat.lt_succ_self _)
  induction fuel generalizing b buf cs out with
  | zero => simp [blockLoop] at h
  | succ fuel ih =>
    rw [blockLoop] at h
    split_ifs at h with hle
    · cases hgen : genBlock gen fuelB c seed b (alphabet c.entropy) buf with
      | none => simp [hgen] at h
      | some block =>
        simp only [hgen, Option.map_eq_some_iff] at h
        obtain ⟨rest, hrest, rfl⟩ := h
        obtain ⟨hblock, hbytes⟩ := genBlock_spec hbuf hgen
        have hlast' : last.toNat < 2 ^ 64 - 1 := by
          have := Nat.le_mul_of_pos_right last.toNat hpos
          omega
        have hs := succ_toNat hle hlast'
        rw [UInt64.le_iff_toNat_le] at hle
        have hbmul : b.toNat * blockBytes c ≤ last.toNat * blockBytes c := Nat.mul_le_mul_right _ hle
        have hnext : (b.toNat + 1) * blockBytes c = b.toNat * blockBytes c + blockBytes c := by
          rw [Nat.add_mul, Nat.one_mul]
        have hnext' : (b.toNat + 1 + 1) * blockBytes c = b.toNat * blockBytes c + blockBytes c + blockBytes c := by
          rw [Nat.add_mul _ 1, Nat.one_mul, hnext]
        have hrec := ih (by omega) (by rw [hs]; omega) hblock hrest ((copyOf bs offset stop b block).write out)
        have hend : (b.toNat + 1) * blockBytes c < 2 ^ 64 :=
          lt_of_le_of_lt (Nat.mul_le_mul_right _ (by omega)) hfit
        have hcopy := @copyOf_write gen c seed bs offset stop b block out hbs (by omega) ho hos hend hbytes j hj
        change ((ReadResult.mk ret rest).into ((copyOf bs offset stop b block).write out))[j]? = _
        rw [hrec, hcopy, hs, hnext]
        by_cases h1 : b.toNat * blockBytes c + blockBytes c ≤ offset.toNat + j
        · rw [if_pos h1, if_neg (by omega), if_pos (by omega)]
        · rw [if_neg h1]
          exact if_congr (by omega) rfl rfl
    · obtain rfl := Option.some.inj h
      have hbl : b.toNat = last.toNat + 1 := by
        rw [UInt64.le_iff_toNat_le] at hle
        omega
      rw [hbl, if_neg (by omega)]
      rfl

/-- A read whose range and last block end below 2^64 brings every byte of its range. -/
theorem read_bytes {size offset len : UInt64} (hin : offset.toNat < size.toNat) (hlen : 0 < len.toNat)
    (hrange : offset.toNat + len.toNat < 2 ^ 64)
    (hfit : ((min (offset.toNat + len.toNat) size.toNat - 1) / blockBytes c + 1) * blockBytes c < 2 ^ 64)
    {fuel : Nat} {res : ReadResult} (h : read gen fuel c seed size offset len = some res) (out : Bytes) {j : Nat}
    (hj : offset.toNat + j < min (offset.toNat + len.toNat) size.toNat) :
    (res.into out)[j]? = (out[j]?).map (fun _ => byteAt gen c seed (offset.toNat + j)) := by
  have hpos := blockBytes_pos c
  obtain ⟨bs, stop, first, last, hbs, hstop, hfirst, hlast, -, -, -, hread⟩ :=
    read_span gen c seed hin hlen hrange
  rw [← hstop] at hfit hj
  rw [← hlast] at hfit
  rw [hread, Option.map_eq_some_iff] at h
  obtain ⟨cs, hcs, rfl⟩ := h
  have hfl : first.toNat ≤ last.toNat := by
    rw [hfirst, hlast]
    exact Nat.div_le_div_right (by omega)
  have hle : first.toNat * blockBytes c ≤ offset.toNat := by
    rw [hfirst]
    exact Nat.div_mul_le_self ..
  have hlt : offset.toNat < (first.toNat + 1) * blockBytes c := by
    rw [hfirst]
    exact (Nat.div_lt_iff_lt_mul hpos).mp (Nat.lt_succ_self _)
  rw [blockLoop_bytes hbs (by omega) hlast hfit (by omega) hlt (Scratch.replicate c) hcs (stop - offset) out hj,
    if_pos (by omega)]

def bytesAt (gen : IRng) (c : ContentConfig) (seed : UInt64) (a b : Nat) : Bytes :=
  (List.range' a (b - a)).map (byteAt gen c seed)

theorem bytesAt_append {a b e : Nat} (hab : a ≤ b) (hbe : b ≤ e) :
    bytesAt gen c seed a b ++ bytesAt gen c seed b e = bytesAt gen c seed a e := by
  unfold bytesAt
  have happ := @List.range'_append a (b - a) (e - b) 1
  rw [show a + 1 * (b - a) = b by omega, show b - a + (e - b) = e - a by omega] at happ
  rw [← List.map_append, happ]

/-- A read of `[a, b)` returns, and leaves the bytes `w` and their number
whatever the output held before. -/
def Reads (gen : IRng) (c : ContentConfig) (seed size : UInt64) (a b : Nat) (w : Bytes) : Prop :=
  (∃ fuel res, read gen fuel c seed size (UInt64.ofNat a) (UInt64.ofNat (b - a)) = some res) ∧
  ∀ fuel res, read gen fuel c seed size (UInt64.ofNat a) (UInt64.ofNat (b - a)) = some res →
    res.ret.toNat = b - a ∧ ∀ out : Bytes, out.length = b - a → res.into out = w

/-- Blocks larger than a 32-bit offset can step through are all holes in `[a, b)`. -/
def Generable (c : ContentConfig) (seed : UInt64) (a b : Nat) : Prop :=
  c.blockSize.toNat ≤ 2 ^ 32 - 16 ∨
    ∀ p, a ≤ p → p < b → isHole c seed (UInt64.ofNat (p / blockBytes c)) = true

theorem Generable.mono {a b x y : Nat} (h : Generable c seed a b) (hx : a ≤ x) (hy : y ≤ b) :
    Generable c seed x y := by
  refine h.imp_right fun hh p hp hp' => ?_
  exact hh p (by omega) (by omega)

section Range

variable {size : UInt64} {a b : Nat}

/-- Below 2^63 nothing of a range wraps. -/
theorem Generable.rangeFits (h : Generable c seed a b) (hlt : a < b) (hb : b ≤ size.toNat) (hsize : size.toNat < 2 ^ 63) :
    RangeFits c seed size (UInt64.ofNat a) (UInt64.ofNat (b - a)) := by
  have hoff : (UInt64.ofNat a).toNat = a := UInt64.toNat_ofNat_of_lt' (show a < 2 ^ 64 by omega)
  have hlen : (UInt64.ofNat (b - a)).toNat = b - a := UInt64.toNat_ofNat_of_lt' (show b - a < 2 ^ 64 by omega)
  have hmin : min (a + (b - a)) size.toNat = b := by omega
  have hpos := blockBytes_pos c
  have hsmall := blockBytes_lt c
  have hlast := Nat.div_mul_le_self (b - 1) (blockBytes c)
  unfold RangeFits
  rw [hoff, hlen, hmin]
  refine ⟨by omega, ?_, h.imp_right fun hh x hx hxl => ?_⟩
  · rw [Nat.add_mul, Nat.one_mul]
    omega
  · -- the first byte of block `x` in the range
    have hxm : x.toNat * blockBytes c ≤ (b - 1) / blockBytes c * blockBytes c := Nat.mul_le_mul_right _ hxl
    have hxa : a < (x.toNat + 1) * blockBytes c := (Nat.div_lt_iff_lt_mul hpos).mp (by omega)
    have hnext : (x.toNat + 1) * blockBytes c = x.toNat * blockBytes c + blockBytes c := by
      rw [Nat.add_mul, Nat.one_mul]
    have hdiv : max a (x.toNat * blockBytes c) / blockBytes c = x.toNat :=
      Nat.div_eq_of_lt_le (by omega) (by omega)
    have hp := hh (max a (x.toNat * blockBytes c)) (by omega) (by omega)
    rwa [hdiv, UInt64.ofNat_toNat] at hp

theorem Generable.reads (h : Generable c seed a b) (hab : a ≤ b) (hb : b ≤ size.toNat) (hsize : size.toNat < 2 ^ 63) :
    Reads gen c seed size a b (bytesAt gen c seed a b) := by
  rcases Nat.eq_or_lt_of_le hab with rfl | hlt
  · have hread : ∀ fuel, read gen fuel c seed size (UInt64.ofNat a) (UInt64.ofNat (a - a)) = some ⟨0, []⟩ := by
      intro fuel
      unfold read
      rw [if_pos (Or.inr (by rw [Nat.sub_self]; rfl))]
    refine ⟨⟨0, _, hread 0⟩, fun fuel res hres => ?_⟩
    rw [hread] at hres
    obtain rfl := Option.some.inj hres
    refine ⟨by simp, fun out hout => ?_⟩
    rw [Nat.sub_self, List.length_eq_zero_iff] at hout
    subst hout
    simp [bytesAt, ReadResult.into]
  · have hoff : (UInt64.ofNat a).toNat = a := UInt64.toNat_ofNat_of_lt' (show a < 2 ^ 64 by omega)
    have hlen : (UInt64.ofNat (b - a)).toNat = b - a := UInt64.toNat_ofNat_of_lt' (show b - a < 2 ^ 64 by omega)
    have hfits := h.rangeFits hlt hb hsize
    obtain ⟨hreturns, hwithin⟩ := @RangeFits.readsWithin gen c seed size _ _ hfits (by omega) (by omega)
    refine ⟨hreturns, fun fuel res hres => ?_⟩
    have hret := (hwithin fuel res hres).2
    refine ⟨by omega, fun out hout => List.ext_getElem? fun j => ?_⟩
    by_cases hj : a + j < b
    · rw [read_bytes (by omega) (by omega) hfits.1 hfits.2.1 hres out (by omega), hoff,
        List.getElem?_eq_getElem (by omega)]
      simp [bytesAt, List.getElem?_range' (show j < b - a by omega)]
    · rw [List.getElem?_eq_none (by rw [ReadResult.into_length]; omega),
        List.getElem?_eq_none (by simp [bytesAt]; omega)]

theorem Generable.of_reads {w : Bytes} (h : Reads gen c seed size a b w) (hb : b ≤ size.toNat)
    (hsize : size.toNat < 2 ^ 63) : Generable c seed a b := by
  obtain ⟨⟨fuel, res, hres⟩, -⟩ := h
  refine or_iff_not_imp_left.mpr fun hbig p hp hp' => ?_
  have hoff : (UInt64.ofNat a).toNat = a := UInt64.toNat_ofNat_of_lt' (show a < 2 ^ 64 by omega)
  have hlen : (UInt64.ofNat (b - a)).toNat = b - a := UInt64.toNat_ofNat_of_lt' (show b - a < 2 ^ 64 by omega)
  obtain ⟨bs, stop, first, last, hbs, hstop, hfirst, hlast, hmul, hlt', hret, hread⟩ :=
    @read_span size (UInt64.ofNat a) (UInt64.ofNat (b - a)) gen c seed (by omega) (by omega) (by omega)
  rw [hread, Option.map_eq_some_iff] at hres
  obtain ⟨cs, hcs, -⟩ := hres
  have hpd : p / blockBytes c ≤ p := Nat.div_le_self ..
  have hblk : (UInt64.ofNat (p / blockBytes c)).toNat = p / blockBytes c :=
    UInt64.toNat_ofNat_of_lt' (show p / blockBytes c < 2 ^ 64 by omega)
  have hge : first ≤ UInt64.ofNat (p / blockBytes c) := by
    rw [UInt64.le_iff_toNat_le, hblk, hfirst]
    exact Nat.div_le_div_right (by omega)
  have hle : UInt64.ofNat (p / blockBytes c) ≤ last := by
    rw [UInt64.le_iff_toNat_le, hblk, hlast]
    exact Nat.div_le_div_right (by omega)
  obtain ⟨i, o, ho, -⟩ := (blockLoop_copies hlt' hcs).1 _ hge hle
  by_contra hh
  rw [genBlock_diverges (by omega) (by simpa using hh)] at ho
  simp at ho

end Range

/-- One read of `[a, b)` and the reads of the parts between the cuts `ps` return the same
bytes, and each of these is the byte of its position. -/
def RandomAccess (gen : IRng) (c : ContentConfig) (seed size : UInt64) (a : Nat) (ps : List Nat) : Prop :=
  ∃ w ws, Reads gen c seed size a (ps.getLastD a) w ∧
    List.Forall₂ (fun cut w => Reads gen c seed size cut.1 cut.2 w) ((a :: ps).zip ps) ws ∧
    w = ws.flatten ∧ w = bytesAt gen c seed a (ps.getLastD a)

theorem le_getLastD {a : Nat} {ps : List Nat} (h : List.IsChain (· ≤ ·) (a :: ps)) : a ≤ ps.getLastD a := by
  induction ps generalizing a with
  | nil => exact le_rfl
  | cons p ps ih =>
    rw [List.isChain_cons_cons] at h
    rw [List.getLastD_cons]
    exact le_trans h.1 (ih h.2)

theorem Generable.parts {size : UInt64} {a : Nat} {ps : List Nat} (hps : List.IsChain (· ≤ ·) (a :: ps))
    (hsize : size.toNat < 2 ^ 63) (hlast : ps.getLastD a ≤ size.toNat) (h : Generable c seed a (ps.getLastD a)) :
    ∃ ws, List.Forall₂ (fun cut w => Reads gen c seed size cut.1 cut.2 w) ((a :: ps).zip ps) ws ∧
      bytesAt gen c seed a (ps.getLastD a) = ws.flatten := by
  induction ps generalizing a with
  | nil => exact ⟨[], by simp [bytesAt]⟩
  | cons p ps ih =>
    rw [List.isChain_cons_cons] at hps
    have hple := le_getLastD hps.2
    rw [List.getLastD_cons] at hlast h ⊢
    obtain ⟨ws, hws, hflat⟩ := ih hps.2 hlast (h.mono hps.1 le_rfl)
    have hhead : Reads gen c seed size a p (bytesAt gen c seed a p) :=
      (h.mono le_rfl hple).reads hps.1 (by omega) hsize
    refine ⟨bytesAt gen c seed a p :: ws, List.Forall₂.cons hhead hws, ?_⟩
    rw [List.flatten_cons, ← hflat, bytesAt_append hps.1 hple]

/-- Reads of a range and of its parts agree exactly when its blocks can be generated. -/
theorem randomAccess_iff (gen : IRng) (c : ContentConfig) (seed size : UInt64) (a : Nat) (ps : List Nat)
    (hsize : size.toNat < 2 ^ 63) (hps : List.IsChain (· ≤ ·) (a :: ps)) (hlast : ps.getLastD a ≤ size.toNat) :
    RandomAccess gen c seed size a ps ↔ Generable c seed a (ps.getLastD a) := by
  constructor
  · rintro ⟨w, ws, hw, -, -, -⟩
    exact .of_reads hw hlast hsize
  · intro h
    obtain ⟨ws, hws, hflat⟩ := h.parts hps hsize hlast
    exact ⟨_, ws, h.reads (le_getLastD hps) hlast hsize, hws, hflat, rfl⟩

/-- Cuts inside a block, inside a group of sixteen and at the end of the file. -/
theorem randomAccess_iff_default :
    RandomAccess (fun w k => ⟨w.w0 + k.1, w.w1, w.w2, w.w3⟩) {} 7 10000 5 [20, 4096, 5000, 10000] :=
  (randomAccess_iff _ {} 7 10000 5 [20, 4096, 5000, 10000] (by decide) (by decide) (by decide)).mpr
    (Or.inl (by decide))

/-- One byte of a file whose blocks are fifteen bytes short of 2^32. -/
theorem randomAccess_fails_large_block :
    ¬ RandomAccess (fun _ _ => ⟨0, 0, 0, 0⟩) { blockSize := 0xfffffff1 } 0 1 0 [1] := by
  rintro ⟨w, ws, hw, -, -, -⟩
  rcases Generable.of_reads hw (by decide) (by decide) with h | h
  · exact absurd h (by decide)
  · exact absurd (h 0 le_rfl (by decide)) (by decide)

end Content

end Prfs
