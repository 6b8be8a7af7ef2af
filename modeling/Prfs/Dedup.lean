import Mathlib.Data.Set.Card
import Mathlib.Logic.Equiv.Basic
import Prfs.ContentBytes

namespace Prfs

namespace Content

/-- A generator that takes different counters to different outputs under every key. -/
def CounterInjective (gen : IRng) : Prop := ∀ key w w', gen w key = gen w' key → w = w'

/-- A block of a file: the file's seed and the block's index. -/
abbrev Block := UInt64 × UInt64

def isDup (c : ContentConfig) (x : Block) : Bool := h x.1 x.2 DUP_TAG % 100 < c.dedupPercent.toUInt64

/-- The place in the corpus that a duplicate block is drawn from. -/
def canon (c : ContentConfig) (x : Block) : UInt64 := h x.1 x.2 DUP2_TAG % c.dedupCorpus.toUInt64

/-- The blocks that `genBlock` fills for `x`, into the buffers `read` hands it. -/
def Generates (gen : IRng) (c : ContentConfig) (x : Block) (out : Bytes) : Prop :=
  ∃ fuel buf, Scratch c buf ∧ genBlock gen fuel c x.1 x.2 (alphabet c.entropy) buf = some out

/-- Both blocks are generated, always with the same bytes. -/
def Identical (gen : IRng) (c : ContentConfig) (x y : Block) : Prop :=
  (∃ out, Generates gen c x out ∧ Generates gen c y out) ∧
    ∀ out out', Generates gen c x out → Generates gen c y out' → out = out'

/-- Two blocks of one place in the corpus that the generator fills alike: the block's index
is a part of the counter, so it has to be the same unless the bytes do not depend on it. -/
def SameCounter (c : ContentConfig) (x y : Block) : Prop :=
  c.blockSize.toNat ≤ 2 ^ 32 - 16 ∧ (x.2 = y.2 ∨ alphabet c.entropy ≤ 1 ∨ c.blockSize = 0)

section Pair

variable {gen : IRng} {c : ContentConfig} {x y : Block} {out out' : Bytes}

theorem Generates.length_eq (hx : Generates gen c x out) : out.length = blockBytes c := by
  obtain ⟨fuel, buf, hbuf, hgen⟩ := hx
  exact (genBlock_spec hbuf hgen).1.1

theorem Generates.getElem? (hx : Generates gen c x out) {i : Nat} (hi : i < blockBytes c) :
    out[i]? = some (blockByte gen c x.1 x.2 i) := by
  obtain ⟨fuel, buf, hbuf, hgen⟩ := hx
  exact (genBlock_spec hbuf hgen).2 i hi

theorem Generates.eq_of_bytes (hx : Generates gen c x out) (hy : Generates gen c y out')
    (h : ∀ i < blockBytes c, blockByte gen c x.1 x.2 i = blockByte gen c y.1 y.2 i) : out = out' := by
  refine List.ext_getElem? fun i => ?_
  by_cases hi : i < blockBytes c
  · rw [hx.getElem? hi, hy.getElem? hi, h i hi]
  · have hlx := hx.length_eq
    have hly := hy.length_eq
    rw [List.getElem?_eq_none (by omega), List.getElem?_eq_none (by omega)]

theorem generates_of_le (gen : IRng) (hbs : c.blockSize.toNat ≤ 2 ^ 32 - 16) (x : Block) :
    ∃ out, Generates gen c x out := by
  obtain ⟨out, hout⟩ := @genBlock_terminates gen c x.1 x.2 (Or.inl hbs) (c.blockSize.toNat + 1) (Nat.lt_succ_self _)
    (alphabet c.entropy) (List.replicate (blockBytes c) 0)
  exact ⟨out, _, _, Scratch.replicate c, hout⟩

theorem blockSrc_of_isDup (hd : 0 < c.dedupPercent) (hc : 0 < c.dedupCorpus) (hx : isDup c x = true) :
    blockSrc c x.1 x.2 = h 0 (canon c x) CORPUS_TAG := by
  unfold blockSrc
  rw [if_pos ⟨hd, hc, by simpa [isDup] using hx⟩]
  rfl

theorem mapByte_of_le_one {K : Nat} (hK : K ≤ 1) (v : UInt8) : mapByte v K = 0 := by
  unfold mapByte
  rw [if_pos hK]

theorem SameCounter.blockByte_eq (h : SameCounter c x y) (hd : 0 < c.dedupPercent) (hc : 0 < c.dedupCorpus)
    (hx : isHole c x.1 x.2 = false) (hy : isHole c y.1 y.2 = false) (hdx : isDup c x = true)
    (hdy : isDup c y = true) (hxy : canon c x = canon c y) (i : Nat) :
    blockByte gen c x.1 x.2 i = blockByte gen c y.1 y.2 i := by
  unfold blockByte
  rw [hx, hy, blockSrc_of_isDup hd hc hdx, blockSrc_of_isDup hd hc hdy, hxy]
  rcases h.2 with hb | hK | h0
  · rw [hb]
  · simp only [groupByte, mapByte_of_le_one hK]
  · simp [h0]

theorem SameCounter.identical (h : SameCounter c x y) (hd : 0 < c.dedupPercent) (hc : 0 < c.dedupCorpus)
    (hx : isHole c x.1 x.2 = false) (hy : isHole c y.1 y.2 = false) (hdx : isDup c x = true)
    (hdy : isDup c y = true) (hxy : canon c x = canon c y) : Identical gen c x y := by
  have hbytes : ∀ i < blockBytes c, blockByte gen c x.1 x.2 i = blockByte gen c y.1 y.2 i :=
    fun i _ => h.blockByte_eq hd hc hx hy hdx hdy hxy i
  obtain ⟨out, hout⟩ := generates_of_le gen h.1 x
  obtain ⟨out', hout'⟩ := generates_of_le gen h.1 y
  refine ⟨⟨out, hout, ?_⟩, fun o o' ho ho' => ho.eq_of_bytes ho' hbytes⟩
  rwa [hout.eq_of_bytes hout' hbytes]

end Pair

/-- A generator with given outputs at two counters. -/
def genWith (w w' : Words4) : IRng := fun u _ =>
  Equiv.swap (Equiv.swap w ⟨0, 0, 0, 0⟩ w') ⟨1, 0, 0, 0⟩ (Equiv.swap w ⟨0, 0, 0, 0⟩ u)

theorem genWith_injective (w w' : Words4) : CounterInjective (genWith w w') := by
  intro key u u' h
  exact (Equiv.swap _ _).injective ((Equiv.swap _ _).injective h)

theorem genWith_right (w w' : Words4) (key : UInt32 × UInt32) : genWith w w' w' key = ⟨1, 0, 0, 0⟩ :=
  Equiv.swap_apply_left ..

theorem genWith_left {w w' : Words4} (h : w ≠ w') (key : UInt32 × UInt32) :
    genWith w w' w key = ⟨0, 0, 0, 0⟩ := by
  unfold genWith
  rw [Equiv.swap_apply_left]
  refine Equiv.swap_apply_of_ne_of_ne (fun he => h ?_) (by decide)
  have hw := congrArg (Equiv.swap w ⟨0, 0, 0, 0⟩) he
  rw [Equiv.swap_apply_right, Equiv.swap_apply_self] at hw
  exact hw

theorem counter_injective {b b' : UInt64} (h0 : b.toUInt32 = b'.toUInt32)
    (h1 : (b >>> 32).toUInt32 = (b' >>> 32).toUInt32) : b = b' := by
  have e0 := congrArg UInt32.toNat h0
  have e1 := congrArg UInt32.toNat h1
  rw [← UInt64.toNat_inj]
  simp only [UInt64.toNat_toUInt32, UInt64.toNat_shiftRight, UInt64.toNat_ofNat, Nat.shiftRight_eq_div_pow,
    Nat.reducePow, Nat.reduceMod] at e0 e1
  have hb := b.toNat_lt
  have hb' := b'.toNat_lt
  omega

theorem alphabet_le (entropy : UInt8) : alphabet entropy ≤ 256 := by
  unfold alphabet
  refine max_le ?_ (by decide)
  cases hf : (List.range 257).find? (fun k => 2 ^ (255 + 8 * entropy.toNat) < (2 * k + 1) ^ 255) with
  | none => exact le_rfl
  | some k =>
    have hk := List.mem_range.mp (List.mem_of_find?_eq_some hf)
    exact Nat.le_of_lt_succ hk

theorem mapByte_zero_ne_one {K : Nat} (hK : 1 < K) (hK' : K ≤ 256) : mapByte 0 K ≠ mapByte 1 K := by
  unfold mapByte
  rw [if_neg (by omega), if_neg (by omega)]
  have hone : (1 : UInt8).toNat % K = 1 := Nat.mod_eq_of_lt hK
  intro he
  have hn := congrArg UInt8.toNat he
  have hle : 255 / (K - 1) ≤ 255 := Nat.div_le_self ..
  have hpos : 0 < 255 / (K - 1) := Nat.div_pos (by omega) (by omega)
  rw [hone, Nat.one_mul, UInt8.toNat_ofNat_of_lt' (show 255 / (K - 1) < 2 ^ 8 by omega)] at hn
  simp at hn
  omega

/-- Blocks of different indices are told apart by some generator. -/
theorem SameCounter.of_identical {c : ContentConfig} {x y : Block} (hx : isHole c x.1 x.2 = false)
    (hy : isHole c y.1 y.2 = false) (h : ∀ gen, CounterInjective gen → Identical gen c x y) : SameCounter c x y := by
  constructor
  · by_contra hbig
    obtain ⟨⟨out, ⟨fuel, buf, -, hgen⟩, -⟩, -⟩ := h (genWith ⟨0, 0, 0, 0⟩ ⟨0, 0, 0, 0⟩) (genWith_injective _ _)
    rw [genBlock_diverges (by omega) hx] at hgen
    simp at hgen
  · by_contra hne
    simp only [not_or, not_le] at hne
    obtain ⟨hb, hK, h0⟩ := hne
    have hcounter : (⟨x.2.toUInt32, (x.2 >>> 32).toUInt32, 0, 0⟩ : Words4) ≠
        ⟨y.2.toUInt32, (y.2 >>> 32).toUInt32, 0, 0⟩ := by
      intro he
      rw [Words4.mk.injEq] at he
      exact hb (counter_injective he.1 he.2.1)
    obtain ⟨⟨out, hox, hoy⟩, -⟩ := h _ (genWith_injective ⟨x.2.toUInt32, (x.2 >>> 32).toUInt32, 0, 0⟩
      ⟨y.2.toUInt32, (y.2 >>> 32).toUInt32, 0, 0⟩)
    have hpos := blockBytes_pos c
    have hbyte := Option.some.inj ((hox.getElem? hpos).symm.trans (hoy.getElem? hpos))
    unfold blockByte at hbyte
    rw [hx, hy] at hbyte
    simp only [Bool.false_eq_true, h0, or_self, if_false, Nat.zero_div, Nat.zero_mod] at hbyte
    rw [show UInt32.ofNat 0 = 0 from rfl, genWith_left hcounter, genWith_right] at hbyte
    exact mapByte_zero_ne_one hK (alphabet_le _) hbyte

/-- The different contents of the blocks of a set. -/
def contents (gen : IRng) (c : ContentConfig) (D : Set Block) : Set Bytes :=
  {out | ∃ x ∈ D, Generates gen c x out}

/-- Blocks of one place in the corpus are identical, so that there are no more contents than places. -/
def Dedups (gen : IRng) (c : ContentConfig) (D : Set Block) : Prop :=
  (∀ x ∈ D, ∀ y ∈ D, canon c x = canon c y → Identical gen c x y) ∧
    (contents gen c D).encard ≤ c.dedupCorpus.toNat

theorem canon_lt {c : ContentConfig} (hc : 0 < c.dedupCorpus) (x : Block) :
    (canon c x).toNat < c.dedupCorpus.toNat := by
  unfold canon
  rw [UInt64.toNat_mod, UInt32.toNat_toUInt64]
  exact Nat.mod_lt _ (UInt32.lt_iff_toNat_lt.mp hc)

theorem contents_le_corpus {gen : IRng} {c : ContentConfig} {D : Set Block} (hc : 0 < c.dedupCorpus)
    (h : ∀ x ∈ D, ∀ y ∈ D, canon c x = canon c y → Identical gen c x y) :
    (contents gen c D).encard ≤ c.dedupCorpus.toNat := by
  classical
  have hsrc : ∀ out, ∃ x, out ∈ contents gen c D → x ∈ D ∧ Generates gen c x out := by
    intro out
    by_cases ho : out ∈ contents gen c D
    · obtain ⟨x, hx, hgx⟩ := ho
      exact ⟨x, fun _ => ⟨hx, hgx⟩⟩
    · exact ⟨(0, 0), fun ho' => absurd ho' ho⟩
  choose src hsrc using hsrc
  have hmaps : Set.MapsTo (fun out => (canon c (src out)).toNat) (contents gen c D)
      (Finset.range c.dedupCorpus.toNat : Set Nat) := by
    intro out _
    rw [Finset.mem_coe, Finset.mem_range]
    exact canon_lt hc _
  have hinj : Set.InjOn (fun out => (canon c (src out)).toNat) (contents gen c D) := by
    intro out ho out' ho' he
    obtain ⟨hx, hgx⟩ := hsrc out ho
    obtain ⟨hy, hgy⟩ := hsrc out' ho'
    exact (h _ hx _ hy (UInt64.toNat_inj.mp he)).2 out out' hgx hgy
  have hle := Set.encard_le_encard_of_injOn hmaps hinj
  rwa [Set.encard_coe_eq_coe_finsetCard, Finset.card_range] at hle

/-- Whatever the generator, the duplicates of a set of blocks share their corpus exactly when
any two of one place in it have the same counter. -/
theorem dedups_iff (c : ContentConfig) (hd : 0 < c.dedupPercent) (hc : 0 < c.dedupCorpus) (D : Set Block)
    (hD : ∀ x ∈ D, isHole c x.1 x.2 = false ∧ isDup c x = true) :
    (∀ gen, CounterInjective gen → Dedups gen c D) ↔
      ∀ x ∈ D, ∀ y ∈ D, canon c x = canon c y → SameCounter c x y := by
  constructor
  · intro h x hx y hy hxy
    exact .of_identical (hD x hx).1 (hD y hy).1 fun gen hgen => (h gen hgen).1 x hx y hy hxy
  · intro h gen _
    have hsame : ∀ x ∈ D, ∀ y ∈ D, canon c x = canon c y → Identical gen c x y := fun x hx y hy hxy =>
      (h x hx y hy hxy).identical hd hc (hD x hx).1 (hD y hy).1 (hD x hx).2 (hD y hy).2 hxy
    exact ⟨hsame, contents_le_corpus hc hsame⟩

/-- The first blocks of all files, every block drawn from a corpus of seven. -/
theorem dedups_iff_first_blocks :
    (∀ x ∈ ({x | x.2 = 0} : Set Block), isHole { dedupPercent := 100, dedupCorpus := 7 } x.1 x.2 = false ∧
      isDup { dedupPercent := 100, dedupCorpus := 7 } x = true) ∧
    ∀ gen, CounterInjective gen → Dedups gen { dedupPercent := 100, dedupCorpus := 7 } {x | x.2 = 0} := by
  have hdup : ∀ x ∈ ({x | x.2 = 0} : Set Block), isHole { dedupPercent := 100, dedupCorpus := 7 } x.1 x.2 = false ∧
      isDup { dedupPercent := 100, dedupCorpus := 7 } x = true := by
    intro x _
    refine ⟨rfl, ?_⟩
    rw [isDup, decide_eq_true_eq, UInt64.lt_iff_toNat_lt, UInt64.toNat_mod]
    exact Nat.mod_lt _ (by decide)
  exact ⟨hdup, (dedups_iff { dedupPercent := 100, dedupCorpus := 7 } (by decide) (by decide) {x | x.2 = 0}
    hdup).mpr fun x hx y hy _ => ⟨by decide, Or.inl (hx.trans hy.symm)⟩⟩

/-- Blocks 0 and 1 of one file under a corpus of one block. -/
theorem dedups_fails_next_block :
    (∀ x ∈ ({(0, 0), (0, 1)} : Set Block), isHole { dedupPercent := 100, dedupCorpus := 1 } x.1 x.2 = false ∧
      isDup { dedupPercent := 100, dedupCorpus := 1 } x = true) ∧
    canon { dedupPercent := 100, dedupCorpus := 1 } (0, 0) = canon { dedupPercent := 100, dedupCorpus := 1 } (0, 1) ∧
    ¬ ∀ gen, CounterInjective gen → Dedups gen { dedupPercent := 100, dedupCorpus := 1 } {(0, 0), (0, 1)} := by
  have hcanon : canon { dedupPercent := 100, dedupCorpus := 1 } (0, 0) =
    canon { dedupPercent := 100, dedupCorpus := 1 } (0, 1) := by decide
  refine ⟨?_, hcanon, fun h => ?_⟩
  · rintro x (rfl | rfl) <;> exact ⟨by decide, by decide⟩
  · have hsame := SameCounter.of_identical (by decide) (by decide) fun gen hgen =>
      (h gen hgen).1 (0, 0) (Or.inl rfl) (0, 1) (Or.inr rfl) hcanon
    rcases hsame.2 with hb | hK | h0
    · exact absurd hb (by decide)
    · exact absurd hK (by decide +kernel)
    · exact absurd h0 (by decide)

end Content

end Prfs
