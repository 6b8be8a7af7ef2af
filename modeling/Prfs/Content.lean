import Prfs.ByteOrder

namespace Prfs

structure ContentConfig where
  blockSize : UInt32 := 4096
  entropy : UInt8 := 255
  sparsePercent : UInt8 := 0
  dedupPercent : UInt8 := 0
  dedupCorpus : UInt32 := 65536
  deriving DecidableEq, Repr

/-- Four words: a counter or an output of a generator. -/
structure Words4 where
  w0 : UInt32
  w1 : UInt32
  w2 : UInt32
  w3 : UInt32
  deriving DecidableEq, Repr

def Words4.get (w : Words4) : Nat → UInt32
  | 0 => w.w0
  | 1 => w.w1
  | 2 => w.w2
  | _ => w.w3

/-- A counter-based generator: a pure function of counter and key. -/
abbrev IRng := Words4 → UInt32 × UInt32 → Words4

namespace Content

def GOLDEN : UInt64 := 0x9E3779B97F4A7C15

def HOLE_TAG : UInt64 := 1

def DUP_TAG : UInt64 := 2

def DUP2_TAG : UInt64 := 3

def DATA_TAG : UInt64 := 4

def CORPUS_TAG : UInt64 := 5

def mix64 (x : UInt64) : UInt64 :=
  let x := x ^^^ (x >>> 30)
  let x := x * 0xbf58476d1ce4e5b9
  let x := x ^^^ (x >>> 27)
  let x := x * 0x94d049bb133111eb
  x ^^^ (x >>> 31)

def h (a b tag : UInt64) : UInt64 := mix64 (mix64 (a * GOLDEN + b) + tag)

/-- The integer nearest to 2^(8 * entropy / 255), between 1 and 256. -/
def alphabet (entropy : UInt8) : Nat :=
  (((List.range 257).find? (fun k => 2 ^ (255 + 8 * entropy.toNat) < (2 * k + 1) ^ 255)).getD 256).max 1

def mapByte (v : UInt8) (K : Nat) : UInt8 :=
  if K ≤ 1 then 0 else UInt8.ofNat (v.toNat % K * 255 / (K - 1))

def isHole (c : ContentConfig) (seed b : UInt64) : Bool :=
  c.sparsePercent > 0 && h seed b HOLE_TAG % 100 < c.sparsePercent.toUInt64

def blockSrc (c : ContentConfig) (seed b : UInt64) : UInt64 :=
  if c.dedupPercent > 0 ∧ c.dedupCorpus > 0 ∧ h seed b DUP_TAG % 100 < c.dedupPercent.toUInt64 then
    h 0 (h seed b DUP2_TAG % c.dedupCorpus.toUInt64) CORPUS_TAG
  else h seed b DATA_TAG

/-- The sixteen bytes of one generator output, cut off at the block size. -/
def fillGroup (bs : UInt32) (K : Nat) (out : Words4) (off : UInt32) (buf : Bytes) : Bytes :=
  (List.range 16).foldl (fun buf i =>
    if off + UInt32.ofNat i < bs then
      buf.set (off + UInt32.ofNat i).toNat
        (mapByte (out.get (i / 4) >>> UInt32.ofNat (8 * (i % 4))).toUInt8 K)
    else buf) buf

/-- The loop of `genBlock` over 32-bit offsets; none when the fuel runs out. -/
def genLoop (gen : IRng) (bs bl bh : UInt32) (key : UInt32 × UInt32) (K : Nat) :
    Nat → UInt32 → UInt32 → Bytes → Option Bytes
  | 0, _, _, _ => none
  | fuel + 1, off, g, buf =>
    if off < bs then
      genLoop gen bs bl bh key K fuel (off + 16) (g + 1) (fillGroup bs K (gen ⟨bl, bh, g, 0⟩ key) off buf)
    else some buf

def genBlock (gen : IRng) (fuel : Nat) (c : ContentConfig) (seed b : UInt64) (K : Nat) (buf : Bytes) :
    Option Bytes :=
  if isHole c seed b then some (List.replicate c.blockSize.toNat 0 ++ buf.drop c.blockSize.toNat)
  else
    let src := blockSrc c seed b
    genLoop gen c.blockSize b.toUInt32 (b >>> 32).toUInt32 (src.toUInt32, (src >>> 32).toUInt32) K fuel 0 0 buf

/-- One `memcpy` into the output: `count` bytes of `block` from `src` on to `dst`. -/
structure Copy where
  dst : UInt64
  src : UInt64
  count : UInt64
  block : Bytes
  deriving DecidableEq, Repr

structure ReadResult where
  ret : UInt64
  copies : List Copy
  deriving DecidableEq, Repr

/-- The part of block `b` that `[offset, stop)` asks for. -/
def copyOf (bs offset stop b : UInt64) (block : Bytes) : Copy :=
  let bstart := b * bs
  let s := max offset bstart
  let e := min stop (bstart + bs)
  ⟨s - offset, s - bstart, e - s, block⟩

def blockLoop (block : UInt64 → Bytes → Option Bytes) (bs offset stop last : UInt64) :
    Nat → UInt64 → Bytes → Option (List Copy)
  | 0, _, _ => none
  | fuel + 1, b, buf =>
    if b ≤ last then
      match block b buf with
      | none => none
      | some buf =>
        (blockLoop block bs offset stop last fuel (b + 1) buf).map (fun cs => copyOf bs offset stop b buf :: cs)
    else some []

/-- `content::read`; none when the fuel of one of its loops runs out. -/
def read (gen : IRng) (fuel : Nat) (c : ContentConfig) (seed size offset len : UInt64) : Option ReadResult :=
  if size ≤ offset ∨ len = 0 then some ⟨0, []⟩
  else
    let stop := min (offset + len) size
    let bs : UInt32 := if c.blockSize ≠ 0 then c.blockSize else 1
    let K := alphabet c.entropy
    (blockLoop (fun b buf => genBlock gen fuel c seed b K buf) bs.toUInt64 offset stop
      ((stop - 1) / bs.toUInt64) fuel (offset / bs.toUInt64) (List.replicate bs.toNat 0)).map
      (fun cs => ⟨stop - offset, cs⟩)

end Content

end Prfs
