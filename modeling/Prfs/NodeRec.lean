import Prfs.KeyCodec

namespace Prfs

/-- The `w` bytes of `n` in the host's (little-endian) memory order. -/
def leBytes : Nat → Nat → Bytes
  | 0, _ => []
  | w + 1, n => UInt8.ofNat (n % 256) :: leBytes w (n / 256)

def ofLe : Bytes → Nat
  | [] => 0
  | b :: bs => b.toNat + 256 * ofLe bs

@[simp] theorem leBytes_length (w n : Nat) : (leBytes w n).length = w := by
  induction w generalizing n with
  | zero => rfl
  | succ w ih => simp [leBytes, ih]

theorem ofLe_leBytes {w n : Nat} (h : n < 256 ^ w) : ofLe (leBytes w n) = n := by
  induction w generalizing n with
  | zero =>
    obtain rfl : n = 0 := by simpa using h
    rfl
  | succ w ih =>
    have hd : n / 256 < 256 ^ w := Nat.div_lt_of_lt_mul (by rwa [pow_succ, Nat.mul_comm] at h)
    have hm : n % 256 < 2 ^ 8 := Nat.mod_lt n (by decide)
    rw [leBytes, ofLe, ih hd, UInt8.toNat_ofNat', Nat.mod_eq_of_lt hm]
    exact Nat.mod_add_div n 256

/-- `memcpy` of a word out of the front of a buffer, and the rest of the buffer. -/
def u32Field (v : Bytes) : UInt32 × Bytes := (UInt32.ofNat (ofLe (v.take 4)), v.drop 4)

def u64Field (v : Bytes) : UInt64 × Bytes := (UInt64.ofNat (ofLe (v.take 8)), v.drop 8)

@[simp] theorem u32Field_append (x : UInt32) (s : Bytes) :
    u32Field (leBytes 4 x.toNat ++ s) = (x, s) := by
  have hx : x.toNat < 256 ^ 4 := by simpa using x.toNat_lt
  have ht : (leBytes 4 x.toNat ++ s).take 4 = leBytes 4 x.toNat := List.take_left' (by simp)
  have hd : (leBytes 4 x.toNat ++ s).drop 4 = s := List.drop_left' (by simp)
  simp only [u32Field, ht, hd, ofLe_leBytes hx, UInt32.ofNat_toNat]

@[simp] theorem u64Field_append (x : UInt64) (s : Bytes) :
    u64Field (leBytes 8 x.toNat ++ s) = (x, s) := by
  have hx : x.toNat < 256 ^ 8 := by simpa using x.toNat_lt
  have ht : (leBytes 8 x.toNat ++ s).take 8 = leBytes 8 x.toNat := List.take_left' (by simp)
  have hd : (leBytes 8 x.toNat ++ s).drop 8 = s := List.drop_left' (by simp)
  simp only [u64Field, ht, hd, ofLe_leBytes hx, UInt64.ofNat_toNat]

inductive FType
  | REG | DIR | LNK | BLK | CHR | FIFO | SOCK
  deriving DecidableEq, Repr

def FType.code : FType → UInt32
  | .REG => 0
  | .DIR => 1
  | .LNK => 2
  | .BLK => 3
  | .CHR => 4
  | .FIFO => 5
  | .SOCK => 6

/-- The cast `Type(x)`; only the seven codes are ever stored. -/
def FType.ofCode (x : UInt32) : FType :=
  match x.toNat with
  | 1 => .DIR
  | 2 => .LNK
  | 3 => .BLK
  | 4 => .CHR
  | 5 => .FIFO
  | 6 => .SOCK
  | _ => .REG

@[simp] theorem FType.ofCode_code (t : FType) : FType.ofCode t.code = t := by
  cases t <;> rfl

@[simp] theorem FType.code_inj {t u : FType} : t.code = u.code ↔ t = u := by
  refine ⟨fun h => ?_, congrArg _⟩
  rw [← FType.ofCode_code t, h, FType.ofCode_code]

structure NodeRec where
  type : UInt32 := 0
  mode : UInt32 := 0
  uid : UInt32 := 0
  gid : UInt32 := 0
  nlink : UInt32 := 0
  atimeNs : UInt32 := 0
  mtimeNs : UInt32 := 0
  size : UInt64 := 0
  atime : UInt64 := 0
  mtime : UInt64 := 0
  ctime : UInt64 := 0
  spec : UInt64 := 0
  dnLinkVer : UInt64 := 0
  upLinkVer : UInt64 := 0
  blob : Bytes := []
  deriving DecidableEq, Repr

def serialize (r : NodeRec) : Bytes :=
  leBytes 4 r.type.toNat ++ (leBytes 4 r.mode.toNat ++ (leBytes 4 r.uid.toNat ++
  (leBytes 4 r.gid.toNat ++ (leBytes 4 r.nlink.toNat ++ (leBytes 8 r.size.toNat ++
  (leBytes 8 r.atime.toNat ++ (leBytes 8 r.mtime.toNat ++ (leBytes 8 r.ctime.toNat ++
  (leBytes 8 r.spec.toNat ++ (leBytes 8 r.dnLinkVer.toNat ++ (leBytes 8 r.upLinkVer.toNat ++
  (leBytes 4 r.atimeNs.toNat ++ (leBytes 4 r.mtimeNs.toNat ++ r.blob)))))))))))))

def deserialize (v : Bytes) : NodeRec :=
  let (type, v) := u32Field v
  let (mode, v) := u32Field v
  let (uid, v) := u32Field v
  let (gid, v) := u32Field v
  let (nlink, v) := u32Field v
  let (size, v) := u64Field v
  let (atime, v) := u64Field v
  let (mtime, v) := u64Field v
  let (ctime, v) := u64Field v
  let (spec, v) := u64Field v
  let (dnLinkVer, v) := u64Field v
  let (upLinkVer, v) := u64Field v
  let (atimeNs, v) := u32Field v
  let (mtimeNs, v) := u32Field v
  { type, mode, uid, gid, nlink, atimeNs, mtimeNs, size, atime, mtime, ctime, spec,
    dnLinkVer, upLinkVer, blob := v }

/-- A stored record decodes to the record it was written from. -/
@[simp] theorem deserialize_serialize (r : NodeRec) : deserialize (serialize r) = r := by
  simp only [serialize, deserialize, u32Field_append, u64Field_append]

/-- Permission bits of a fresh node. -/
def defaultMode : FType → UInt32
  | .DIR => 0o755
  | .LNK => 0o777
  | _ => 0o644

end Prfs
