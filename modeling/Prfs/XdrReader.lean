import Prfs.ByteOrder

namespace Prfs

/-- One message: its bytes, and the memory behind them. A vector of bytes has fewer
than 2^63 of them. -/
structure Msg where
  buf : Bytes
  beyond : Nat → UInt8
  small : buf.length < 2 ^ 63

namespace Msg

def n (m : Msg) : UInt64 := UInt64.ofNat m.buf.length

def byte (m : Msg) (i : Nat) : UInt8 := m.buf.getD i (m.beyond i)

def slice (m : Msg) (i k : Nat) : Bytes := (List.range k).map (fun j => m.byte (i + j))

def rd32 (m : Msg) (i : Nat) : UInt32 :=
  (m.byte i).toUInt32 <<< 24 ||| (m.byte (i + 1)).toUInt32 <<< 16 ||| (m.byte (i + 2)).toUInt32 <<< 8 |||
    (m.byte (i + 3)).toUInt32

def rd64 (m : Msg) (i : Nat) : UInt64 := (m.rd32 i).toUInt64 <<< 32 ||| (m.rd32 (i + 4)).toUInt64

end Msg

/-- The reader of both plugins; `seen` records the spans it dereferences. -/
structure Reader where
  pos : UInt64 := 0
  ok : Bool := true
  seen : List (Nat × Nat) := []
  deriving DecidableEq, Repr

/-- A length rounded up to a multiple of four, the sum in 32 bits. -/
def padded (len : UInt32) : UInt64 := (len + 3).toUInt64 &&& ~~~3

structure Cred where
  uid : UInt32 := 0
  gid : UInt32 := 0
  sys : Bool := false
  deriving DecidableEq, Repr

def AUTH_SYS : UInt32 := 1

namespace Reader

def fail (r : Reader) : Reader := { r with ok := false }

/-- Dereference `k` bytes at the position. -/
def touch (r : Reader) (k : Nat) : Reader := { r with seen := r.seen ++ [(r.pos.toNat, k)] }

def u32 (m : Msg) (r : Reader) : UInt32 × Reader :=
  if r.pos + 4 > m.n then (0, r.fail)
  else (m.rd32 r.pos.toNat, { r.touch 4 with pos := r.pos + 4 })

def u64 (m : Msg) (r : Reader) : UInt64 × Reader :=
  let (hi, r) := r.u32 m
  let (lo, r) := r.u32 m
  (hi.toUInt64 <<< 32 ||| lo.toUInt64, r)

def skip (m : Msg) (r : Reader) (k : UInt64) : Reader :=
  if r.pos + k > m.n then r.fail else { r with pos := r.pos + k }

/-- Version 4 calls `skip`; version 3 writes the same test out. -/
def skipOpaque (m : Msg) (r : Reader) : Reader :=
  let (len, r) := r.u32 m
  r.skip m (padded len)

def str (m : Msg) (r : Reader) : Bytes × Reader :=
  let (len, r) := r.u32 m
  let pad := padded len
  if !r.ok || r.pos + pad > m.n then ([], r.fail)
  else (m.slice r.pos.toNat len.toNat, { r.touch len.toNat with pos := r.pos + pad })

def skipAuth (m : Msg) (r : Reader) : Reader :=
  let (_, r) := r.u32 m
  r.skipOpaque m

/-- `fh` of version 3: both words straight from the buffer. -/
def fh3 (m : Msg) (r : Reader) : Option (UInt64 × UInt64) × Reader :=
  let (len, r) := r.u32 m
  if !r.ok || len != 16 || r.pos + 16 > m.n then (none, r.fail)
  else (some (m.rd64 r.pos.toNat, m.rd64 (r.pos.toNat + 8)), { r.touch 16 with pos := r.pos + 16 })

/-- `fh` of version 4: through `u64`. -/
def fh4 (m : Msg) (r : Reader) : Option (UInt64 × UInt64) × Reader :=
  let (len, r) := r.u32 m
  if !r.ok || len != 16 || r.pos + 16 > m.n then (none, r.fail)
  else
    let (id, r) := r.u64 m
    let (snap, r) := r.u64 m
    (some (id, snap), r)

def readCred (m : Msg) (r : Reader) : Cred × Reader :=
  let (flavor, r) := r.u32 m
  let (len, r) := r.u32 m
  let stop := r.pos + padded len
  if !r.ok || stop > m.n then ({}, r.fail)
  else if flavor = AUTH_SYS then
    let (_, r) := r.u32 m
    let r := r.skipOpaque m
    let (uid, r) := r.u32 m
    let (gid, r) := r.u32 m
    ({ uid, gid, sys := true }, { r with pos := stop })
  else ({}, { r with pos := stop })

def words (m : Msg) : Nat → Reader → List UInt32 × Reader
  | 0, r => ([], r)
  | k + 1, r =>
    let (w, r) := r.u32 m
    let (ws, r) := words m k r
    (w :: ws, r)

def bitmap (m : Msg) (r : Reader) : List UInt32 × Reader :=
  let (cnt, r) := r.u32 m
  if cnt > 16 then ([], r.fail) else words m cnt.toNat r

end Reader

inductive NfsVersion
  | v3 | v4
  deriving DecidableEq, Repr

/-- The operations of a reader; `readCred` is in version 3 only and `bitmap` in
version 4 only. -/
inductive ReadOp : NfsVersion → Type
  | u32 {v : NfsVersion} : ReadOp v
  | u64 {v : NfsVersion} : ReadOp v
  | str {v : NfsVersion} : ReadOp v
  | skip {v : NfsVersion} (k : UInt64) : ReadOp v
  | skipOpaque {v : NfsVersion} : ReadOp v
  | skipAuth {v : NfsVersion} : ReadOp v
  | fh {v : NfsVersion} : ReadOp v
  | readCred : ReadOp .v3
  | bitmap : ReadOp .v4
  deriving DecidableEq

def Reader.step (m : Msg) (r : Reader) {v : NfsVersion} : ReadOp v → Reader
  | .u32 => (r.u32 m).2
  | .u64 => (r.u64 m).2
  | .str => (r.str m).2
  | .skip k => r.skip m k
  | .skipOpaque => r.skipOpaque m
  | .skipAuth => r.skipAuth m
  | .fh => match v with
    | .v3 => (r.fh3 m).2
    | .v4 => (r.fh4 m).2
  | .readCred => (r.readCred m).2
  | .bitmap => (r.bitmap m).2

/-- A reader after a sequence of operations on a fresh message. -/
def Reader.read (m : Msg) {v : NfsVersion} (ops : List (ReadOp v)) : Reader :=
  ops.foldl (fun r op => r.step m op) {}

end Prfs
