import Prfs.ByteOrder

namespace Prfs

/-- How a call is accepted. -/
inductive AcceptStat
  | success | progUnavail | progMismatch | procUnavail | garbageArgs
  deriving DecidableEq, Repr

def AcceptStat.code : AcceptStat → UInt32
  | .success => 0
  | .progUnavail => 1
  | .progMismatch => 2
  | .procUnavail => 3
  | .garbageArgs => 4

def PROG_NFS : UInt32 := 100003

def RPC_CALL : UInt32 := 0

def RPC_REPLY : UInt32 := 1

def MSG_ACCEPTED : UInt32 := 0

/-- The writer of both plugins: big-endian words appended to a byte vector. -/
structure Writer where
  v : Bytes := []
  deriving DecidableEq, Repr

/-- The bytes of a word, most significant first. -/
def word (x : UInt32) : Bytes := [(x >>> 24).toUInt8, (x >>> 16).toUInt8, (x >>> 8).toUInt8, x.toUInt8]

namespace Writer

def append (w : Writer) (bs : Bytes) : Writer := ⟨w.v ++ bs⟩

def u32 (w : Writer) (x : UInt32) : Writer := w.append (word x)

def u64 (w : Writer) (x : UInt64) : Writer := (w.u32 (x >>> 32).toUInt32).u32 x.toUInt32

def fh (w : Writer) (id snap : UInt64) : Writer := ((w.u32 16).u64 id).u64 snap

/-- Zeros up to a multiple of four bytes of the whole vector. -/
def pad (w : Writer) : Writer := w.append (List.replicate ((4 - w.v.length % 4) % 4) 0)

/-- A length and that many bytes; both plugins write `str` and their opaque data so. -/
def bytes (w : Writer) (data : Bytes) : Writer :=
  ((w.u32 (UInt32.ofNat data.length)).append data).pad

def str (w : Writer) (s : Bytes) : Writer := w.bytes s

/-- `time` of version 3: from the logical clock, without nanoseconds. -/
def time (w : Writer) (t : UInt64) : Writer := (w.u32 t.toUInt32).u32 0

def timeNs (w : Writer) (t : UInt64) (ns : UInt32) : Writer := (w.u32 t.toUInt32).u32 ns

/-- `time` of version 4, with 64-bit seconds. -/
def time4 (w : Writer) (sec : UInt64) (nsec : UInt32) : Writer := (w.u64 sec).u32 nsec

/-- The second writer has the bytes of the first, and may have more behind them. -/
def Pre (w w' : Writer) : Prop := w.v <+: w'.v

section Pre

variable {w w' : Writer}

theorem Pre.refl (w : Writer) : w.Pre w := List.prefix_refl _

theorem Pre.append (h : w.Pre w') (bs : Bytes) : w.Pre (w'.append bs) := h.trans (List.prefix_append _ _)

theorem Pre.u32 (h : w.Pre w') (x : UInt32) : w.Pre (w'.u32 x) := h.append _

theorem Pre.u64 (h : w.Pre w') (x : UInt64) : w.Pre (w'.u64 x) := (h.u32 _).u32 _

theorem Pre.fh (h : w.Pre w') (id snap : UInt64) : w.Pre (w'.fh id snap) := ((h.u32 _).u64 _).u64 _

theorem Pre.bytes (h : w.Pre w') (data : Bytes) : w.Pre (w'.bytes data) := ((h.u32 _).append _).append _

theorem Pre.str (h : w.Pre w') (s : Bytes) : w.Pre (w'.str s) := h.bytes s

theorem Pre.time4 (h : w.Pre w') (sec : UInt64) (nsec : UInt32) : w.Pre (w'.time4 sec nsec) :=
  (h.u64 _).u32 _

end Pre

end Writer

end Prfs
