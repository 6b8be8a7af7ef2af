import Prfs.Content
import Prfs.StoreRead
import Prfs.XdrWriter

namespace Prfs

namespace Content

/-- 512-byte blocks of the bytes outside holes. -/
def allocatedBlocks (c : ContentConfig) (seed size : UInt64) : UInt64 :=
  if size = 0 then 0
  else
    let bs : UInt64 := (if c.blockSize ≠ 0 then c.blockSize else 1 : UInt32).toUInt64
    let nblocks := (size + bs - 1) / bs
    let allocBytes := (List.range nblocks.toNat).foldl (fun (acc : UInt64) b =>
      if isHole c seed (UInt64.ofNat b) then acc else acc + min bs (size - UInt64.ofNat b * bs)) 0
    (allocBytes + 511) / 512

end Content

/-- The content seed after a WRITE; both plugins fold the offset and the data into it so. -/
def mixSeed (seed off : UInt64) (data : Bytes) : UInt64 :=
  let h := data.foldl (fun h c => (h ^^^ c.toUInt64) * 0x100000001B3) (seed ^^^ (off + 0x9E3779B97F4A7C15))
  if h ≠ 0 then h else 1

/-- A content provider: the bytes it puts into an output of the given length, from the
store's policy, the file's seed and size, and an offset. -/
abbrev Provider := Bytes → UInt64 → UInt64 → UInt64 → Nat → Bytes

/-- What a service is given by its host and does not change: the active content provider, the option to
advance the clock, and the policy the service published when it started. -/
structure Host where
  provider : Option Provider := none
  advance : Bool := false
  used : Option ContentConfig := none

namespace PrfsStore

def mkdir (s : PrfsStore) : Node × PrfsStore := s.alloc .DIR [] 0

def mkfile (s : PrfsStore) (content : Bytes) : Node × PrfsStore := s.alloc .REG content 0

def symlink (s : PrfsStore) (target : Bytes) : Node × PrfsStore := s.alloc .LNK target 0

def mkfifo (s : PrfsStore) : Node × PrfsStore := s.alloc .FIFO [] 0

def mksock (s : PrfsStore) : Node × PrfsStore := s.alloc .SOCK [] 0

def mknod (s : PrfsStore) (t : FType) (maj min : UInt32) : Node × PrfsStore := s.alloc t [] (devSpec maj min)

end PrfsStore

/-- The store after the data of a WRITE: no bytes are kept, the data goes into the seed. Both plugins do this. -/
def writeData (fs : PrfsStore) (n : Node) (off : UInt64) (data : Bytes) : PrfsStore :=
  let fs := (fs.setContentSeed n (mixSeed (fs.attrs n).contentSeed off data)).2
  let stop := off + UInt64.ofNat data.length
  let fs := if (fs.attrs n).size < stop then fs.setAttr n (.size stop) else fs
  fs.setAttr n (.mtime fs.now)

/-- A write handle names the live tree; snapshot views are read-only. -/
def live (snap : UInt64) : Bool := snap = LATEST

/-- A change of names bumps the times of the directory, in both plugins. -/
def touchDir (fs : PrfsStore) (dir : Node) : PrfsStore :=
  (fs.setAttr dir (.mtime fs.now)).setAttr dir (.ctime fs.now)

namespace Host

/-- The bytes of a file; without a provider it reads as a hole. -/
def read (h : Host) (fs : PrfsStore) (file : Node) (off : UInt64) (len : Nat) : Bytes :=
  let a := fs.attrs file
  if a.size ≤ off ∨ len = 0 then []
  else
    match h.provider with
    | some read => read fs.contentConfig a.contentSeed a.size off len
    | none => List.replicate (min len (a.size - off).toNat) 0

/-- Bytes that a node takes up: those outside holes, where a policy is published. -/
def usedBytes (h : Host) (fs : PrfsStore) (n : Node) : UInt64 :=
  let a := fs.attrs n
  match h.used with
  | some cfg => if a.type = .REG then Content.allocatedBlocks cfg a.contentSeed a.size * 512 else a.size
  | none => a.size

end Host

end Prfs
