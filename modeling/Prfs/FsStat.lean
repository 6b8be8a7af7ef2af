import Prfs.StoreRead

namespace Prfs

structure FsConfig where
  blockSize : UInt64 := 4096
  capacityBytes : UInt64 := 0x10000000000
  capacityFiles : UInt64 := 0x100000000
  rtmax : UInt32 := 0x100000
  rtpref : UInt32 := 0x100000
  rtmult : UInt32 := 4096
  wtmax : UInt32 := 0x100000
  wtpref : UInt32 := 0x100000
  wtmult : UInt32 := 4096
  dtpref : UInt32 := 0x10000
  maxfilesize : UInt64 := 0x7fffffffffffffff
  timeDeltaSec : UInt32 := 0
  timeDeltaNsec : UInt32 := 1
  /-- Hard links, symbolic links, one PATHCONF for all, settable times. -/
  properties : UInt32 := 0x0001 ||| 0x0002 ||| 0x0008 ||| 0x0010
  deriving DecidableEq, Repr

structure FsStat where
  tbytes : UInt64 := 0
  fbytes : UInt64 := 0
  abytes : UInt64 := 0
  tfiles : UInt64 := 0
  ffiles : UInt64 := 0
  afiles : UInt64 := 0
  invarsec : UInt32 := 0
  deriving DecidableEq, Repr

structure FsInfo where
  rtmax : UInt32 := 0
  rtpref : UInt32 := 0
  rtmult : UInt32 := 0
  wtmax : UInt32 := 0
  wtpref : UInt32 := 0
  wtmult : UInt32 := 0
  dtpref : UInt32 := 0
  maxfilesize : UInt64 := 0
  timeDeltaSec : UInt32 := 0
  timeDeltaNsec : UInt32 := 0
  properties : UInt32 := 0
  deriving DecidableEq, Repr

def freeOf (used capacity : UInt64) : UInt64 := if used < capacity then capacity - used else 0

/-- The usage of a view, the used bytes rounded up to whole blocks, against a capacity. -/
def fsStat (s : Stats) (cfg : FsConfig) : FsStat :=
  let usedFiles := s.nodes.foldl (· + ·) 0
  let block := if cfg.blockSize ≠ 0 then cfg.blockSize else 1
  let usedBytes := (s.totalSize + block - 1) / block * block
  let tbytes := if usedBytes < cfg.capacityBytes then cfg.capacityBytes else usedBytes
  let tfiles := if usedFiles < cfg.capacityFiles then cfg.capacityFiles else usedFiles
  { tbytes, fbytes := freeOf usedBytes tbytes, abytes := freeOf usedBytes tbytes
    tfiles, ffiles := freeOf usedFiles tfiles, afiles := freeOf usedFiles tfiles, invarsec := 0 }

def fsInfo (cfg : FsConfig) : FsInfo :=
  { rtmax := cfg.rtmax, rtpref := cfg.rtpref, rtmult := cfg.rtmult, wtmax := cfg.wtmax
    wtpref := cfg.wtpref, wtmult := cfg.wtmult, dtpref := cfg.dtpref, maxfilesize := cfg.maxfilesize
    timeDeltaSec := cfg.timeDeltaSec, timeDeltaNsec := cfg.timeDeltaNsec, properties := cfg.properties }

end Prfs
