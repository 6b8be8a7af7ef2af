import Prfs.Nfs4Read

namespace Prfs

/-- `std::isspace` in the C locale. -/
def isSpace (c : UInt8) : Bool := c = 32 || (9 ≤ c && c ≤ 13)

def isDigit (c : UInt8) : Bool := 48 ≤ c && c ≤ 57

/-- `std::strtoul` of base ten: blanks, a sign, digits; the largest value on overflow. -/
def strtoul (s : Bytes) : UInt64 :=
  let s := (s.takeWhile (· ≠ 0)).dropWhile isSpace
  let neg := s.head? = some 45
  let s := if neg || s.head? = some 43 then s.drop 1 else s
  let v := (s.takeWhile isDigit).foldl (fun v c => v * 10 + (c - 48).toNat) 0
  if 2 ^ 64 ≤ v then 0xffffffffffffffff else if neg then 0 - UInt64.ofNat v else UInt64.ofNat v

namespace NfsV4

def SET_TO_CLIENT_TIME4 : UInt32 := 1

/-- The value of one settable attribute and the setters it stands for; none where the attribute
cannot be set. The clock is what a time set by the server becomes. -/
def readFattr (m : Msg) (now : UInt64) (r : Reader) : Nat → Option (List Setter × Reader)
  | 4 =>
    let (s, r) := r.u64 m
    some ([.size s], r)
  | 33 =>
    let (x, r) := r.u32 m
    some ([.mode (x &&& 0xFFF)], r)
  | 36 =>
    let (o, r) := r.str m
    some ([.uid (strtoul o).toUInt32], r)
  | 37 =>
    let (g, r) := r.str m
    some ([.gid (strtoul g).toUInt32], r)
  | 48 =>
    let (t, r) := readSettime m now r
    some ([.atime t.1, .atimeNsec t.2], r)
  | 54 =>
    let (t, r) := readSettime m now r
    some ([.mtime t.1, .mtimeNsec t.2], r)
  | _ => none
where
  readSettime (m : Msg) (now : UInt64) (r : Reader) : (UInt64 × UInt32) × Reader :=
    let (how, r) := r.u32 m
    if how = SET_TO_CLIENT_TIME4 then
      let (sec, r) := r.u64 m
      let (nsec, r) := r.u32 m
      ((sec, nsec), r)
    else ((now, 0), r)

/-- The attributes of the bits in turn, each set as soon as it is read; false at the first that cannot be set. -/
def fattrLoop (m : Msg) (n : Node) : List Nat → Reader → PrfsStore → Bool × Reader × PrfsStore
  | [], r, fs => (true, r, fs)
  | b :: bs, r, fs =>
    match readFattr m fs.now r b with
    | none => (false, r, fs)
    | some (as, r) => fattrLoop m n bs r (as.foldl (fun fs a => fs.setAttr n a) fs)

def bitsOf (bm : List UInt32) : List Nat := (List.range (bm.length * 32)).filter (requested bm)

def applyFattr4 (m : Msg) (r : Reader) (n : Node) (fs : PrfsStore) : Nfsstat4 × Reader × PrfsStore :=
  let (bm, r) := r.bitmap m
  let (_, r) := r.u32 m
  match fattrLoop m n (bitsOf bm) r fs with
  | (false, r, fs) => (.attrnotsupp, r, fs)
  | (true, r, fs) => (if r.ok then .ok else .inval, r, fs)

/-- Consume a `fattr4` by the length it gives. -/
def skipFattr (m : Msg) (r : Reader) : Reader :=
  let (_, r) := r.bitmap m
  let (len, r) := r.u32 m
  r.skip m (padded len)

/-- The object of a CREATE; none for a type that is not created so. -/
def createNode (fs : PrfsStore) (type : UInt32) (linkdata : Bytes) (maj min : UInt32) : Option (Node × PrfsStore) :=
  match type.toNat with
  | 2 => some fs.mkdir
  | 5 => some (fs.symlink linkdata)
  | 3 => some (fs.mknod .BLK maj min)
  | 4 => some (fs.mknod .CHR maj min)
  | 6 => some fs.mksock
  | 7 => some fs.mkfifo
  | _ => none

/-- The arguments of a CREATE up to the name: the type, its data, and the name. -/
def readCreate (m : Msg) (r : Reader) : (UInt32 × Bytes × UInt32 × UInt32 × Bytes) × Reader :=
  let (type, r) := r.u32 m
  if type = ftype4 .LNK then
    let (linkdata, r) := r.str m
    let (name, r) := r.str m
    ((type, linkdata, 0, 0, name), r)
  else if type = ftype4 .BLK ∨ type = ftype4 .CHR then
    let (maj, r) := r.u32 m
    let (min, r) := r.u32 m
    let (name, r) := r.str m
    ((type, [], maj, min, name), r)
  else
    let (name, r) := r.str m
    ((type, [], 0, 0, name), r)

namespace Call4

variable (c : Call4) (isLive : UInt64 → Bool) (m : Msg)

def opWrite : Out4 :=
  let (sid, r) := readStateid m c.r
  let (off, r) := r.u64 m
  let (_, r) := r.u32 m
  let (data, r) := r.str m
  let c := { c with r }
  match c.cur with
  | none => c.exit .nofilehandle
  | some n =>
    if !c.liveCfh isLive then c.exit .rofs
    else if (c.fs.attrs n).type = .DIR then c.exit .isdir
    else
      match refuses c.v sid n.id ACCESS_WRITE with
      | some st => c.exit st
      | none =>
        { c with fs := writeData c.fs n off data }.exitWith .ok
          (fun w => zeros8 ((w.u32 (UInt32.ofNat data.length)).u32 2))

def opSetattr : Out4 :=
  let c := { c with r := c.r.skip m 16 }
  match c.cur with
  | none => c.exit .nofilehandle
  | some n =>
    if !c.liveCfh isLive then { c with r := skipFattr m c.r }.exitWith .rofs (fun w => w.u32 0)
    else
      let (st, r, fs) := applyFattr4 m c.r n c.fs
      let fs := if st = .ok then fs.setAttr n (.ctime fs.now) else fs
      { c with r, fs }.exitWith st (fun w => w.u32 0)

def opCreate : Out4 :=
  let ((type, linkdata, maj, min, name), r) := readCreate m c.r
  let c := { c with r }
  match c.cur with
  | none => c.exit .notdir
  | some dir =>
    if (c.fs.attrs dir).type ≠ .DIR then c.exit .notdir
    else if !c.liveCfh isLive then { c with r := skipFattr m c.r }.exit .rofs
    else
      match createNode c.fs type linkdata maj min with
      | none => c.exit .inval
      | some (child, fs) =>
        let before := (fs.attrs dir).ctime
        match fs.link dir name child with
        | (.OK, fs) =>
          -- The status of the attributes is dropped.
          let (_, r, fs) := applyFattr4 m c.r child fs
          let fs := touchDir fs dir
          { c with r, fs, cfh := some child }.exitWith .ok
            (fun w => (((changeInfo w before (fs.attrs dir).ctime).u32 2).u32 0).u32 0)
        | (_, fs) => { c with fs }.exit .exist

def opRemove : Out4 :=
  let (name, r) := c.r.str m
  let c := { c with r }
  match c.cur with
  | none => c.exit .notdir
  | some dir =>
    if (c.fs.attrs dir).type ≠ .DIR then c.exit .notdir
    else if !c.liveCfh isLive then c.exit .rofs
    else if (c.fs.lookup dir name).any (fun victim =>
        (c.fs.attrs victim).type = .DIR && !(c.fs.readdir victim).isEmpty) then c.exit .notempty
    else
      let before := (c.fs.attrs dir).ctime
      match c.fs.unlink dir name with
      | (.OK, fs) =>
        let fs := touchDir fs dir
        { c with fs }.exitWith .ok (fun w => changeInfo w before (fs.attrs dir).ctime)
      | (e, fs) => { c with fs }.exit (toNfs4 e)

/-- From the directory of the saved handle to that of the current one. -/
def opRename : Out4 :=
  let (oldname, r) := c.r.str m
  let (newname, r) := r.str m
  let c := { c with r }
  match c.sfh, c.cfh with
  | some s, some d =>
    match c.fs.nodeById s.id s.snap, c.fs.nodeById d.id d.snap with
    | some sdir, some ddir =>
      if !isLive s.snap || !isLive d.snap then c.exit .rofs
      else
        let sbefore := (c.fs.attrs sdir).ctime
        let dbefore := (c.fs.attrs ddir).ctime
        match c.fs.move sdir oldname ddir newname with
        | (.OK, fs) =>
          let fs := touchDir (touchDir fs sdir) ddir
          { c with fs }.exitWith .ok (fun w =>
            changeInfo (changeInfo w sbefore (fs.attrs sdir).ctime) dbefore (fs.attrs ddir).ctime)
        | (e, fs) => { c with fs }.exit (toNfs4 e)
    | _, _ => c.exit .stale
  | _, _ => c.exit .nofilehandle

/-- The file of the saved handle into the directory of the current one; only the latter is asked to be live. -/
def opLink : Out4 :=
  let (newname, r) := c.r.str m
  let c := { c with r }
  match c.sfh, c.cfh with
  | some s, some d =>
    match c.fs.nodeById s.id s.snap, c.fs.nodeById d.id d.snap with
    | some file, some dir =>
      if (c.fs.attrs dir).type ≠ .DIR then c.exit .notdir
      else if !isLive d.snap then c.exit .rofs
      else
        let before := (c.fs.attrs dir).ctime
        match c.fs.link dir newname file with
        | (.OK, fs) =>
          let fs := touchDir fs dir
          { c with fs }.exitWith .ok (fun w => changeInfo w before (fs.attrs dir).ctime)
        | (e, fs) => { c with fs }.exit (toNfs4 e)
    | _, _ => c.exit .notdir
  | _, _ => c.exit .nofilehandle

end Call4

end NfsV4

end Prfs
