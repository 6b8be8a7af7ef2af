import Prfs.DirCookies
import Prfs.FsStat
import Prfs.Nfs3Reply

namespace Prfs

namespace NfsV3

section Readers

variable (h : Host) (v : NfsV3) (m : Msg) (r : Reader) (w : Writer)

def nfsGetattr : Out :=
  match r.fh3 m with
  | (none, _) => garbage v w
  | (some (id, snap), _) =>
    match v.fs.nodeById id snap with
    | none => answer v (w.u32 Nfsstat3.stale.code)
    | some n => answer v (encodeFattr h v.fs (w.u32 Nfsstat3.ok.code) n)

def nfsReadlink : Out :=
  match r.fh3 m with
  | (none, _) => garbage v w
  | (some (id, snap), _) =>
    match v.fs.nodeById id snap with
    | none => answer v (w.u32 Nfsstat3.stale.code)
    | some n =>
      if (v.fs.attrs n).type ≠ .LNK then
        answer v (encodePostOp h v.fs (w.u32 Nfsstat3.inval.code) (some n))
      else answer v ((encodePostOp h v.fs (w.u32 Nfsstat3.ok.code) (some n)).str (v.fs.attrs n).target)

def nfsLookup : Out :=
  match r.fh3 m with
  | (none, _) => garbage v w
  | (some (id, snap), r) =>
    let (name, r) := r.str m
    if !r.ok then garbage v w
    else
      match v.fs.nodeById id snap with
      | none => answer v (w.u32 Nfsstat3.stale.code)
      | some dir =>
        if (v.fs.attrs dir).type ≠ .DIR then
          answer v (encodePostOp h v.fs (w.u32 Nfsstat3.notdir.code) (some dir))
        else
          match v.fs.lookup dir name with
          | none => answer v (encodePostOp h v.fs (w.u32 Nfsstat3.noent.code) (some dir))
          | some child =>
            let w := (w.u32 Nfsstat3.ok.code).fh child.id child.snap
            answer v (encodePostOp h v.fs (encodePostOp h v.fs w (some child)) (some dir))

def nfsAccess : Out :=
  match r.fh3 m with
  | (none, _) => garbage v w
  | (some (id, snap), r) =>
    let (want, r) := r.u32 m
    if !r.ok then garbage v w
    else
      match v.fs.nodeById id snap with
      | none => answer v (w.u32 Nfsstat3.stale.code)
      | some n => answer v ((encodePostOp h v.fs (w.u32 Nfsstat3.ok.code) (some n)).u32 want)

def MAX_READ : UInt32 := 0x100000

def nfsRead : Out :=
  match r.fh3 m with
  | (none, _) => garbage v w
  | (some (id, snap), r) =>
    let (off, r) := r.u64 m
    let (cnt, r) := r.u32 m
    if !r.ok then garbage v w
    else
      match v.fs.nodeById id snap with
      | none => answer v (w.u32 Nfsstat3.stale.code)
      | some n =>
        let a := v.fs.attrs n
        if a.type = .DIR then answer v (encodePostOp h v.fs (w.u32 Nfsstat3.isdir.code) (some n))
        else if a.type ≠ .REG then answer v (encodePostOp h v.fs (w.u32 Nfsstat3.inval.code) (some n))
        else
          let cnt := if MAX_READ < cnt then MAX_READ else cnt
          let buf := h.read v.fs n off cnt.toNat
          let eof := a.size ≤ off + UInt64.ofNat buf.length
          let w := encodePostOp h v.fs (w.u32 Nfsstat3.ok.code) (some n)
          answer v (((w.u32 (UInt32.ofNat buf.length)).u32 (if eof then 1 else 0)).bytes buf)

end Readers

/-- One listed entry with the cookie that resumes after it. -/
structure DirEnt where
  name : Bytes
  cookie : UInt64
  node : Node
  deriving DecidableEq, Repr

def CK_DOT : UInt64 := 1

def CK_DOTDOT : UInt64 := 2

def pad4 (n : Nat) : Nat := (n + 3) / 4 * 4

/-- The entries collected for one reply, the bytes they are counted with, and the cache. -/
structure Page where
  ents : List DirEnt := []
  budget : Nat := 128
  ckName : OrdMap UInt64 Bytes

/-- The size an entry is counted with. -/
def entrySize (perEntry : Nat) (name : Bytes) : Nat := 4 + 8 + 4 + pad4 name.length + 8 + perEntry

def fits (maxBytes perEntry : Nat) (p : Page) (name : Bytes) : Bool :=
  p.budget + entrySize perEntry name ≤ maxBytes

def Page.push (p : Page) (perEntry : Nat) (e : DirEnt) : Page :=
  { p with ents := p.ents ++ [e], budget := p.budget + entrySize perEntry e.name }

/-- Entries of a store page until one does not fit; true when all did. -/
def pageEntries (maxBytes perEntry : Nat) : List (Bytes × Node) → Page → Bool × Page
  | [], p => (true, p)
  | (name, node) :: es, p =>
    if !fits maxBytes perEntry p name then (false, p)
    else
      let ck := nameCookie name
      pageEntries maxBytes perEntry es
        { p.push perEntry ⟨name, ck, node⟩ with ckName := rememberCookie p.ckName ck name }

/-- The end flag and the entries from the store's cursor on. -/
def pageStore (fs : PrfsStore) (dir : Node) (maxBytes perEntry : Nat) : Nat → Bytes → Page → Bool × Page
  | 0, _, p => (false, p)
  | fuel + 1, after, p =>
    let pg := fs.readdirPage dir after 512
    match pageEntries maxBytes perEntry pg.entries p with
    | (false, p) => (false, p)
    | (true, p) =>
      if pg.entries.isEmpty || pg.eof then (true, p) else pageStore fs dir maxBytes perEntry fuel pg.cookie p

def dot : Bytes := ascii ['.']

def dotdot : Bytes := ascii ['.', '.']

/-- The entries of one reply after a cookie; none when the cookie cannot be resumed. -/
def pageDir (v : NfsV3) (dir : Node) (cookie : UInt64) (maxBytes perEntry : Nat) : Option (Bool × Page) :=
  let p : Page := { ckName := v.ckName }
  if cookie < CK_DOT && !fits maxBytes perEntry p dot then some (false, p)
  else
    let p := if cookie < CK_DOT then p.push perEntry ⟨dot, CK_DOT, dir⟩ else p
    if cookie < CK_DOTDOT && !fits maxBytes perEntry p dotdot then some (false, p)
    else
      let p := if cookie < CK_DOTDOT then p.push perEntry ⟨dotdot, CK_DOTDOT, firstParent v.fs dir⟩ else p
      if cookie &&& CK_ENTRY ≠ 0 then
        (resumeName v.ckName v.fs dir cookie).map (fun after =>
          pageStore v.fs dir maxBytes perEntry (pageFuel v.fs dir) after p)
      else some (pageStore v.fs dir maxBytes perEntry (pageFuel v.fs dir) [] p)

def encodeEntry (w : Writer) (e : DirEnt) : Writer :=
  (((w.u32 1).u64 (viewFileid e.node.id e.node.snap)).str e.name).u64 e.cookie

def encodeEntryPlus (h : Host) (fs : PrfsStore) (w : Writer) (e : DirEnt) : Writer :=
  ((encodePostOp h fs (encodeEntry w e) (some e.node)).u32 1).fh e.node.id e.node.snap

/-- The tail READDIR and READDIRPLUS share, each with its own encoding of an entry. -/
def listDir (h : Host) (v : NfsV3) (w : Writer) (id snap cookie : UInt64) (maxBytes perEntry : Nat)
    (encode : Writer → DirEnt → Writer) : Out :=
  match v.fs.nodeById id snap with
  | none => answer v (w.u32 Nfsstat3.stale.code)
  | some dir =>
    if (v.fs.attrs dir).type ≠ .DIR then
      answer v (encodePostOp h v.fs (w.u32 Nfsstat3.notdir.code) (some dir))
    else
      match pageDir v dir cookie maxBytes perEntry with
      | none => answer v (encodePostOp h v.fs (w.u32 Nfsstat3.badCookie.code) (some dir))
      | some (eof, p) =>
        let w := ((encodePostOp h v.fs (w.u32 Nfsstat3.ok.code) (some dir)).u32 0).u32 0
        let w := ((p.ents.foldl encode w).u32 0).u32 (if eof then 1 else 0)
        answer { v with ckName := p.ckName } w

section Listing

variable (h : Host) (v : NfsV3) (m : Msg) (r : Reader) (w : Writer)

def nfsReaddir : Out :=
  match r.fh3 m with
  | (none, _) => garbage v w
  | (some (id, snap), r) =>
    let (cookie, r) := r.u64 m
    let r := r.skip m 8
    let (count, r) := r.u32 m
    if !r.ok then garbage v w else listDir h v w id snap cookie count.toNat 0 encodeEntry

def nfsReaddirPlus : Out :=
  match r.fh3 m with
  | (none, _) => garbage v w
  | (some (id, snap), r) =>
    let (cookie, r) := r.u64 m
    let r := r.skip m 8
    let (_, r) := r.u32 m
    let (maxcount, r) := r.u32 m
    if !r.ok then garbage v w
    else listDir h v w id snap cookie maxcount.toNat (88 + 24) (encodeEntryPlus h v.fs)

/-- FSSTAT, FSINFO and PATHCONF: the object's attributes, then values of their own. -/
def nodeInfo (values : UInt64 → Writer → Writer) : Out :=
  match r.fh3 m with
  | (none, _) => garbage v w
  | (some (id, snap), _) =>
    match v.fs.nodeById id snap with
    | none => answer v (w.u32 Nfsstat3.stale.code)
    | some n => answer v (values snap (encodePostOp h v.fs (w.u32 Nfsstat3.ok.code) (some n)))

def nfsFsstat : Out :=
  nodeInfo h v m r w (fun snap w =>
    let st := fsStat (v.fs.stats snap) {}
    ((((((w.u64 st.tbytes).u64 st.fbytes).u64 st.abytes).u64 st.tfiles).u64 st.ffiles).u64 st.afiles).u32 st.invarsec)

def nfsFsinfo : Out :=
  nodeInfo h v m r w (fun _ w =>
    let fi := fsInfo {}
    let w := (((w.u32 fi.rtmax).u32 fi.rtpref).u32 fi.rtmult).u32 fi.wtmax
    let w := (((w.u32 fi.wtpref).u32 fi.wtmult).u32 fi.dtpref).u64 fi.maxfilesize
    ((w.u32 fi.timeDeltaSec).u32 fi.timeDeltaNsec).u32 fi.properties)

def PATHCONF_LINKMAX : UInt32 := 0xFFFF

def PATHCONF_NAMEMAX : UInt32 := 255

def nfsPathconf : Out :=
  nodeInfo h v m r w (fun _ w =>
    (((((w.u32 PATHCONF_LINKMAX).u32 PATHCONF_NAMEMAX).u32 1).u32 1).u32 0).u32 1)

/-- Writes are applied at once, so there is nothing to commit. -/
def nfsCommit : Out :=
  match r.fh3 m with
  | (none, _) => garbage v w
  | (some (id, snap), _) =>
    match v.fs.nodeById id snap with
    | none => answer v (encodeWcc h v.fs (w.u32 Nfsstat3.stale.code) none none)
    | some n =>
      let w := encodeWcc h v.fs (w.u32 Nfsstat3.ok.code) (preOf v.fs (some n)) (some n)
      answer v ((w.u32 0).u32 0)

def mountMnt : Out :=
  let (_, r) := r.str m
  if !r.ok then garbage v w
  else
    let root := v.fs.rwRoot
    answer v ((((((w.u32 0).fh root.id LATEST).u32 2).u32 0).u32 1))

def mountUmnt : Out :=
  let (_, r) := r.str m
  if !r.ok then garbage v w else answer v w

/-- One export, the root, with no group restriction. -/
def mountExport : Out := answer v ((((w.u32 1).str (ascii ['/'])).u32 0).u32 0)

end Listing

end NfsV3

end Prfs
