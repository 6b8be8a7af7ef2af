import Prfs.StoreRead

namespace Prfs

def CK_ENTRY : UInt64 := 0x8000000000000000

def CK_CACHE_MAX : Nat := 0x10000

/-- The cookie of an entry: a hash of its name with the top bit set. -/
def nameCookie (name : Bytes) : UInt64 :=
  name.foldl (fun h c => (h ^^^ c.toUInt64) * 1099511628211) 1469598103934665603 ||| CK_ENTRY

def rememberCookie (ckName : OrdMap UInt64 Bytes) (ck : UInt64) (name : Bytes) : OrdMap UInt64 Bytes :=
  (if CK_CACHE_MAX ≤ ckName.entries.length then OrdMap.empty else ckName).put ck name

/-- Pages until one holds an entry of the cookie. -/
def resumeLoop (fs : PrfsStore) (dir : Node) (ck : UInt64) : Nat → Bytes → Option Bytes
  | 0, _ => none
  | fuel + 1, after =>
    let pg := fs.readdirPage dir after 256
    match pg.entries.find? (fun e => nameCookie e.1 = ck) with
    | some e => some e.1
    | none => if pg.entries.isEmpty || pg.eof then none else resumeLoop fs dir ck fuel pg.cookie

/-- No page but the last is empty, so there are at most as many as entries. -/
def pageFuel (fs : PrfsStore) (dir : Node) : Nat := (fs.readdir dir).length + 1

/-- The name that a cookie resumes after: from the cache, or by a scan. Both plugins have
this bridge from cookies to names. -/
def resumeName (ckName : OrdMap UInt64 Bytes) (fs : PrfsStore) (dir : Node) (ck : UInt64) : Option Bytes :=
  match ckName.get ck with
  | some name => some name
  | none => resumeLoop fs dir ck (pageFuel fs dir) []

/-- The parent that is shown of a directory: the first one, or itself where it has none. -/
def firstParent (fs : PrfsStore) (dir : Node) : Node := ((fs.parents dir).head?).getD dir

end Prfs
