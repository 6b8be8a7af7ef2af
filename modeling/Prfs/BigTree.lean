import Prfs.StoreRead
import Prfs.StoredCodecs

namespace Prfs

/-- `std::to_string` of a counter. -/
def decimal (n : Nat) : Bytes := if n = 0 then [48] else ((Nat.digits 10 n).map fun d => UInt8.ofNat (48 + d)).reverse

/-- The options of the plugin and what its generator of random numbers gives: the k-th whole number that is drawn between two bounds,
and the k-th file size. -/
structure BigTreeOptions where
  depth : Int := 4
  maxDirs : Int := 5
  maxFiles : Int := 8
  rounds : Int := 3
  force : Bool := false
  draw : Nat → Int → Int → Int
  size : Nat → UInt64

/-- The words that the names of the tree start with. -/
inductive Label
  | file | hardlink | symlink | dir | new | day
  deriving DecidableEq

namespace Label

/-- The name with a number behind it. -/
def name : Label → Nat → Bytes
  | .file, n => ascii ['f', 'i', 'l', 'e', '-'] ++ decimal n ++ ascii ['.', 'b', 'i', 'n']
  | .hardlink, n => ascii ['h', 'a', 'r', 'd', 'l', 'i', 'n', 'k', '-'] ++ decimal n ++ ascii ['.', 'b', 'i', 'n']
  | .symlink, n => ascii ['s', 'y', 'm', 'l', 'i', 'n', 'k', '-'] ++ decimal n
  | .dir, n => ascii ['d', 'i', 'r', '-'] ++ decimal n
  | .new, n => ascii ['n', 'e', 'w', '-'] ++ decimal n ++ ascii ['.', 'b', 'i', 'n']
  | .day, n => ascii ['d', 'a', 'y', '-'] ++ decimal n

end Label

structure FileRef where
  node : Node
  path : Bytes

/-- The store under construction, the regular files in it, the plugin's counts, and how many numbers and sizes have been drawn. -/
structure BigTree where
  fs : PrfsStore
  files : List FileRef := []
  dirs : Nat := 0
  hard : Nat := 0
  sym : Nat := 0
  id : Nat := 0
  drawn : Nat := 0
  sized : Nat := 0

namespace BigTree

def slash : UInt8 := 47

/-- `prefix + "/" + name` -/
def under (path name : Bytes) : Bytes := path ++ slash :: name

variable (o : BigTreeOptions)

def randi (b : BigTree) (lo hi : Int) : Int × BigTree :=
  if hi < lo then (lo, b) else (o.draw b.drawn lo hi, { b with drawn := b.drawn + 1 })

/-- A random one of the files. -/
def target (b : BigTree) : Option FileRef × BigTree :=
  let (k, b) := b.randi o 0 (b.files.length - 1)
  (b.files[k.toNat]?, b)

def addFile (dir : Node) (path : Bytes) (b : BigTree) : BigTree :=
  let name := Label.file.name (b.id + 1)
  let (f, fs) := b.fs.alloc .REG [] 0
  { b with id := b.id + 1, fs := (fs.link dir name f).2, files := b.files ++ [⟨f, under path name⟩] }

/-- A second name for one of the files. -/
def addHardlink (dir : Node) (b : BigTree) : BigTree :=
  match b.target o with
  | (none, b) => b
  | (some tgt, b) =>
    { b with id := b.id + 1, fs := (b.fs.link dir (Label.hardlink.name (b.id + 1)) tgt.node).2, hard := b.hard + 1 }

/-- A symbolic link to one of the files. -/
def addSymlink (dir : Node) (b : BigTree) : BigTree :=
  match b.target o with
  | (none, b) => b
  | (some tgt, b) =>
    let (l, fs) := b.fs.alloc .LNK tgt.path 0
    { b with id := b.id + 1, fs := (fs.link dir (Label.symlink.name (b.id + 1)) l).2, sym := b.sym + 1 }

/-- A directory, and what `build` puts into it. -/
def addDir (build : Node → Bytes → BigTree → BigTree) (dir : Node) (path : Bytes) (b : BigTree) : BigTree :=
  let name := Label.dir.name (b.id + 1)
  let (d, fs) := b.fs.alloc .DIR [] 0
  build d (under path name) { b with id := b.id + 1, dirs := b.dirs + 1, fs := (fs.link dir name d).2 }

/-- The files of a directory and, once there are any, names and links for them. -/
def fill (dir : Node) (path : Bytes) (b : BigTree) : BigTree :=
  let (nf, b) := b.randi o 0 o.maxFiles
  let b := (addFile dir path)^[nf.toNat] b
  if b.files.isEmpty then b
  else
    let (nh, b) := b.randi o 0 (o.maxFiles.tdiv 4)
    let b := (addHardlink o dir)^[nh.toNat] b
    let (ns, b) := b.randi o 0 (o.maxFiles.tdiv 3)
    (addSymlink o dir)^[ns.toNat] b

/-- `left` levels are allowed below the directory. -/
def buildDir : Nat → Node → Bytes → BigTree → BigTree
  | 0, dir, path, b => fill o dir path b
  | left + 1, dir, path, b =>
    let (nd, b) := (fill o dir path b).randi o 1 o.maxDirs
    (addDir (buildDir left) dir path)^[nd.toNat] b

def setSize (b : BigTree) (f : Node) : BigTree :=
  { b with fs := b.fs.setAttr f (.size (o.size b.sized)), sized := b.sized + 1 }

/-- A file of a later day; of its path only the directory is kept. -/
def addNew (dir : Node) (path : Bytes) (b : BigTree) : BigTree :=
  let (f, fs) := b.fs.alloc .REG [] 0
  let b := { b with fs := fs }.setSize o f
  { b with id := b.id + 1, fs := (b.fs.link dir (Label.new.name (b.id + 1)) f).2, files := b.files ++ [⟨f, path⟩] }

/-- Two files of the tree are modified. -/
def modify (day : Nat) (b : BigTree) : BigTree :=
  let fs := match b.files[0]? with
    | some f => (b.fs.setContentSeed f.node (UInt64.ofNat (1000 + day))).2
    | none => b.fs
  let fs := match b.files[1]? with
    | some f => fs.setAttr f.node (.mode (UInt32.ofNat (384 + day)))
    | none => fs
  { b with fs }

/-- One day: two changes, a directory of new files, and a snapshot. -/
def round (day : Nat) (b : BigTree) : BigTree :=
  let b := { b with fs := b.fs.setTime (b.fs.now + 86400) }.modify day
  let (d, fs) := b.fs.alloc .DIR [] 0
  let name := Label.day.name day
  let b := { b with fs := (fs.link fs.rwRoot name d).2 }
  let (nn, b) := b.randi o 1 o.maxFiles
  let b := (addNew o d (under [] name))^[nn.toNat] b
  { b with fs := (b.fs.snapshot name).2 }

/-- Incompressible bytes, some holes, some blocks shared between files. -/
def policy : ContentConfig := { blockSize := 65536, entropy := 255, sparsePercent := 10, dedupPercent := 20 }

/-- The clock is set where it was not, and the policy published. -/
def prepare (fs : PrfsStore) : PrfsStore :=
  let fs := if fs.now = 0 then fs.setTime 1700000000 else fs
  fs.setContentConfig (Content.serialize policy)

def base : Bytes := ascii ['b', 'a', 's', 'e']

/-- The tree below the root, with its sizes and its snapshot. -/
def plant (fs : PrfsStore) : BigTree :=
  let b := buildDir o (o.depth - 1).toNat fs.rwRoot [] { fs := prepare fs }
  let b := b.files.foldl (fun b f => b.setSize o f.node) b
  { b with fs := (b.fs.snapshot base).2 }

/-- `build`: nothing where the root has entries already, unless it is forced. -/
def build (fs : PrfsStore) : BigTree :=
  if o.force = false ∧ (fs.readdir fs.rwRoot).isEmpty = false then { fs }
  else (List.range o.rounds.toNat).foldl (fun b k => b.round o (k + 1)) (plant o fs)

end BigTree

end Prfs
