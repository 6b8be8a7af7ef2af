import Prfs.StoreRead
import Prfs.View

namespace Prfs

/-- What a node shows through a handle, from its record. -/
def Attrs.of (id : UInt64) (r : NodeRec) : Attrs where
  type := FType.ofCode r.type
  mode := r.mode
  nlink := r.nlink
  uid := r.uid
  gid := r.gid
  size := r.size
  atime := r.atime
  mtime := r.mtime
  ctime := r.ctime
  atimeNsec := r.atimeNs
  mtimeNsec := r.mtimeNs
  target := if r.type = FType.LNK.code then r.blob else []
  rdev := rdevOf r.spec
  content := if r.type = FType.REG.code then r.blob else []
  contentSeed := if r.type = FType.REG.code ∧ r.spec ≠ 0 then r.spec else id

/-- Statistics from the records of a view's nodes and the number of its entries. -/
def Stats.tally (nodes : List NodeRec) (links : Nat) : Stats :=
  { nodes.foldl PrfsStore.countNode {} with links := UInt64.ofNat links }

namespace View

/-- `l` is the listing of `dir`: its entries, each name once, in byte order. -/
structure Lists (v : View) (dir : UInt64) (l : List (Bytes × UInt64)) : Prop where
  sorted : l.Pairwise (fun a b => a.1 < b.1)
  mem : ∀ n c, (n, c) ∈ l ↔ v.entry dir n = some c

/-- `l` holds the distinct containers of `c` in id order. -/
structure Holders (v : View) (c : UInt64) (l : List UInt64) : Prop where
  sorted : l.Pairwise (· < ·)
  mem : ∀ d, d ∈ l ↔ ∃ n, v.entry d n = some c

/-- `l` holds the nodes of the view in id order. -/
structure Nodes (v : View) (l : List (UInt64 × NodeRec)) : Prop where
  sorted : l.Pairwise (fun a b => a.1 < b.1)
  mem : ∀ id r, (id, r) ∈ l ↔ v.node id = some r

/-- `l` holds each bound pair of a directory and a name once. -/
structure Bound (v : View) (l : List (UInt64 × Bytes)) : Prop where
  nodup : l.Nodup
  mem : ∀ d n, (d, n) ∈ l ↔ ∃ c, v.entry d n = some c

/-- `l` is the difference of the nodes of two views, in id order. -/
structure Diffs (v w : View) (l : List NodeDiff) : Prop where
  sorted : l.Pairwise (fun a b => a.id < b.id)
  mem : ∀ id c, ⟨id, c⟩ ∈ l ↔ nodeChange (v.node id) (w.node id) = some c

variable {v w : View}

theorem Lists.unique {dir : UInt64} {l l' : List (Bytes × UInt64)} (h : v.Lists dir l) (h' : v.Lists dir l') :
    l = l' :=
  OrdMap.sorted_ext h.sorted h'.sorted fun e => (h.mem e.1 e.2).trans (h'.mem e.1 e.2).symm

theorem Nodes.unique {l l' : List (UInt64 × NodeRec)} (h : v.Nodes l) (h' : v.Nodes l') : l = l' :=
  OrdMap.sorted_ext h.sorted h'.sorted fun e => (h.mem e.1 e.2).trans (h'.mem e.1 e.2).symm

theorem Holders.unique {c : UInt64} {l l' : List UInt64} (h : v.Holders c l) (h' : v.Holders c l') : l = l' := by
  have hnd : ∀ {m : List UInt64}, m.Pairwise (· < ·) → m.Nodup := fun hm => hm.imp fun hab => ne_of_lt hab
  have hp := (List.perm_ext_iff_of_nodup (hnd h.sorted) (hnd h'.sorted)).mpr
    fun d => (h.mem d).trans (h'.mem d).symm
  exact hp.eq_of_pairwise (fun _ _ _ _ hab hba => absurd hab (lt_asymm hba)) h.sorted h'.sorted

theorem Bound.length_eq {l l' : List (UInt64 × Bytes)} (h : v.Bound l) (h' : v.Bound l') :
    l.length = l'.length :=
  ((List.perm_ext_iff_of_nodup h.nodup h'.nodup).mpr
    fun e => (h.mem e.1 e.2).trans (h'.mem e.1 e.2).symm).length_eq

theorem Diffs.unique {l l' : List NodeDiff} (h : v.Diffs w l) (h' : v.Diffs w l') : l = l' := by
  have hnd : ∀ {m : List NodeDiff}, m.Pairwise (fun a b => a.id < b.id) → m.Nodup := by
    intro m hm
    refine hm.imp ?_
    rintro a _ hab rfl
    exact lt_irrefl _ hab
  have hp := (List.perm_ext_iff_of_nodup (hnd h.sorted) (hnd h'.sorted)).mpr
    fun d => (h.mem d.id d.change).trans (h'.mem d.id d.change).symm
  exact hp.eq_of_pairwise (fun _ _ _ _ hab hba => absurd hab (lt_asymm hba)) h.sorted h'.sorted

end View

end Prfs
