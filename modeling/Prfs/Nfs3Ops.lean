import Prfs.Nfs3Snapshots
import Prfs.StoreRuns

namespace Prfs

/-- The name that an operation makes an entry of. -/
def Op.binds : Op → Option Bytes
  | .link _ name _ => some name
  | .move _ _ _ dn => some dn
  | _ => none

namespace PrfsStore

variable {s t : PrfsStore} {N : Option Bytes} {n : Node} {name : Bytes}

/-- `t` is reached from `s` by public operations that make entries of the name `N` only. -/
def Does (N : Option Bytes) (s t : PrfsStore) : Prop :=
  Reaches (fun s op => (s.exec op).2) (fun s op => s.Fits op ∧ (op.binds = none ∨ op.binds = N)) s t

namespace Does

theorem run (h : Does N s t) : Run s t := Reaches.weaken (fun _ _ hop => hop.1) h

theorem op (h : Does N s t) (op : Op) (hf : t.Fits op) (hop : op.binds = none ∨ op.binds = N) :
    Does N s (t.exec op).2 := Reaches.tail h ⟨hf, hop⟩

theorem setAttr (h : Does N s t) (n : Node) (a : Setter) : Does N s (t.setAttr n a) :=
  h.op (.setAttr n a) trivial (.inl rfl)

theorem touchDir (h : Does N s t) (dir : Node) : Does N s (touchDir t dir) := (h.setAttr dir _).setAttr dir _

theorem sets {u : PrfsStore} (h : Does N s t) (hu : Sets n t u) : Does N s u := by
  obtain ⟨as, rfl⟩ := hu
  unfold setAttrs
  induction as generalizing t with
  | nil => exact h
  | cons a as ih => exact ih (h.setAttr n a)

theorem writeData (h : Does N s t) (n : Node) (off : UInt64) (data : Bytes) : Does N s (writeData t n off data) := by
  unfold Prfs.writeData
  have hseed := h.op (.setContentSeed n (mixSeed (t.attrs n).contentSeed off data)) trivial (.inl rfl)
  dsimp only
  split_ifs
  · exact (hseed.setAttr n _).setAttr n _
  · exact hseed.setAttr n _

theorem mkdir (h : Does N s t) (hs : t.next < SNAP_BIT) : Does N s t.mkdir.2 := h.op .mkdir hs (.inl rfl)

theorem mkfile (h : Does N s t) (hs : t.next < SNAP_BIT) : Does N s (t.mkfile []).2 := h.op (.mkfile []) hs (.inl rfl)

theorem symlink (h : Does N s t) (hs : t.next < SNAP_BIT) : Does N s (t.symlink []).2 := h.op (.symlink []) hs (.inl rfl)

theorem mkfifo (h : Does N s t) (hs : t.next < SNAP_BIT) : Does N s t.mkfifo.2 := h.op .mkfifo hs (.inl rfl)

theorem mksock (h : Does N s t) (hs : t.next < SNAP_BIT) : Does N s t.mksock.2 := h.op .mksock hs (.inl rfl)

theorem mknod (h : Does N s t) (hs : t.next < SNAP_BIT) (type : FType) : Does N s (t.mknod type 0 0).2 :=
  h.op (.mknod type 0 0) hs (.inl rfl)

theorem setTarget (h : Does N s t) (n : Node) (target : Bytes) : Does N s (t.setTarget n target).2 :=
  h.op (.setTarget n target) trivial (.inl rfl)

theorem setRdev (h : Does N s t) (n : Node) (maj min : UInt32) : Does N s (t.setRdev n maj min).2 :=
  h.op (.setRdev n maj min) trivial (.inl rfl)

theorem unlink (h : Does N s t) (dir : Node) (name : Bytes) : Does N s (t.unlink dir name).2 :=
  h.op (.unlink dir name) trivial (.inl rfl)

theorem link (h : Does (some name) s t) (dir child : Node) : Does (some name) s (t.link dir name child).2 :=
  h.op (.link dir name child) trivial (.inr rfl)

theorem move (h : Does (some name) s t) (sdir ddir : Node) (sn : Bytes) :
    Does (some name) s (t.move sdir sn ddir name).2 :=
  h.op (.move sdir sn ddir name) trivial (.inr rfl)

end Does

end PrfsStore

namespace NfsV3

open PrfsStore (Does)

/-- The name that a procedure makes an entry of. -/
def boundName (m : Msg) (r : Reader) : Proc3 → Option Bytes
  | .create | .mkdir | .symlink | .mknod => some ((r.fh3 m).2.str m).1
  | .rename => some ((((r.fh3 m).2.str m).2.fh3 m).2.str m).1
  | .link => some (((r.fh3 m).2.fh3 m).2.str m).1
  | _ => none

variable {h : Host} {v : NfsV3} {m : Msg} {r : Reader} {w : Writer} {cred : Cred} {isLive : UInt64 → Bool}
  {s fs : PrfsStore} {dir child : Node} {name : Bytes} {N : Option Bytes}

theorem touched_does (hd : Does N s fs) (e : Error) (dir : Node) : Does N s (touched e fs dir) := by
  unfold touched
  split_ifs
  · exact hd.touchDir dir
  · exact hd

theorem finishCreate_does (hd : Does (some name) s fs) (pre : Option PreAttr) :
    Does (some name) s (finishCreate h v w fs dir pre name child).2.2.fs := by
  have hlink := hd.link dir child
  unfold finishCreate
  split
  · next fs' heq =>
    rw [heq] at hlink
    exact hlink.touchDir dir
  · next e fs' hne heq =>
    rw [heq] at hlink
    exact hlink

/-- A new node, its owner and its attributes. -/
theorem made_does (x : Node × PrfsStore) (hx : Does N s x.2) (m : Msg) (cred : Cred) (r : Reader) :
    Does N s (applySattr m r (some x.1) (applyCred cred x.2 x.1)).2 := (hx.sets applyCred_sets).sets applySattr_sets

theorem createHow_does (hd : Does N s fs) (mode : UInt32) : Does N s (createHow m r mode (some child) fs).2 := by
  unfold createHow
  split_ifs
  · exact hd
  · exact hd.sets applySattr_sets

theorem diropParent_name {pre : Option PreAttr} {r' : Reader} {w' : Writer}
    (hp : diropParent live h v m r w = (.ok (dir, pre, name), r', w')) : ((r.fh3 m).2.str m).1 = name := by
  obtain ⟨id, r1, hf, hn, -⟩ := diropParent_ok_iff.mp hp
  rw [hf, hn]

/-- The procedures that make a node make an entry of the name in their arguments. -/
theorem creates_does {p : Proc3} (hp : boundName m r p = some ((r.fh3 m).2.str m).1) {x : Out}
    (hno : ∀ e r1 w1, diropParent live h v m r w = (.error e, r1, w1) → x.2.2.fs = v.fs)
    (hyes : ∀ dir pre name r1 w1, diropParent live h v m r w = (.ok (dir, pre, name), r1, w1) →
      Does (some name) v.fs x.2.2.fs) : Does (boundName m r p) v.fs x.2.2.fs := by
  rcases hd : diropParent live h v m r w with ⟨e | ⟨dir, pre, name⟩, r1, w1⟩
  · rw [hno e r1 w1 hd]
    exact .refl
  · rw [hp, diropParent_name hd]
    exact hyes dir pre name r1 w1 hd

theorem nfsCreate_does (hs : v.fs.next < SNAP_BIT) :
    Does (boundName m r .create) v.fs (nfsCreate live h v m r w cred).2.2.fs := by
  refine creates_does (h := h) (w := w) rfl (fun e r1 w1 hd => ?_) (fun dir pre name r1 w1 hd => ?_)
  · unfold nfsCreate
    rw [hd]
    simp only [answer]
  · unfold nfsCreate
    rw [hd]
    dsimp only
    have hnew : Does (some name) v.fs (applyCred cred (v.fs.mkfile []).2 (v.fs.mkfile []).1) :=
      Does.sets (.mkfile .refl hs) applyCred_sets
    split_ifs
    · exact .refl
    · cases v.fs.lookup dir name with
      | some existing => exact .refl
      | none => exact finishCreate_does (createHow_does hnew _) _
    · cases v.fs.lookup dir name with
      | some existing => exact createHow_does .refl _
      | none => exact finishCreate_does (createHow_does hnew _) _

theorem nfsMkdir_does (hs : v.fs.next < SNAP_BIT) :
    Does (boundName m r .mkdir) v.fs (nfsMkdir live h v m r w cred).2.2.fs := by
  refine creates_does (h := h) (w := w) rfl (fun e r1 w1 hd => ?_) (fun dir pre name r1 w1 hd => ?_)
  · unfold nfsMkdir
    rw [hd]
    simp only [answer]
  · unfold nfsMkdir
    rw [hd]
    dsimp only
    exact finishCreate_does (made_does v.fs.mkdir (.mkdir .refl hs) m cred r1) _

theorem nfsSymlink_does (hs : v.fs.next < SNAP_BIT) :
    Does (boundName m r .symlink) v.fs (nfsSymlink live h v m r w cred).2.2.fs := by
  refine creates_does (h := h) (w := w) rfl (fun e r1 w1 hd => ?_) (fun dir pre name r1 w1 hd => ?_)
  · unfold nfsSymlink
    rw [hd]
    simp only [answer]
  · have hmade := made_does (v.fs.symlink []) (.symlink (N := some name) .refl hs) m cred r1
    unfold nfsSymlink
    rw [hd]
    dsimp only
    split_ifs
    · simp only [garbage]
      exact hmade
    · exact finishCreate_does (hmade.setTarget _ _) _

theorem nfsMknod_does (hs : v.fs.next < SNAP_BIT) :
    Does (boundName m r .mknod) v.fs (nfsMknod live h v m r w cred).2.2.fs := by
  refine creates_does (h := h) (w := w) rfl (fun e r1 w1 hd => ?_) (fun dir pre name r1 w1 hd => ?_)
  · unfold nfsMknod
    rw [hd]
    simp only [answer]
  · unfold nfsMknod
    rw [hd]
    dsimp only
    have hdev := fun type => made_does (v.fs.mknod type 0 0) (.mknod (N := some name) .refl hs type) m cred (r1.u32 m).2
    split_ifs
    · exact finishCreate_does ((hdev .BLK).setRdev _ _ _) _
    · exact finishCreate_does ((hdev .CHR).setRdev _ _ _) _
    · exact finishCreate_does (made_does v.fs.mkfifo (.mkfifo .refl hs) m cred _) _
    · exact finishCreate_does (made_does v.fs.mksock (.mksock .refl hs) m cred _) _
    · exact .refl

theorem nfsSetattr_does : Does N v.fs (nfsSetattr live h v m r w).2.2.fs := by
  unfold nfsSetattr
  split
  · exact .refl
  · next id snap r1 hf =>
    cases v.fs.nodeById id snap with
    | none => exact .refl
    | some n =>
      have hset : Does N v.fs (applySattr m r1 (some n) v.fs).2 := Does.sets .refl applySattr_sets
      dsimp only
      split_ifs
      · exact .refl
      · simp only [answer]
        exact hset.setAttr n _

theorem nfsWrite_does : Does N v.fs (nfsWrite live h v m r w).2.2.fs := by
  unfold nfsWrite
  split
  · exact .refl
  · dsimp only
    split
    · exact .refl
    · split
      · exact .refl
      · split
        · exact .refl
        · split
          · exact .refl
          · simp only [answer]
            exact .writeData .refl _ _ _

theorem nfsRemove_does : Does N v.fs (nfsRemove live h v m r w).2.2.fs := by
  unfold nfsRemove
  split
  · exact .refl
  · next dir pre name r1 w1 hd => exact touched_does (.unlink .refl dir name) _ dir

theorem nfsRmdir_does : Does N v.fs (nfsRmdir live h v m r w).2.2.fs := by
  unfold nfsRmdir
  split
  · exact .refl
  · next dir pre name r1 w1 hd =>
    cases v.fs.lookup dir name with
    | none => exact .refl
    | some child =>
      dsimp only
      split_ifs
      · exact .refl
      · exact .refl
      · exact touched_does (.unlink .refl dir name) _ dir

theorem nfsRename_does : Does (boundName m r .rename) v.fs (nfsRename live h v m r w).2.2.fs := by
  unfold nfsRename boundName
  dsimp only
  rcases hf : r.fh3 m with ⟨_ | ⟨fid, fsnap⟩, r1⟩
  · exact .refl
  · dsimp only
    rcases ht : (r1.str m).2.fh3 m with ⟨_ | ⟨tid, tsnap⟩, r2⟩
    · exact .refl
    · dsimp only
      split_ifs
      · exact .refl
      · cases v.fs.nodeById fid fsnap with
        | none => exact .refl
        | some fd =>
          cases v.fs.nodeById tid tsnap with
          | none => exact .refl
          | some td => exact touched_does (touched_does (.move .refl fd td _) _ fd) _ td
      · cases v.fs.nodeById fid fsnap with
        | none => exact .refl
        | some fd =>
          cases v.fs.nodeById tid tsnap with
          | none => exact .refl
          | some td => exact .refl

theorem nfsLink_does : Does (boundName m r .link) v.fs (nfsLink live h v m r w).2.2.fs := by
  unfold nfsLink boundName
  dsimp only
  rcases hf : r.fh3 m with ⟨_ | ⟨fid, fsnap⟩, r1⟩
  · exact .refl
  · dsimp only
    rcases hd : r1.fh3 m with ⟨_ | ⟨did, dsnap⟩, r2⟩
    · exact .refl
    · dsimp only
      split_ifs
      · exact .refl
      · cases v.fs.nodeById fid fsnap with
        | none => exact .refl
        | some f =>
          cases v.fs.nodeById did dsnap with
          | none => exact .refl
          | some d => exact touched_does (.link .refl d f) _ d
      · cases v.fs.nodeById fid fsnap with
        | none => exact .refl
        | some f =>
          cases v.fs.nodeById did dsnap with
          | none => exact .refl
          | some d => exact .refl

/-- A procedure runs public operations of the store, and makes entries of the name in its arguments only. -/
theorem runProc_does (hs : v.fs.next < SNAP_BIT) (p : Proc3) :
    Does (boundName m r p) v.fs (runProc h v m r live w cred p).2.2.fs := by
  by_cases hp : p.isMutating = false
  · rw [runProc_fs_of_reads hp]
    exact .refl
  · cases p with
    | setattr =>
      simp only [runProc]
      exact nfsSetattr_does
    | write =>
      simp only [runProc]
      exact nfsWrite_does
    | create =>
      simp only [runProc]
      exact nfsCreate_does hs
    | mkdir =>
      simp only [runProc]
      exact nfsMkdir_does hs
    | symlink =>
      simp only [runProc]
      exact nfsSymlink_does hs
    | mknod =>
      simp only [runProc]
      exact nfsMknod_does hs
    | remove =>
      simp only [runProc]
      exact nfsRemove_does
    | rmdir =>
      simp only [runProc]
      exact nfsRmdir_does
    | rename =>
      simp only [runProc]
      exact nfsRename_does
    | link =>
      simp only [runProc]
      exact nfsLink_does
    | _ => exact absurd rfl hp

/-- The name that a call makes an entry of. -/
def callName (m : Msg) (r : Reader) (prog vers proc : UInt32) : Option Bytes :=
  if prog = PROG_NFS ∧ vers = NFS_V3 then (Proc3.ofCode proc).bind (boundName m r) else none

theorem mountCall_fs {proc : UInt32} : (mountCall v m r w proc).2.2.fs = v.fs := by
  unfold mountCall
  split
  · rfl
  · unfold mountMnt
    dsimp only
    split_ifs <;> rfl
  · unfold mountUmnt
    dsimp only
    split_ifs <;> rfl
  · rfl
  · rfl

theorem dispatch_does (hs : v.fs.next < SNAP_BIT) (prog vers proc : UInt32) :
    Does (callName m r prog vers proc) v.fs (dispatch h v m r prog vers proc cred).2.2.fs := by
  have hrun : Does (callName m r prog vers proc) v.fs (run h v m r prog vers proc cred).2.2.fs := by
    unfold run callName
    by_cases hprog : prog = PROG_NFS
    · by_cases hvers : vers = NFS_V3
      · rw [if_pos hprog, if_pos hvers, if_pos ⟨hprog, hvers⟩, nfsCall]
        cases Proc3.ofCode proc with
        | none => exact .refl
        | some p => exact runProc_does hs p
      · rw [if_pos hprog, if_neg hvers]
        exact .refl
    · rw [if_neg hprog, if_neg fun hboth => hprog hboth.1]
      split_ifs
      · rw [mountCall_fs]
        exact .refl
      · exact .refl
      · exact .refl
  unfold dispatch
  dsimp only
  split_ifs
  · exact hrun.op (.setTime _) trivial (.inl rfl)
  · exact hrun

/-- The name that a record makes an entry of. -/
def recordName (m : Msg) : Option Bytes :=
  (readHeader m {}).bind (fun c => callName m c.args c.prog c.vers c.proc)

/-- The service after a record, which it may end the session with. -/
def serve (h : Host) (v : NfsV3) (m : Msg) : NfsV3 := ((session h v m).map Prod.snd).getD v

theorem serve_does (hs : v.fs.next < SNAP_BIT) (m : Msg) : Does (recordName m) v.fs (serve h v m).fs := by
  unfold serve session recordName
  split_ifs
  · exact .refl
  · cases readHeader m {} with
    | none => exact .refl
    | some c => exact dispatch_does hs c.prog c.vers c.proc

end NfsV3

end Prfs
