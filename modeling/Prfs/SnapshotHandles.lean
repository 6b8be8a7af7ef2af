import Prfs.Nfs3Snapshots
import Prfs.Nfs4Snapshots

namespace Prfs

/-- A call of version 3 or an operation of version 4, with the service that it meets. -/
inductive Request
  | v3 (v : NfsV3) (m : Msg) (r : Reader) (cred : Cred) (proc : UInt32)
  | v4 (c : NfsV4.Call4) (m : Msg) (hash : Bytes → UInt64) (pos : WalkOrder) (op : UInt32)

namespace Request

def store : Request → PrfsStore
  | .v3 v _ _ _ _ => v.fs
  | .v4 c _ _ _ _ => c.fs

/-- The handles among its arguments, as an id and a snapshot. -/
def handles : Request → List (UInt64 × SnapId)
  | .v3 _ m r _ proc => ((Proc3.ofCode proc).map (NfsV3.handles m r)).getD []
  | .v4 c m _ _ op => (((Op4.ofCode op).map (c.handles m)).getD []).map (fun n => (n.id, n.snap))

/-- The store after it is served. -/
def after (h : Host) : Request → PrfsStore
  | .v3 v m r cred proc => (NfsV3.dispatch h v m r PROG_NFS NFS_V3 proc cred).2.2.fs
  | .v4 c m hash pos op => (c.doOp hash pos m h op).2.fs

/-- The store after a service that does not test its write handles. -/
def untested (h : Host) : Request → PrfsStore
  | .v3 v m r cred proc =>
    match Proc3.ofCode proc with
    | some p => (NfsV3.runProc h v m r (fun _ => true) {} cred p).2.2.fs
    | none => v.fs
  | .v4 c m hash pos op =>
    match Op4.ofCode op with
    | some o => ({ c with w := c.w.u32 op }.runOp (fun _ => true) hash pos m h o).2.fs
    | none => c.fs

/-- It is answered with ROFS. -/
def Rofs (h : Host) : Request → Prop
  | .v3 v m r cred proc => NfsV3.Answered (NfsV3.dispatch h v m r PROG_NFS NFS_V3 proc cred) .rofs
  | .v4 c m hash pos op => (c.doOp hash pos m h op).1 = .rofs

/-- It is a LINK of a file of a snapshot into a live directory, and the store takes the name. -/
def LinksSnapshot : Request → Prop
  | .v3 v m r _ proc => ∃ p, Proc3.ofCode proc = some p ∧ NfsV3.LinksSnapshot v m r p
  | .v4 c m _ _ op => ∃ o, Op4.ofCode op = some o ∧ c.LinksSnapshot m o

/-- A request with a handle of a snapshot leaves the store alone, and is answered with ROFS where it would
have changed it, exactly when it is no LINK of a file of a snapshot into the live tree. -/
theorem snapshot_readonly_iff (h : Host) (hadv : h.advance = false) (q : Request)
    (hs : ∃ n ∈ q.handles, n.2 ≠ LATEST) :
    (q.after h = q.store ∧ (q.untested h ≠ q.store → q.Rofs h)) ↔ ¬ q.LinksSnapshot := by
  cases q with
  | v3 v m r cred proc =>
    cases hp : Proc3.ofCode proc with
    | none => simp [handles, hp] at hs
    | some p =>
      have hdis : NfsV3.dispatch h v m r PROG_NFS NFS_V3 proc cred = NfsV3.runProc h v m r live {} cred p := by
        simp [NfsV3.dispatch, NfsV3.run, NfsV3.nfsCall, hp, hadv]
      simp only [handles, hp, Option.map_some, Option.getD_some] at hs
      simp only [after, untested, store, Rofs, LinksSnapshot, hdis, hp, Option.some.injEq, exists_eq_left']
      exact NfsV3.runProc_protected_iff hs
  | v4 c m hash pos op =>
    cases ho : Op4.ofCode op with
    | none => simp [handles, ho] at hs
    | some o =>
      have hdo : c.doOp hash pos m h op = { c with w := c.w.u32 op }.runOp live hash pos m h o := by
        simp [NfsV4.Call4.doOp, ho]
      have hs' : ∃ n ∈ c.handles m o, n.snap ≠ LATEST := by
        simpa [handles, ho] using hs
      simp only [after, untested, store, Rofs, LinksSnapshot, hdo, ho, Option.some.injEq, exists_eq_left']
      have hlink : { c with w := c.w.u32 op }.LinksSnapshot m o ↔ c.LinksSnapshot m o := by
        simp only [NfsV4.Call4.LinksSnapshot, NfsV4.Call4.both_w]
      rw [← hlink]
      refine NfsV4.Call4.runOp_refused_iff ?_
      cases o <;> exact hs'

/-- A store with a file in the root and a snapshot of both. -/
def sealedFile : PrfsStore :=
  (((PrfsStore.empty.mkfile []).2.link ⟨1, LATEST⟩ [97] ⟨2, LATEST⟩).2.snapshot []).2

/-- The arguments of a MKDIR in the root of the snapshot. -/
def mkdirArgs : Msg := ⟨((({} : Writer).fh 1 1).str [98]).v, fun _ => 0, by decide⟩

theorem snapshot_readonly_iff_mkdir :
    let q := Request.v3 ⟨sealedFile, .empty⟩ mkdirArgs {} {} 9
    q.after {} = q.store ∧ (q.untested {} ≠ q.store → q.Rofs {}) := by
  refine (snapshot_readonly_iff {} rfl (.v3 ⟨sealedFile, .empty⟩ mkdirArgs {} {} 9) ⟨(1, 1), ?_, by decide⟩).mpr ?_
  · decide
  · rintro ⟨p, hp, hl, -⟩
    simp [Proc3.ofCode] at hp
    simp [← hp] at hl

/-- The arguments of a LINK of the file as the snapshot has it, into the live root. -/
def linkArgs : Msg := ⟨(((({} : Writer).fh 2 1).fh 1 LATEST).str [98]).v, fun _ => 0, by decide⟩

/-- The live file gets a second name, and the LINK is answered OK. -/
theorem link_through_snapshot :
    let q := Request.v3 ⟨sealedFile, .empty⟩ linkArgs {} {} 15
    (2, 1) ∈ q.handles ∧ (q.store.attrs ⟨2, LATEST⟩).nlink = 1 ∧ ((q.after {}).attrs ⟨2, LATEST⟩).nlink = 2 ∧
      ¬ (q.after {} = q.store ∧ (q.untested {} ≠ q.store → q.Rofs {})) := by
  intro q
  have hbefore : (q.store.attrs ⟨2, LATEST⟩).nlink = 1 := by decide
  have hafter : ((q.after {}).attrs ⟨2, LATEST⟩).nlink = 2 := by decide
  refine ⟨by decide, hbefore, hafter, fun hp => ?_⟩
  rw [hp.1, hbefore] at hafter
  exact absurd hafter (by decide)

end Request

end Prfs
