import Prfs.Nfs3Snapshots
import Prfs.Nfs4Run
import Prfs.Nfs4Snapshots

namespace Prfs

variable {s fs fs1 fs2 : PrfsStore} {dir : Node} {name : Bytes} {verf verf1 verf2 : UInt64}

/-- A name with an entry in a live directory is found there. -/
theorem PrfsStore.Has.lookup (h : s.Has dir.id name true) (hd : isSnapDir dir.id = false) (hl : dir.snap = LATEST) :
    s.lookup dir name ≠ none := by
  obtain ⟨⟨r, hr, hv⟩, hk⟩ := h
  obtain ⟨x, hx⟩ := Option.isSome_iff_exists.mp hk
  simp only [PrfsStore.lookup, hd, hl, PrfsStore.rr, hr, hv, hx, Bool.false_eq_true, if_false, if_true, true_and]
  split_ifs <;> simp

/-- A link that goes through leaves its name to be found. -/
theorem PrfsStore.lookup_of_link {child : Node} (hd : isSnapDir dir.id = false) (hl : dir.snap = LATEST)
    (hok : (s.link dir name child).1 = .OK) : (touchDir (s.link dir name child).2 dir).lookup dir name ≠ none := by
  by_cases hlink : s.Linkable dir.id name child.id
  · exact ((PrfsStore.link_of_linkable hlink).2.touchDir dir).lookup hd hl
  · exact absurd hok (PrfsStore.link_of_not_linkable hlink).1

namespace NfsV3

variable {h : Host} {v : NfsV3} {m : Msg} {r : Reader} {w : Writer} {cred : Cred}

theorem Answered.code {x : Out} {st st' : Nfsstat3} (hx : Answered x st) (hx' : Answered x st') : st.code = st'.code := by
  have hpre : (({} : Writer).u32 st.code).v <+: (({} : Writer).u32 st'.code).v :=
    List.prefix_of_prefix_length_le hx.2 hx'.2 (by simp [Writer.u32, Writer.append, word])
  have heq := hpre.eq_of_length (by simp [Writer.u32, Writer.append, word])
  exact word_injective (by simpa [Writer.u32, Writer.append] using heq)

theorem answered_answer {st : Nfsstat3} (hw : (({} : Writer).u32 st.code).Pre w) : Answered (answer v w) st := ⟨rfl, hw⟩

theorem pre_encodeNewObject {w w' : Writer} (hw : w.Pre w') (fs : PrfsStore) (child : Node) (pre : Option PreAttr)
    (dir : Node) : w.Pre (encodeNewObject h fs w' child pre dir) :=
  pre_encodeWcc (pre_encodePostOp ((hw.u32 1).fh child.id LATEST) (some child)) pre (some dir)

/-- The arguments of a CREATE in exclusive mode: a live directory, the name in it, and the verifier. -/
def CreatesExclusive (v : NfsV3) (m : Msg) (r : Reader) (dir : Node) (name : Bytes) (verf : UInt64) : Prop :=
  ∃ id r1 r2 r3, r.fh3 m = (some (id, LATEST), r1) ∧ r1.str m = (name, r2) ∧ r2.u32 m = (CREATE_EXCLUSIVE, r3) ∧
    (r3.u64 m).1 = verf ∧ r2.ok = true ∧ r3.ok = true ∧ v.fs.nodeById id LATEST = some dir ∧ (v.fs.attrs dir).type = .DIR

/-- An exclusive CREATE of a name that is found changes nothing, and is answered OK. -/
theorem nfsCreate_bound (ha : CreatesExclusive v m r dir name verf) (hb : v.fs.lookup dir name ≠ none) :
    Answered (nfsCreate live h v m r {} cred) .ok ∧ (nfsCreate live h v m r {} cred).2.2 = v := by
  obtain ⟨id, r1, r2, r3, hf, hs, hmode, -, hok2, hok3, hn, ht⟩ := ha
  obtain ⟨e, he⟩ := Option.ne_none_iff_exists'.mp hb
  have hdir := (@diropParent_ok_iff h v m r {} dir _ name r2 {}).mpr ⟨id, r1, hf, hs, hok2, hn, ht, rfl, rfl⟩
  have hne : CREATE_EXCLUSIVE ≠ CREATE_GUARDED := by decide
  unfold nfsCreate
  simp only [hdir, hmode, hok3, he, hne, createHow, if_true, if_false, Bool.not_true, Bool.false_eq_true]
  exact ⟨answered_answer (pre_encodeNewObject (Writer.Pre.refl _) _ _ _ _), rfl⟩

theorem toNfsStat_ok {e : Error} (h : Nfsstat3.ok.code = (toNfsStat e).code) : e = .OK := by
  cases e <;> first | rfl | exact absurd h (by decide)

theorem finishCreate_binds {pre : Option PreAttr} {child : Node} (hd : isSnapDir dir.id = false) (hl : dir.snap = LATEST)
    (hok : Answered (finishCreate h v {} fs dir pre name child) .ok) :
    (finishCreate h v {} fs dir pre name child).2.2.fs.lookup dir name ≠ none := by
  unfold finishCreate at hok ⊢
  split at hok
  · next fs' hlink =>
    have hbound := PrfsStore.lookup_of_link hd hl (congrArg Prod.fst hlink)
    rw [hlink] at hbound
    dsimp only [answer]
    exact hbound
  · next e fs' hne hlink =>
    have hrefused := @answered_answer { v with fs := fs' } _ (toNfsStat e)
      (@pre_encodeWcc _ _ h fs' (Writer.Pre.refl _) pre (some dir))
    obtain rfl := toNfsStat_ok (hok.code hrefused)
    exact absurd rfl hne

/-- An exclusive CREATE that is answered OK leaves its name to be found. -/
theorem nfsCreate_binds (ha : CreatesExclusive v m r dir name verf) (hd : isSnapDir dir.id = false)
    (hok : Answered (nfsCreate live h v m r {} cred) .ok) :
    (nfsCreate live h v m r {} cred).2.2.fs.lookup dir name ≠ none := by
  by_cases hb : v.fs.lookup dir name = none
  · obtain ⟨id, r1, r2, r3, hf, hs, hmode, -, hok2, hok3, hn, ht⟩ := ha
    have hdir := (@diropParent_ok_iff h v m r {} dir _ name r2 {}).mpr ⟨id, r1, hf, hs, hok2, hn, ht, rfl, rfl⟩
    have hrun : nfsCreate live h v m r {} cred =
        finishCreate h v {} (applyCred cred (v.fs.mkfile []).2 (v.fs.mkfile []).1) dir (preOf v.fs (some dir)) name
          (v.fs.mkfile []).1 := by
      unfold nfsCreate
      simp only [hdir, hmode, hok3, hb, createHow, if_true, Bool.not_true, Bool.false_eq_true, if_false]
    rw [hrun] at hok ⊢
    exact finishCreate_binds hd (PrfsStore.nodeById_snap hn) hok
  · rwa [(nfsCreate_bound ha hb).2]

end NfsV3

namespace NfsV4

theorem openFile_status {v : NfsV4} {pos : WalkOrder} {access deny : UInt32} {clientid fileId : UInt64} {owner : Bytes} :
    (v.openFile pos access deny clientid owner fileId).1.status = .ok ∨
      (v.openFile pos access deny clientid owner fileId).1.status = .shareDenied := by
  unfold openFile
  dsimp only
  split_ifs
  · exact .inl rfl
  · exact .inr rfl
  · exact .inl rfl

namespace Call4

variable {c : Call4} {pos : WalkOrder} {m : Msg}

/-- The client of an OPEN, the bits it asks for and its open-owner. -/
def openOwner (m : Msg) (r : Reader) : (UInt32 × UInt32 × UInt64 × Bytes) × Reader :=
  let (_, r) := r.u32 m
  let (access, r) := r.u32 m
  let (deny, r) := r.u32 m
  let (clientid, r) := r.u64 m
  let (owner, r) := r.str m
  ((access, deny, clientid, owner), r)

/-- The arguments of an OPEN that creates in exclusive mode, in a live directory that is the current filehandle. -/
def OpensExclusive (c : Call4) (m : Msg) (dir : Node) (name : Bytes) (verf : UInt64) : Prop :=
  ∃ r1 r2 r3 r4, (openOwner m c.r).2.u32 m = (OPEN4_CREATE, r1) ∧ r1.u32 m = (EXCLUSIVE4, r2) ∧ (r2.u64 m).1 = verf ∧
    (r2.skip m 8).u32 m = (CLAIM_NULL, r3) ∧ r3.str m = (name, r4) ∧ r4.ok = true ∧ c.cur = some dir ∧
    (c.fs.attrs dir).type = .DIR ∧ c.liveCfh live = true

theorem OpensExclusive.latest (ha : c.OpensExclusive m dir name verf) : dir.snap = LATEST := by
  obtain ⟨-, -, -, -, -, -, -, -, -, -, hcur, -, hlive⟩ := ha
  exact cur_live hcur hlive

/-- An exclusive OPEN looks its name up, unless its client is not confirmed. -/
theorem opOpen_exclusive (ha : c.OpensExclusive m dir name verf) :
    (∃ r, c.opOpen live pos m = { c with r }.exit .staleClientid) ∨
      ∃ r access deny clientid owner, c.opOpen live pos m =
        { c with r }.openName pos m access deny clientid owner ⟨OPEN4_CREATE, EXCLUSIVE4, none⟩ dir name := by
  obtain ⟨r1, r2, r3, r4, htype, hmode, -, hclaim, hname, hok, hcur, hdir, hlive⟩ := ha
  dsimp only [openOwner] at htype
  unfold opOpen
  dsimp only
  by_cases hconf : (!c.v.clientConfirmed ((((c.r.u32 m).2.u32 m).2.u32 m).2.u64 m).1) = true
  · rw [if_pos hconf]
    exact .inl ⟨_, rfl⟩
  · rw [if_neg hconf]
    simp only [readOpenHow, htype, hmode, hclaim, hname, hok, cur_r, liveCfh_r, hcur, hdir, hlive, if_true, if_false, ne_eq,
      not_true_eq_false, Bool.not_true, Bool.false_eq_true, reduceCtorEq, and_false]
    exact .inr ⟨_, _, _, _, _, rfl⟩

theorem openState_status {access deny : UInt32} {clientid : UInt64} {owner : Bytes} {before : UInt64} {created : Bool}
    {child : Node} : (c.openState pos access deny clientid owner dir before created child).1 ≠ .exist := by
  have hopen := @openFile_status c.v pos access deny clientid child.id owner
  unfold openState
  dsimp only
  split
  · simp [exitWith]
  · next x v hne hx =>
    rw [hx] at hopen
    dsimp only at hopen
    rcases hopen with h | h <;> simp [exit, h]

/-- An exclusive OPEN of a name that is found leaves the store as it is, and is not answered EXIST. -/
theorem opOpen_bound (ha : c.OpensExclusive m dir name verf) (hb : c.fs.lookup dir name ≠ none) :
    (c.opOpen live pos m).1 ≠ .exist ∧ (c.opOpen live pos m).2.fs = c.fs := by
  obtain ⟨e, he⟩ := Option.ne_none_iff_exists'.mp hb
  have hne : EXCLUSIVE4 ≠ GUARDED4 := by decide
  rcases @opOpen_exclusive _ _ _ c pos m ha with ⟨r, hrun⟩ | ⟨r, access, deny, clientid, owner, hrun⟩
  · rw [hrun]
    simp [exit]
  · rw [hrun]
    simp only [openName, he, hne, and_false, if_false]
    exact ⟨openState_status, openState_fs⟩

/-- An exclusive OPEN that is answered OK leaves its name to be found. -/
theorem opOpen_binds (ha : c.OpensExclusive m dir name verf) (hd : isSnapDir dir.id = false)
    (hok : (c.opOpen live pos m).1 = .ok) : (c.opOpen live pos m).2.fs.lookup dir name ≠ none := by
  by_cases hb : c.fs.lookup dir name = none
  · rcases @opOpen_exclusive _ _ _ c pos m ha with ⟨r, hrun⟩ | ⟨r, access, deny, clientid, owner, hrun⟩
    · rw [hrun] at hok
      simp [exit] at hok
    · rw [hrun] at hok ⊢
      simp only [openName, hb, ne_eq, not_true_eq_false, if_false] at hok ⊢
      split at hok
      · next fs' hlink =>
        rw [openState_fs]
        have hbound := PrfsStore.lookup_of_link hd ha.latest (congrArg Prod.fst hlink)
        rwa [hlink] at hbound
      · simp [exit] at hok
  · rwa [(opOpen_bound ha hb).2]

end Call4

end NfsV4

/-- A request to create a name, as it meets the store: a CREATE of version 3, or an OPEN in a COMPOUND of version 4. -/
inductive CreateCall
  | v3 (h : Host) (ckName : OrdMap UInt64 Bytes) (m : Msg) (r : Reader) (cred : Cred)
  | v4 (c : NfsV4.Call4) (pos : WalkOrder) (m : Msg)

namespace CreateCall

variable {q q1 q2 : CreateCall}

/-- The request is one for this name in exclusive mode. -/
def Exclusive (fs : PrfsStore) (dir : Node) (name : Bytes) (verf : UInt64) : CreateCall → Prop
  | .v3 _ ckName m r _ => NfsV3.CreatesExclusive ⟨fs, ckName⟩ m r dir name verf
  | .v4 c _ m => { c with fs }.OpensExclusive m dir name verf

/-- The store after the request. -/
def after (fs : PrfsStore) : CreateCall → PrfsStore
  | .v3 h ckName m r cred => (NfsV3.nfsCreate live h ⟨fs, ckName⟩ m r {} cred).2.2.fs
  | .v4 c pos m => ({ c with fs }.opOpen live pos m).2.fs

/-- The request is answered with this status of its version. -/
def Gives (fs : PrfsStore) (st : Nfsstat3) (st' : Nfsstat4) : CreateCall → Prop
  | .v3 h ckName m r cred => NfsV3.Answered (NfsV3.nfsCreate live h ⟨fs, ckName⟩ m r {} cred) st
  | .v4 c pos m => ({ c with fs }.opOpen live pos m).1 = st'

def Ok (q : CreateCall) (fs : PrfsStore) : Prop := q.Gives fs .ok .ok

def Exist (q : CreateCall) (fs : PrfsStore) : Prop := q.Gives fs .exist .exist

theorem not_exist_of_bound (ha : q.Exclusive fs dir name verf) (hb : fs.lookup dir name ≠ none) : ¬ q.Exist fs := by
  cases q with
  | v3 h ckName m r cred =>
    intro he
    exact absurd (((NfsV3.nfsCreate_bound ha hb).1).code he) (by decide)
  | v4 c pos m => exact (NfsV4.Call4.opOpen_bound ha hb).1

theorem bound_of_ok (ha : q.Exclusive fs dir name verf) (hd : isSnapDir dir.id = false) (hok : q.Ok fs) :
    (q.after fs).lookup dir name ≠ none := by
  cases q with
  | v3 h ckName m r cred => exact NfsV3.nfsCreate_binds ha hd hok
  | v4 c pos m => exact NfsV4.Call4.opOpen_binds ha hd hok

/-- At most one of two requests, the second on a later store, is answered OK, and one whose name is bound is answered
EXIST. -/
def KeepsOut (q1 q2 : CreateCall) (fs1 fs2 : PrfsStore) (dir : Node) (name : Bytes) : Prop :=
  ¬ (q1.Ok fs1 ∧ q2.Ok fs2) ∧ (fs1.lookup dir name ≠ none → q1.Exist fs1) ∧ (fs2.lookup dir name ≠ none → q2.Exist fs2)

/-- Exclusive mode keeps a second creator out, whatever the verifiers, exactly where it has nothing to do: the name is
not bound when either request comes. -/
theorem exclusive_iff (hd : isSnapDir dir.id = false) (h1 : q1.Exclusive fs1 dir name verf1)
    (h2 : q2.Exclusive fs2 dir name verf2) (hkept : (q1.after fs1).lookup dir name ≠ none → fs2.lookup dir name ≠ none) :
    KeepsOut q1 q2 fs1 fs2 dir name ↔ fs1.lookup dir name = none ∧ fs2.lookup dir name = none := by
  constructor
  · rintro ⟨-, he1, he2⟩
    constructor
    · by_contra hb
      exact not_exist_of_bound h1 hb (he1 hb)
    · by_contra hb
      exact not_exist_of_bound h2 hb (he2 hb)
  · rintro ⟨hf1, hf2⟩
    refine ⟨fun hok => ?_, absurd hf1, absurd hf2⟩
    exact hkept (bound_of_ok h1 hd hok.1) hf2

/-- The arguments of a CREATE of `f` in the root, in exclusive mode. -/
def createArgs (verf : UInt64) : Bytes := ((((({} : Writer).fh 1 LATEST).str [102]).u32 NfsV3.CREATE_EXCLUSIVE).u64 verf).v

def createOne : CreateCall := .v3 {} .empty ⟨createArgs 1, fun _ => 0, by decide⟩ {} {}

def createTwo : CreateCall := .v3 {} .empty ⟨createArgs 2, fun _ => 0, by decide⟩ {} {}

/-- The arguments of an OPEN of `f` by a client that the server does not know, in exclusive mode. -/
def openArgs : Bytes :=
  ((((((((((({} : Writer).u32 0).u32 1).u32 0).u64 9).str [65]).u32 NfsV4.OPEN4_CREATE).u32 NfsV4.EXCLUSIVE4).u64 1).u32
    NfsV4.CLAIM_NULL).str [102]).v

def openMsg : Msg := ⟨openArgs, fun _ => 0, by decide⟩

def openUnknown : CreateCall := .v4 { v := {}, fs := .empty, cfh := some ⟨1, LATEST⟩ } (fun _ => 0) openMsg

theorem openUnknown_exclusive : openUnknown.Exclusive .empty ⟨1, LATEST⟩ [102] 1 := by
  let r0 := (NfsV4.Call4.openOwner openMsg {}).2
  let r1 := (r0.u32 openMsg).2
  let r2 := (r1.u32 openMsg).2
  let r3 := ((r2.skip openMsg 8).u32 openMsg).2
  let r4 := (r3.str openMsg).2
  exact ⟨r1, r2, r3, r4, Prod.ext (by decide) rfl, Prod.ext (by decide) rfl, by decide,
    Prod.ext (by decide) rfl, Prod.ext (by decide) rfl, by decide, by decide,
    by decide, by decide⟩

theorem createTwo_exclusive (hn : fs.nodeById 1 LATEST = some ⟨1, LATEST⟩) (ht : (fs.attrs ⟨1, LATEST⟩).type = .DIR) :
    createTwo.Exclusive fs ⟨1, LATEST⟩ [102] 2 :=
  ⟨1, _, _, _, rfl, rfl, rfl, by decide, rfl, rfl, hn, ht⟩

/-- The first request is refused, and the second makes the file. -/
theorem exclusive_iff_refused :
    KeepsOut openUnknown createTwo .empty .empty ⟨1, LATEST⟩ [102] ↔
      PrfsStore.empty.lookup ⟨1, LATEST⟩ [102] = none ∧ PrfsStore.empty.lookup ⟨1, LATEST⟩ [102] = none := by
  refine exclusive_iff (by decide) openUnknown_exclusive (createTwo_exclusive rfl (by decide)) ?_
  have hsame : (openUnknown.after .empty).lookup ⟨1, LATEST⟩ [102] = none := by decide
  exact absurd hsame

/-- Two creators with verifiers of their own are both answered OK. -/
theorem exclusive_create_twice :
    createOne.Exclusive .empty ⟨1, LATEST⟩ [102] 1 ∧
      createTwo.Exclusive (createOne.after .empty) ⟨1, LATEST⟩ [102] 2 ∧
      createOne.Ok .empty ∧ createTwo.Ok (createOne.after .empty) ∧
      ¬ KeepsOut createOne createTwo .empty (createOne.after .empty) ⟨1, LATEST⟩ [102] := by
  have h1 : createOne.Exclusive .empty ⟨1, LATEST⟩ [102] 1 :=
    ⟨1, _, _, _, rfl, rfl, rfl, by decide, rfl, rfl, rfl, by decide⟩
  have h2 : createTwo.Exclusive (createOne.after .empty) ⟨1, LATEST⟩ [102] 2 :=
    createTwo_exclusive (by decide) (by decide)
  have hok1 : createOne.Ok .empty := by
    refine ⟨by decide, ?_⟩
    unfold Writer.Pre
    decide
  have hok2 : createTwo.Ok (createOne.after .empty) := (NfsV3.nfsCreate_bound h2 (by decide)).1
  exact ⟨h1, h2, hok1, hok2, fun h => h.1 ⟨hok1, hok2⟩⟩

end CreateCall

end Prfs
