import Prfs.Nfs3Call
import Prfs.StoreSetters

namespace Prfs

namespace NfsV3

section Setters

variable {m : Msg} {r : Reader} {n : Node} {fs : PrfsStore}

theorem sattrWord_sets {field : UInt32 → Setter} : PrfsStore.Sets n fs (sattrWord m r (some n) fs field).2 := by
  unfold sattrWord
  dsimp only
  split_ifs
  · exact ⟨[_], rfl⟩
  · exact ⟨[], rfl⟩

theorem sattrSize_sets : PrfsStore.Sets n fs (sattrSize m r (some n) fs).2 := by
  unfold sattrSize
  dsimp only
  split_ifs
  · exact ⟨[_], rfl⟩
  · exact ⟨[], rfl⟩

theorem sattrTime_sets {time : UInt64 → Setter} {nsec : UInt32 → Setter} :
    PrfsStore.Sets n fs (sattrTime m r (some n) fs time nsec).2 := by
  unfold sattrTime
  dsimp only
  split_ifs
  · exact ⟨[_], rfl⟩
  · exact ⟨[_, _], rfl⟩
  · exact ⟨[], rfl⟩

/-- An `sattr3` is applied as a list of setters, however much of it there is. -/
theorem applySattr_sets : PrfsStore.Sets n fs (applySattr m r (some n) fs).2 := by
  unfold applySattr
  dsimp only
  exact sattrWord_sets.trans (sattrWord_sets.trans (sattrWord_sets.trans (sattrSize_sets.trans
    (sattrTime_sets.trans sattrTime_sets))))

theorem applyCred_sets {cred : Cred} : PrfsStore.Sets n fs (applyCred cred fs n) := by
  unfold applyCred
  split_ifs
  · exact ⟨[_, _], rfl⟩
  · exact ⟨[], rfl⟩

end Setters

/-- The reader after an `sattr3`. -/
def skipSattr (m : Msg) (r : Reader) : Reader := (applySattr m r none {}).1

/-- The reader once the arguments of a mutating procedure have been decoded. -/
def decodeArgs (m : Msg) (r : Reader) : Proc3 → Reader
  | .setattr =>
    let r := skipSattr m (r.fh3 m).2
    let (check, r) := r.u32 m
    if check ≠ 0 then ((r.u32 m).2.u32 m).2 else r
  | .write =>
    let r := ((((r.fh3 m).2.u64 m).2.u32 m).2.u32 m).2
    (r.str m).2
  | .create =>
    let (mode, r) := ((r.fh3 m).2.str m).2.u32 m
    (createHow m r mode none {}).1
  | .mkdir => skipSattr m ((r.fh3 m).2.str m).2
  | .symlink => ((skipSattr m ((r.fh3 m).2.str m).2).str m).2
  | .mknod =>
    let (type, r) := ((r.fh3 m).2.str m).2.u32 m
    if type = NF3BLK ∨ type = NF3CHR then (((skipSattr m r).u32 m).2.u32 m).2
    else if type = NF3FIFO ∨ type = NF3SOCK then skipSattr m r
    else r
  | .remove => ((r.fh3 m).2.str m).2
  | .rmdir => ((r.fh3 m).2.str m).2
  | .rename => ((((r.fh3 m).2.str m).2.fh3 m).2.str m).2
  | .link => (((r.fh3 m).2.fh3 m).2.str m).2
  | _ => r

/-- The directory and the name of a CREATE are there, the directory is a live one, and the message
ends before the mode. -/
def ModeMissing (v : NfsV3) (m : Msg) (r : Reader) : Prop :=
  ∃ id r1 name r2 dir, r.fh3 m = (some (id, LATEST), r1) ∧ r1.str m = (name, r2) ∧ r2.ok = true ∧
    v.fs.nodeById id LATEST = some dir ∧ (v.fs.attrs dir).type = .DIR ∧ (r2.u32 m).2.ok = false

section Procs

variable {h : Host} {v : NfsV3} {m : Msg} {r : Reader} {w : Writer} {cred : Cred}

theorem nfsWrite_garbage (ht : (decodeArgs m r .write).ok = false) : nfsWrite live h v m r w = garbage v w := by
  unfold nfsWrite
  rcases hf : r.fh3 m with ⟨_ | ⟨id, snap⟩, r'⟩
  · rfl
  · simp only [decodeArgs, hf] at ht
    simp [ht]

theorem nfsRename_garbage (ht : (decodeArgs m r .rename).ok = false) : nfsRename live h v m r w = garbage v w := by
  unfold nfsRename
  rcases hf : r.fh3 m with ⟨_ | ⟨id, snap⟩, r'⟩
  · rfl
  · rcases hf' : (r'.str m).2.fh3 m with ⟨_ | ⟨id', snap'⟩, r''⟩
    · simp [hf']
    · simp only [decodeArgs, hf, hf'] at ht
      simp [hf', ht]

theorem nfsLink_garbage (ht : (decodeArgs m r .link).ok = false) : nfsLink live h v m r w = garbage v w := by
  unfold nfsLink
  rcases hf : r.fh3 m with ⟨_ | ⟨id, snap⟩, r'⟩
  · rfl
  · rcases hf' : r'.fh3 m with ⟨_ | ⟨id', snap'⟩, r''⟩
    · simp [hf']
    · simp only [decodeArgs, hf, hf'] at ht
      simp [hf', ht]

/-- SETATTR looks at its reader for the file handle only. -/
theorem nfsSetattr_accepts (hf : (r.fh3 m).1 ≠ none) : (nfsSetattr live h v m r w).1 = .success := by
  unfold nfsSetattr
  rcases hr : r.fh3 m with ⟨_ | ⟨id, snap⟩, r'⟩
  · simp [hr] at hf
  · dsimp only
    cases v.fs.nodeById id snap with
    | none => rfl
    | some n =>
      dsimp only
      split_ifs <;> rfl

theorem finishCreate_accepts {fs : PrfsStore} {dir child : Node} {pre : Option PreAttr} {name : Bytes} :
    (finishCreate h v w fs dir pre name child).1 = .success := by
  unfold finishCreate
  split <;> rfl

theorem nfsMkdir_accepts : (nfsMkdir live h v m r w cred).1 = .success := by
  unfold nfsMkdir
  split
  · rfl
  · dsimp only
    exact finishCreate_accepts

theorem nfsMknod_accepts : (nfsMknod live h v m r w cred).1 = .success := by
  unfold nfsMknod
  split
  · rfl
  · dsimp only
    split_ifs
    · exact finishCreate_accepts
    · exact finishCreate_accepts
    · exact finishCreate_accepts
    · exact finishCreate_accepts
    · rfl

theorem nfsRemove_accepts : (nfsRemove live h v m r w).1 = .success := by
  unfold nfsRemove
  split <;> rfl

theorem nfsRmdir_accepts : (nfsRmdir live h v m r w).1 = .success := by
  unfold nfsRmdir
  split
  · rfl
  · split
    · rfl
    · split_ifs <;> rfl

/-- SYMLINK that runs out of bytes has already made its node. -/
theorem nfsSymlink_allocates (hg : (nfsSymlink live h v m r w cred).1 = .garbageArgs) :
    (nfsSymlink live h v m r w cred).2.2.fs.next = v.fs.next + 1 := by
  unfold nfsSymlink at hg ⊢
  split at hg
  · simp [answer] at hg
  · dsimp only at hg ⊢
    split_ifs at hg ⊢
    · dsimp only [garbage]
      rw [applySattr_sets.next, applyCred_sets.next]
      rfl
    · rw [finishCreate_accepts] at hg
      simp at hg

theorem diropParent_ok_iff {dir : Node} {pre : Option PreAttr} {name : Bytes} {r' : Reader} {w' : Writer} :
    diropParent live h v m r w = (.ok (dir, pre, name), r', w') ↔
      ∃ id r1, r.fh3 m = (some (id, LATEST), r1) ∧ r1.str m = (name, r') ∧ r'.ok = true ∧
        v.fs.nodeById id LATEST = some dir ∧ (v.fs.attrs dir).type = .DIR ∧ pre = preOf v.fs (some dir) ∧ w' = w := by
  constructor
  · intro hd
    unfold diropParent at hd
    split at hd
    · simp at hd
    · next id snap r1 hf =>
      by_cases hok : (r1.str m).2.ok = true
      · cases hn : v.fs.nodeById id snap with
        | none => simp [hok, hn] at hd
        | some dir' =>
          simp only [hok, hn, Bool.not_true, Bool.false_eq_true, if_false] at hd
          by_cases ht : (v.fs.attrs dir').type = .DIR
          · by_cases hl : snap = LATEST
            · subst hl
              simp only [ht, live, ne_eq, not_true_eq_false, decide_true, Bool.not_true, Bool.false_eq_true, if_false,
                Prod.mk.injEq, Except.ok.injEq] at hd
              obtain ⟨⟨rfl, rfl, rfl⟩, rfl, rfl⟩ := hd
              exact ⟨id, r1, hf, rfl, hok, hn, ht, rfl, rfl⟩
            · simp [ht, hl, live] at hd
          · simp [ht] at hd
      · simp [hok] at hd
  · rintro ⟨id, r1, hf, hs, hok, hn, ht, rfl, rfl⟩
    unfold diropParent
    simp [hf, hs, hok, hn, ht, live]

/-- CREATE is refused as garbage only for a missing mode word. -/
theorem nfsCreate_garbage_iff :
    (nfsCreate live h v m r w cred).1 = .garbageArgs ↔ ModeMissing v m r := by
  constructor
  · intro hg
    unfold nfsCreate at hg
    split at hg
    · simp [answer] at hg
    · next dir pre name r' w' hd =>
      by_cases hok : (r'.u32 m).2.ok = true
      · simp only [hok, Bool.not_true, Bool.false_eq_true, if_false] at hg
        split at hg
        · split_ifs at hg <;> simp [answer] at hg
        · rw [finishCreate_accepts] at hg
          simp at hg
      · obtain ⟨id, r1, hf, hs, hok', hn, ht, -, -⟩ := diropParent_ok_iff.mp hd
        exact ⟨id, r1, name, r', dir, hf, hs, hok', hn, ht, by simpa using hok⟩
  · rintro ⟨id, r1, name, r', dir, hf, hs, hok', hn, ht, hok⟩
    have hd := (@diropParent_ok_iff h v m r w dir _ name r' w).mpr ⟨id, r1, hf, hs, hok', hn, ht, rfl, rfl⟩
    unfold nfsCreate
    rw [hd]
    simp [hok, garbage]

theorem nfsCreate_garbage_fs (hg : (nfsCreate live h v m r w cred).1 = .garbageArgs) :
    (nfsCreate live h v m r w cred).2.2 = v := by
  obtain ⟨id, r1, name, r', dir, hf, hs, hok', hn, ht, hok⟩ := nfsCreate_garbage_iff.mp hg
  have hd := (@diropParent_ok_iff h v m r w dir _ name r' w).mpr ⟨id, r1, hf, hs, hok', hn, ht, rfl, rfl⟩
  unfold nfsCreate
  rw [hd]
  simp [hok, garbage]

end Procs

/-- The malformed calls of a mutating procedure that are refused before they act. -/
def CaughtWhen (v : NfsV3) (m : Msg) (r : Reader) : Proc3 → Prop
  | .write | .rename | .link => True
  | .setattr => (r.fh3 m).1 = none
  | .create => ModeMissing v m r
  | _ => False

theorem runProc_caught_iff {h : Host} {v : NfsV3} {m : Msg} {r : Reader} {w : Writer} {cred : Cred} {p : Proc3}
    (hmut : p.isMutating = true) (ht : (decodeArgs m r p).ok = false) :
    (runProc h v m r live w cred p).1 = .garbageArgs ∧ (runProc h v m r live w cred p).2.2.fs = v.fs ↔ CaughtWhen v m r p := by
  cases p with
  | null | getattr | lookup | access | readlink | read | readdir | readdirplus | fsstat | fsinfo | pathconf | commit =>
    simp [Proc3.isMutating] at hmut
  | write =>
    simp only [runProc]
    rw [nfsWrite_garbage ht]
    exact iff_of_true ⟨rfl, rfl⟩ trivial
  | rename =>
    simp only [runProc]
    rw [nfsRename_garbage ht]
    exact iff_of_true ⟨rfl, rfl⟩ trivial
  | link =>
    simp only [runProc]
    rw [nfsLink_garbage ht]
    exact iff_of_true ⟨rfl, rfl⟩ trivial
  | setattr =>
    simp only [runProc, CaughtWhen]
    by_cases hf : (r.fh3 m).1 = none
    · refine iff_of_true ?_ hf
      obtain ⟨o, r', hr⟩ : ∃ o r', r.fh3 m = (o, r') := ⟨_, _, rfl⟩
      obtain rfl : o = none := by simpa [hr] using hf
      unfold nfsSetattr
      rw [hr]
      exact ⟨rfl, rfl⟩
    · refine iff_of_false (fun hc => ?_) hf
      rw [nfsSetattr_accepts hf] at hc
      simp at hc
  | create =>
    simp only [runProc, CaughtWhen, ← @nfsCreate_garbage_iff h v m r w cred]
    exact ⟨And.left, fun hg => ⟨hg, by rw [nfsCreate_garbage_fs hg]⟩⟩
  | symlink =>
    refine iff_of_false (fun hc => ?_) id
    simp only [runProc] at hc
    have hnext := nfsSymlink_allocates hc.1
    rw [hc.2] at hnext
    simp at hnext
  | mkdir =>
    refine iff_of_false (fun hc => ?_) id
    simp only [runProc] at hc
    rw [nfsMkdir_accepts] at hc
    simp at hc
  | mknod =>
    refine iff_of_false (fun hc => ?_) id
    simp only [runProc] at hc
    rw [nfsMknod_accepts] at hc
    simp at hc
  | remove =>
    refine iff_of_false (fun hc => ?_) id
    simp only [runProc] at hc
    rw [nfsRemove_accepts] at hc
    simp at hc
  | rmdir =>
    refine iff_of_false (fun hc => ?_) id
    simp only [runProc] at hc
    rw [nfsRmdir_accepts] at hc
    simp at hc

/-- The word after the reply's header and verifier. -/
def Carries (frame : Bytes) (st : AcceptStat) : Prop := (frame.drop 24).take 4 = word st.code

theorem reply_carries {h : Host} {v : NfsV3} {m : Msg} {r : Reader} {xid prog vers proc : UInt32} {cred : Cred}
    {st : AcceptStat} :
    Carries (reply h v m r xid prog vers proc cred).1 st ↔ (dispatch h v m r prog vers proc cred).1 = st := by
  have hword : ∀ a b : AcceptStat, word a.code = word b.code ↔ a = b := by
    intro a b
    cases a <;> cases b <;> decide
  rw [← hword, Carries]
  unfold reply
  dsimp only
  split_ifs <;> simp [Writer.u32, Writer.append, word]

/-- A message is answered with GARBAGE_ARGS and leaves the store as it was. -/
def Caught (h : Host) (v : NfsV3) (m : Msg) : Prop :=
  ∃ frame v', session h v m = some (frame, v') ∧ Carries frame .garbageArgs ∧ v'.fs = v.fs

/-- A call of a mutating procedure whose message ends before its arguments do is refused before it acts
exactly for the procedures that decode all of them first, and for the two that look at their reader early
when the message ends there. -/
theorem malformed_caught_iff (h : Host) (hadv : h.advance = false) (v : NfsV3) (m : Msg)
    (hlen : 24 ≤ m.buf.length ∧ m.buf.length ≤ 0x100000) (c : Header) (hc : readHeader m {} = some c)
    (hprog : c.prog = PROG_NFS) (hvers : c.vers = NFS_V3) (p : Proc3) (hp : Proc3.ofCode c.proc = some p)
    (hmut : p.isMutating = true) (ht : (decodeArgs m c.args p).ok = false) :
    Caught h v m ↔ CaughtWhen v m c.args p := by
  have hdis : dispatch h v m c.args c.prog c.vers c.proc c.cred = runProc h v m c.args live {} c.cred p := by
    simp [dispatch, run, nfsCall, hprog, hvers, hp, hadv]
  have hs : session h v m = some (reply h v m c.args c.xid c.prog c.vers c.proc c.cred) := by
    unfold session
    rw [if_neg (by omega), hc, Option.map_some]
  rw [← @runProc_caught_iff h v m c.args {} c.cred p hmut ht, ← hdis, Caught, hs]
  constructor
  · rintro ⟨frame, v', he, hcarries, hsame⟩
    obtain ⟨rfl, rfl⟩ := Prod.mk.inj (Option.some.inj he)
    exact ⟨reply_carries.mp hcarries, hsame⟩
  · rintro ⟨hst, hsame⟩
    exact ⟨_, _, rfl, reply_carries.mpr hst, hsame⟩

/-- The header of a call without credentials. -/
def callHeader (proc : UInt32) : Writer :=
  ((((((((({} : Writer).u32 7).u32 RPC_CALL).u32 2).u32 PROG_NFS).u32 NFS_V3).u32 proc).u32 0).u32 0).u32 0 |>.u32 0

/-- A WRITE to the root that ends inside its offset. -/
def writeCut : Msg := ⟨(((callHeader 7).fh 1 LATEST).u32 0).v, fun _ => 0, by decide⟩

theorem malformed_caught_iff_write : Caught {} ⟨PrfsStore.empty, .empty⟩ writeCut :=
  (malformed_caught_iff {} rfl ⟨PrfsStore.empty, .empty⟩ writeCut (by decide)
    ⟨7, PROG_NFS, NFS_V3, 7, {}, ⟨40, true, _⟩⟩ rfl rfl rfl .write rfl rfl rfl).mpr trivial

/-- A SETATTR of the root that says there is a mode and ends before it. -/
def setattrCut : Msg := ⟨(((callHeader 2).fh 1 LATEST).u32 1).v, fun _ => 0, by decide⟩

/-- The mode of the root becomes zero and the call is accepted. -/
theorem setattr_acts_on_cut :
    (∃ c, readHeader setattrCut {} = some c ∧ Proc3.ofCode c.proc = some .setattr ∧
      (decodeArgs setattrCut c.args .setattr).ok = false) ∧
    (∃ frame v', session {} ⟨PrfsStore.empty, .empty⟩ setattrCut = some (frame, v') ∧ Carries frame .success ∧
      (PrfsStore.empty.attrs ⟨1, LATEST⟩).mode = 0o755 ∧ (v'.fs.attrs ⟨1, LATEST⟩).mode = 0) ∧
    ¬ Caught {} ⟨PrfsStore.empty, .empty⟩ setattrCut := by
  have hstat : ((session {} ⟨PrfsStore.empty, .empty⟩ setattrCut).map (fun x => (x.1.drop 24).take 4)) =
      some (word AcceptStat.success.code) := by decide
  have hmode : ((session {} ⟨PrfsStore.empty, .empty⟩ setattrCut).map (fun x => (x.2.fs.attrs ⟨1, LATEST⟩).mode)) =
      some 0 := by decide
  cases hs : session {} ⟨PrfsStore.empty, .empty⟩ setattrCut with
  | none => simp [hs] at hstat
  | some x =>
    obtain ⟨frame, v'⟩ := x
    rw [hs, Option.map_some, Option.some.injEq] at hstat hmode
    refine ⟨⟨_, rfl, rfl, rfl⟩, ⟨frame, v', rfl, hstat, by decide, hmode⟩, ?_⟩
    rintro ⟨frame', w, he, hcarries, -⟩
    obtain ⟨rfl, rfl⟩ := Prod.mk.inj (Option.some.inj (hs.symm.trans he))
    exact absurd (hstat.symm.trans hcarries) (by decide)

end NfsV3

end Prfs
