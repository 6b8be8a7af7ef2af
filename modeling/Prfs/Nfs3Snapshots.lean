import Prfs.Nfs3Garbage
import Prfs.StoreChanges

namespace Prfs

namespace NfsV3

section Writers

variable {w w' : Writer} {h : Host} {fs : PrfsStore}

theorem pre_encodePostOp (hw : w.Pre w') (n : Option Node) : w.Pre (encodePostOp h fs w' n) := by
  cases n with
  | none => exact hw.u32 _
  | some n =>
    have h1 := (((((hw.u32 1).u32 (ftype3 (fs.attrs n).type)).u32 (fs.attrs n).mode).u32 (fs.attrs n).nlink).u32
      (fs.attrs n).uid).u32 (fs.attrs n).gid
    unfold encodePostOp encodeFattr
    dsimp only
    exact ((((((((((((h1.u64 _).u64 _).u32 _).u32 _).u64 _).u64 _).u32 _).u32 _).u32 _).u32 _).u32 _).u32 _)

theorem pre_encodeWcc (hw : w.Pre w') (before : Option PreAttr) (after : Option Node) :
    w.Pre (encodeWcc h fs w' before after) := by
  refine pre_encodePostOp ?_ after
  cases before with
  | none => exact hw.u32 _
  | some p => exact ((((hw.u32 _).u64 _).u32 _).u32 _ |>.u32 _ |>.u32 _)

end Writers

/-- The result starts with the status. -/
def Answered (x : Out) (st : Nfsstat3) : Prop := x.1 = .success ∧ (({} : Writer).u32 st.code).Pre x.2.1

/-- The handles among the arguments of a procedure. -/
def handles (m : Msg) (r : Reader) : Proc3 → List (UInt64 × UInt64)
  | .null => []
  | .rename => (r.fh3 m).1.toList ++ (((r.fh3 m).2.str m).2.fh3 m).1.toList
  | .link => (r.fh3 m).1.toList ++ ((r.fh3 m).2.fh3 m).1.toList
  | _ => (r.fh3 m).1.toList

/-- A call leaves the store as it is, and is answered ROFS where it would have changed it but for the test. -/
def Protected (h : Host) (v : NfsV3) (m : Msg) (r : Reader) (cred : Cred) (p : Proc3) : Prop :=
  (runProc h v m r live {} cred p).2.2.fs = v.fs ∧
    ((runProc h v m r (fun _ => true) {} cred p).2.2.fs ≠ v.fs → Answered (runProc h v m r live {} cred p) .rofs)

/-- The arguments of a LINK, with both nodes found. -/
def LinkArgs (v : NfsV3) (m : Msg) (r : Reader) (fsnap dsnap : UInt64) (name : Bytes) (file dir : Node) : Prop :=
  ∃ fid r1 did r2 r3, r.fh3 m = (some (fid, fsnap), r1) ∧ r1.fh3 m = (some (did, dsnap), r2) ∧
    r2.str m = (name, r3) ∧ r3.ok = true ∧ v.fs.nodeById fid fsnap = some file ∧ v.fs.nodeById did dsnap = some dir

/-- A LINK of a file of a snapshot into a live directory, where the store takes the name. -/
def LinksSnapshot (v : NfsV3) (m : Msg) (r : Reader) (p : Proc3) : Prop :=
  p = .link ∧ ∃ fsnap name file dir, LinkArgs v m r fsnap LATEST name file dir ∧ fsnap ≠ LATEST ∧
    v.fs.Linkable dir.id name file.id

section Procs

variable {h : Host} {v : NfsV3} {m : Msg} {r r' : Reader} {w : Writer} {cred : Cred} {isLive : UInt64 → Bool}
  {id snap : UInt64}

theorem listDir_fs {cookie : UInt64} {mx per : Nat} {encode : Writer → DirEnt → Writer} :
    (listDir h v w id snap cookie mx per encode).2.2.fs = v.fs := by
  unfold listDir
  split
  · rfl
  · split_ifs
    · rfl
    · split <;> rfl

theorem nodeInfo_fs {values : UInt64 → Writer → Writer} : (nodeInfo h v m r w values).2.2.fs = v.fs := by
  unfold nodeInfo
  split
  · rfl
  · split <;> rfl

/-- The other procedures do not touch the store. -/
theorem runProc_fs_of_reads {p : Proc3} (hp : p.isMutating = false) :
    (runProc h v m r isLive w cred p).2.2.fs = v.fs := by
  cases p with
  | setattr | write | create | mkdir | symlink | mknod | remove | rmdir | rename | link => simp [Proc3.isMutating] at hp
  | null => rfl
  | fsstat =>
    show (nfsFsstat h v m r w).2.2.fs = v.fs
    unfold nfsFsstat
    dsimp only
    exact nodeInfo_fs
  | fsinfo =>
    show (nfsFsinfo h v m r w).2.2.fs = v.fs
    unfold nfsFsinfo
    dsimp only
    exact nodeInfo_fs
  | pathconf =>
    show (nfsPathconf h v m r w).2.2.fs = v.fs
    unfold nfsPathconf
    exact nodeInfo_fs
  | getattr =>
    show (nfsGetattr h v m r w).2.2.fs = v.fs
    unfold nfsGetattr
    split
    · rfl
    · split <;> rfl
  | commit =>
    show (nfsCommit h v m r w).2.2.fs = v.fs
    unfold nfsCommit
    dsimp only
    split
    · rfl
    · split <;> rfl
  | readlink =>
    show (nfsReadlink h v m r w).2.2.fs = v.fs
    unfold nfsReadlink
    split
    · rfl
    · split
      · rfl
      · split_ifs <;> rfl
  | access =>
    show (nfsAccess h v m r w).2.2.fs = v.fs
    unfold nfsAccess
    dsimp only
    split
    · rfl
    · split_ifs
      · rfl
      · split <;> rfl
  | lookup =>
    show (nfsLookup h v m r w).2.2.fs = v.fs
    unfold nfsLookup
    dsimp only
    split
    · rfl
    · split_ifs
      · rfl
      · split
        · rfl
        · split_ifs
          · rfl
          · split <;> rfl
  | read =>
    show (nfsRead h v m r w).2.2.fs = v.fs
    unfold nfsRead
    dsimp only
    split
    · rfl
    · split
      · rfl
      · split
        · rfl
        · split
          · rfl
          · split <;> rfl
  | readdir =>
    show (nfsReaddir h v m r w).2.2.fs = v.fs
    unfold nfsReaddir
    dsimp only
    split
    · rfl
    · split_ifs
      · rfl
      · exact listDir_fs
  | readdirplus =>
    show (nfsReaddirPlus h v m r w).2.2.fs = v.fs
    unfold nfsReaddirPlus
    dsimp only
    split
    · rfl
    · split_ifs
      · rfl
      · exact listDir_fs

/-- The first result of a call that a snapshot handle is turned away with. -/
def Refused (v : NfsV3) (x y : Out) : Prop := x.2.2.fs = v.fs ∧ (y.2.2.fs = v.fs ∨ Answered x .rofs)

theorem answered_rofs {w : Writer} (hw : (({} : Writer).u32 Nfsstat3.rofs.code).Pre w) :
    Answered (answer v w) .rofs := ⟨rfl, hw⟩

theorem refused_rofs {w : Writer} {y : Out} (hw : (({} : Writer).u32 Nfsstat3.rofs.code).Pre w) :
    Refused v (answer v w) y := ⟨rfl, .inr (answered_rofs hw)⟩

theorem nfsSetattr_refused (hf : r.fh3 m = (some (id, snap), r')) (hs : snap ≠ LATEST) :
    Refused v (nfsSetattr live h v m r {}) (nfsSetattr (fun _ => true) h v m r {}) := by
  unfold nfsSetattr
  rw [hf]
  dsimp only
  split
  · exact ⟨rfl, .inl rfl⟩
  · rw [if_pos (by simp [live, hs])]
    exact refused_rofs (pre_encodeWcc (.refl _) _ _)

theorem nfsWrite_refused (hf : r.fh3 m = (some (id, snap), r')) (hs : snap ≠ LATEST) :
    Refused v (nfsWrite live h v m r {}) (nfsWrite (fun _ => true) h v m r {}) := by
  unfold nfsWrite
  rw [hf]
  dsimp only
  split
  · exact ⟨rfl, .inl rfl⟩
  · split
    · exact ⟨rfl, .inl rfl⟩
    · split
      · exact ⟨rfl, .inl rfl⟩
      · rw [if_pos (by simp [live, hs])]
        exact refused_rofs (pre_encodeWcc (.refl _) _ _)

/-- A directory of a snapshot is turned away with ROFS, or for a reason that stands without the test. -/
theorem diropParent_refused (hf : r.fh3 m = (some (id, snap), r')) (hs : snap ≠ LATEST) :
    ∃ e r1 w1, diropParent live h v m r {} = (.error e, r1, w1) ∧
      (diropParent (fun _ => true) h v m r {} = (.error e, r1, w1) ∨ (({} : Writer).u32 Nfsstat3.rofs.code).Pre w1) := by
  unfold diropParent
  rw [hf]
  dsimp only
  split
  · exact ⟨_, _, _, rfl, .inl rfl⟩
  · split
    · exact ⟨_, _, _, rfl, .inl rfl⟩
    · split
      · exact ⟨_, _, _, rfl, .inl rfl⟩
      · rw [if_pos (by simp [live, hs])]
        exact ⟨_, _, _, rfl, .inr (pre_encodeWcc (.refl _) _ _)⟩

/-- The procedures that start with the directory and the name of an entry, and end where these are refused. -/
theorem dirop_refused (hf : r.fh3 m = (some (id, snap), r')) (hs : snap ≠ LATEST) {p : Proc3}
    (hstop : ∀ isLive e r1 w1, diropParent isLive h v m r {} = (.error e, r1, w1) →
      runProc h v m r isLive {} cred p = answer v w1) :
    Refused v (runProc h v m r live {} cred p) (runProc h v m r (fun _ => true) {} cred p) := by
  obtain ⟨e, r1, w1, hd, hor⟩ := @diropParent_refused h v m r r' id snap hf hs
  rw [hstop _ e r1 w1 hd]
  rcases hor with hu | hp
  · rw [hstop _ e r1 w1 hu]
    exact ⟨rfl, .inl rfl⟩
  · exact refused_rofs hp

theorem nfsRename_refused (hs : ∃ n ∈ handles m r .rename, n.2 ≠ LATEST) :
    Refused v (nfsRename live h v m r {}) (nfsRename (fun _ => true) h v m r {}) := by
  unfold nfsRename
  rcases hf : r.fh3 m with ⟨_ | ⟨fid, fsnap⟩, r1⟩
  · exact ⟨rfl, .inl rfl⟩
  · dsimp only
    rcases ht : (r1.str m).2.fh3 m with ⟨_ | ⟨tid, tsnap⟩, r2⟩
    · exact ⟨rfl, .inl rfl⟩
    · dsimp only
      split
      · exact ⟨rfl, .inl rfl⟩
      · split
        · have hhandles : handles m r .rename = [(fid, fsnap), (tid, tsnap)] := by
            simp only [handles, hf, ht]
            rfl
          have hl : (live fsnap && live tsnap) = false := by
            obtain ⟨n, hn, hsnap⟩ := hs
            rw [hhandles] at hn
            rw [Bool.and_eq_false_iff]
            rcases List.mem_pair.mp hn with rfl | rfl
            · exact .inl (by simpa [live] using hsnap)
            · exact .inr (by simpa [live] using hsnap)
          rw [hl]
          exact refused_rofs (pre_encodeWcc (pre_encodeWcc (.refl _) _ _) _ _)
        · exact ⟨rfl, .inl rfl⟩

theorem Refused.protected {p : Proc3}
    (h' : Refused v (runProc h v m r live {} cred p) (runProc h v m r (fun _ => true) {} cred p)) :
    Protected h v m r cred p :=
  ⟨h'.1, fun hne => h'.2.resolve_left hne⟩

theorem nfsLink_cases :
    (∃ fsnap dsnap name file dir, LinkArgs v m r fsnap dsnap name file dir ∧ ∀ isLive,
      (isLive dsnap = true → (nfsLink isLive h v m r {}).2.2.fs =
        touched (v.fs.link dir name file).1 (v.fs.link dir name file).2 dir) ∧
      (isLive dsnap = false → (nfsLink isLive h v m r {}).2.2.fs = v.fs ∧
        Answered (nfsLink isLive h v m r {}) .rofs)) ∨
    ((∀ fsnap dsnap name file dir, ¬ LinkArgs v m r fsnap dsnap name file dir) ∧
      ∀ isLive, (nfsLink isLive h v m r {}).2.2.fs = v.fs) := by
  unfold nfsLink
  rcases hf : r.fh3 m with ⟨_ | ⟨fid, fsnap⟩, r1⟩
  · refine .inr ⟨?_, fun isLive => rfl⟩
    rintro fsnap dsnap name file dir ⟨fid, r1', did, r2, r3, he, -⟩
    simp [hf] at he
  · dsimp only
    rcases hd : r1.fh3 m with ⟨_ | ⟨did, dsnap⟩, r2⟩
    · refine .inr ⟨?_, fun isLive => rfl⟩
      rintro fsnap' dsnap name file dir ⟨fid', r1', did, r2', r3, he, he', -⟩
      cases hf.symm.trans he
      simp [hd] at he'
    · rcases hn : r2.str m with ⟨name, r3⟩
      dsimp only
      by_cases hex : r3.ok = true ∧ (v.fs.nodeById fid fsnap).isSome = true ∧ (v.fs.nodeById did dsnap).isSome = true
      · obtain ⟨hok, hfile, hdir⟩ := hex
        obtain ⟨file, hfile⟩ := Option.isSome_iff_exists.mp hfile
        obtain ⟨dir, hdir⟩ := Option.isSome_iff_exists.mp hdir
        refine .inl ⟨fsnap, dsnap, name, file, dir, ⟨fid, r1, did, r2, r3, hf, hd, hn, hok, hfile, hdir⟩, ?_⟩
        intro isLive
        simp only [hn, hok, hfile, hdir, Bool.not_true, Bool.false_eq_true, ite_false]
        refine ⟨fun hl => by simp [hl, answer], fun hl => ?_⟩
        simp only [hl, Bool.false_eq_true, ite_false]
        exact ⟨rfl, answered_rofs (pre_encodeWcc (pre_encodePostOp (.refl _) _) _ _)⟩
      · refine .inr ⟨?_, fun isLive => ?_⟩
        · rintro fsnap' dsnap' name' file dir ⟨fid', r1', did', r2', r3', he, he', he'', hok, hfile, hdir⟩
          cases hf.symm.trans he
          cases hd.symm.trans he'
          cases hn.symm.trans he''
          exact hex ⟨hok, by simp [hfile], by simp [hdir]⟩
        · simp only [hn]
          split
          · rfl
          · next hok =>
            split
            · next file dir hfile hdir =>
              exact absurd ⟨by simpa using hok, by simp [hfile], by simp [hdir]⟩ hex
            · rfl

theorem LinkArgs.unique {fsnap dsnap fsnap' dsnap' : UInt64} {name name' : Bytes} {file dir file' dir' : Node}
    (h : LinkArgs v m r fsnap dsnap name file dir) (h' : LinkArgs v m r fsnap' dsnap' name' file' dir') :
    fsnap = fsnap' ∧ dsnap = dsnap' ∧ name = name' ∧ file = file' ∧ dir = dir' := by
  obtain ⟨fid, r1, did, r2, r3, hf, hd, hn, -, hfile, hdir⟩ := h
  obtain ⟨fid', r1', did', r2', r3', hf', hd', hn', -, hfile', hdir'⟩ := h'
  cases hf.symm.trans hf'
  cases hd.symm.trans hd'
  cases hn.symm.trans hn'
  exact ⟨rfl, rfl, rfl, Option.some.inj (hfile.symm.trans hfile'), Option.some.inj (hdir.symm.trans hdir')⟩

/-- Only the handle of the directory keeps a LINK from the store. -/
theorem nfsLink_protected_iff (hs : ∃ n ∈ handles m r .link, n.2 ≠ LATEST) :
    Protected h v m r cred .link ↔ ¬ LinksSnapshot v m r .link := by
  unfold LinksSnapshot Protected
  simp only [runProc, true_and]
  rcases @nfsLink_cases h v m r with ⟨fsnap, dsnap, name, file, dir, hargs, hrun⟩ | ⟨hno, hrun⟩
  · by_cases hl : dsnap = LATEST
    · subst hl
      have hsnap : fsnap ≠ LATEST := by
        obtain ⟨fid, r1, did, r2, r3, hf, hd, -⟩ := hargs
        obtain ⟨n, hn, hne⟩ := hs
        simp only [handles, hf, hd] at hn
        simp at hn
        rcases hn with rfl | rfl
        · exact hne
        · exact absurd rfl hne
      have hlive := (hrun live).1 (by simp [live])
      have hun := (hrun fun _ => true).1 rfl
      by_cases hlk : v.fs.Linkable dir.id name file.id
      · refine iff_of_false (fun hp => ?_) (fun hn => hn ⟨fsnap, name, file, dir, hargs, hsnap, hlk⟩)
        obtain ⟨hok, hhas⟩ := PrfsStore.link_of_linkable hlk
        have hsame := hlive.symm.trans hp.1
        rw [touched, if_pos hok] at hsame
        exact hlk.not_has (hsame ▸ hhas.touchDir dir)
      · obtain ⟨hne, hsame⟩ := PrfsStore.link_of_not_linkable hlk
        rw [touched, if_neg hne, hsame] at hlive hun
        refine iff_of_true ⟨hlive, fun hc => absurd hun hc⟩ ?_
        rintro ⟨fsnap', name', file', dir', hargs', -, hlk'⟩
        obtain ⟨-, -, rfl, rfl, rfl⟩ := hargs'.unique hargs
        exact hlk hlk'
    · obtain ⟨hsame, hrofs⟩ := (hrun live).2 (by simp [live, hl])
      refine iff_of_true ⟨hsame, fun _ => hrofs⟩ ?_
      rintro ⟨fsnap', name', file', dir', hargs', -, -⟩
      exact hl (hargs'.unique hargs).2.1.symm
  · refine iff_of_true ⟨hrun live, fun hc => absurd (hrun _) hc⟩ ?_
    rintro ⟨fsnap', name', file', dir', hargs', -⟩
    exact hno _ _ _ _ _ hargs'

/-- A call with a handle of a snapshot is kept from the store unless it is a LINK that the store takes. -/
theorem runProc_protected_iff {p : Proc3} (hs : ∃ n ∈ handles m r p, n.2 ≠ LATEST) :
    Protected h v m r cred p ↔ ¬ LinksSnapshot v m r p := by
  by_cases hlink : p = .link
  · subst hlink
    exact nfsLink_protected_iff hs
  · refine iff_of_true ?_ (fun hl => hlink hl.1)
    cases hmut : p.isMutating with
    | false => exact ⟨runProc_fs_of_reads hmut, fun hne => absurd (runProc_fs_of_reads hmut) hne⟩
    | true =>
      apply Refused.protected
      by_cases hren : p = .rename
      · subst hren
        exact nfsRename_refused hs
      · have hone : handles m r p = (r.fh3 m).1.toList := by
          cases p <;> first | rfl | exact absurd rfl hlink | exact absurd rfl hren | simp [Proc3.isMutating] at hmut
        obtain ⟨⟨id, snap⟩, hn, hsnap⟩ := hs
        obtain ⟨o, r', hf⟩ : ∃ o r', r.fh3 m = (o, r') := ⟨_, _, rfl⟩
        rw [hone, hf] at hn
        obtain rfl : o = some (id, snap) := by simpa using hn
        cases p with
        | setattr =>
          exact nfsSetattr_refused hf hsnap
        | write =>
          exact nfsWrite_refused hf hsnap
        | create =>
          refine dirop_refused hf hsnap fun isLive e r1 w1 hd => ?_
          show nfsCreate isLive h v m r {} cred = _
          unfold nfsCreate
          rw [hd]
        | mkdir =>
          refine dirop_refused hf hsnap fun isLive e r1 w1 hd => ?_
          show nfsMkdir isLive h v m r {} cred = _
          unfold nfsMkdir
          rw [hd]
        | symlink =>
          refine dirop_refused hf hsnap fun isLive e r1 w1 hd => ?_
          show nfsSymlink isLive h v m r {} cred = _
          unfold nfsSymlink
          rw [hd]
        | mknod =>
          refine dirop_refused hf hsnap fun isLive e r1 w1 hd => ?_
          show nfsMknod isLive h v m r {} cred = _
          unfold nfsMknod
          rw [hd]
        | remove =>
          refine dirop_refused hf hsnap fun isLive e r1 w1 hd => ?_
          show nfsRemove isLive h v m r {} = _
          unfold nfsRemove
          rw [hd]
        | rmdir =>
          refine dirop_refused hf hsnap fun isLive e r1 w1 hd => ?_
          show nfsRmdir isLive h v m r {} = _
          unfold nfsRmdir
          rw [hd]
        | rename => exact absurd rfl hren
        | link => exact absurd rfl hlink
        | _ => simp [Proc3.isMutating] at hmut

end Procs

end NfsV3

end Prfs
