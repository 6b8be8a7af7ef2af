import Prfs.Nfs4Cases

namespace Prfs

namespace NfsV4

namespace Call4

variable {c : Call4} {m : Msg} {pos : WalkOrder} {hash : Bytes → UInt64} {h : Host}

/-- The client and the claim that an OPEN names. -/
def openClient (m : Msg) (r : Reader) : UInt64 × UInt32 :=
  let r := (((r.u32 m).2.u32 m).2.u32 m).2
  let (clientid, r) := r.u64 m
  let r := (readOpenHow m (r.str m).2).2
  (clientid, (r.u32 m).1)

/-- The attributes that can be set. -/
def settable (b : Nat) : Bool := b = 4 || b = 33 || b = 36 || b = 37 || b = 48 || b = 54

/-- An operation that runs out of bytes comes to a check of its own that answers INVAL. -/
def RefusedInval (c : Call4) (m : Msg) : Op4 → Prop
  | .setclientid => True
  | .openFile => c.v.clientConfirmed (openClient m c.r).1 = true ∧ (openClient m c.r).2 = CLAIM_NULL
  | .setattr =>
    c.cur ≠ none ∧ c.liveCfh live = true ∧ (bitsOf ((c.r.skip m 16).bitmap m).1).all settable = true
  | .create =>
    ∃ dir, c.cur = some dir ∧ (c.fs.attrs dir).type = .DIR ∧ c.liveCfh live = true ∧
      ¬ (2 ≤ (c.r.u32 m).1 ∧ (c.r.u32 m).1 ≤ 7)
  | .rename =>
    ∃ s d sdir ddir, c.Both s d sdir ddir ∧ s.snap = LATEST ∧ d.snap = LATEST ∧
      (c.fs.move sdir (c.r.str m).1 ddir ((c.r.str m).2.str m).1).1 = .INVAL
  | .link =>
    ∃ s d file dir, c.Both s d file dir ∧ (c.fs.attrs dir).type = .DIR ∧ d.snap = LATEST ∧
      (c.fs.link dir (c.r.str m).1 file).1 = .INVAL
  | _ => False

theorem toNfs4_inval {e : Error} : toNfs4 e = .inval ↔ e = .INVAL := by cases e <;> simp [toNfs4]

/-- An OPEN that runs out of bytes stops at one of its first three checks. -/
theorem opOpen_cut {isLive : UInt64 → Bool} (hcut : (c.opOpen isLive pos m).2.r.ok = false) :
    (c.opOpen isLive pos m).2.fs = c.fs ∧ (c.opOpen isLive pos m).2.v = c.v ∧
      ((c.opOpen isLive pos m).1 = .inval ↔ RefusedInval c m .openFile) := by
  unfold opOpen at hcut ⊢
  dsimp only [RefusedInval, openClient] at hcut ⊢
  by_cases hc : c.v.clientConfirmed (Reader.u64 m (Reader.u32 m (Reader.u32 m (Reader.u32 m c.r).2).2).2).1 = true
  · simp only [hc, Bool.not_true, Bool.false_eq_true, ite_false, true_and] at hcut ⊢
    split at hcut
    · next hcl => simp [hcl, exit]
    · next hcl =>
      rw [if_neg hcl]
      rw [not_not] at hcl
      split at hcut
      · next hok => simp [hok, hcl, exit]
      · next hok =>
        exfalso
        apply hok
        rw [Bool.not_eq_true']
        split at hcut
        · simpa only [exit_r] using hcut
        · split at hcut
          · simpa only [exit_r] using hcut
          · split at hcut
            · simpa only [exit_r] using hcut
            · simpa only [openName_r] using hcut
  · simp [hc, exit]

theorem opWrite_ne_inval {isLive : UInt64 → Bool} : (c.opWrite isLive m).1 ≠ .inval := by
  unfold opWrite
  dsimp only
  split
  · simp
  · split
    · simp
    · split
      · simp
      · split
        · next st hst =>
          rintro rfl
          exact refuses_ne_inval hst
        · simp

theorem unlink_ne_inval {s s' : PrfsStore} {dir : Node} {name : Bytes} : s.unlink dir name ≠ (.INVAL, s') := by
  have ht : (unlinkT s.cur s.kv dir.id name).1 ≠ .INVAL := by
    unfold unlinkT
    split
    · simp
    · split <;> simp
  intro h
  exact ht (congrArg Prod.fst h)

theorem opRemove_ne_inval {isLive : UInt64 → Bool} : (c.opRemove isLive m).1 ≠ .inval := by
  unfold opRemove
  dsimp only
  split
  · simp
  · split
    · simp
    · split
      · simp
      · split
        · simp
        · split
          · simp
          · next e fs _ he =>
            rw [exit_fst, Ne, toNfs4_inval]
            rintro rfl
            exact unlink_ne_inval he

/-- The loop gets to its end where every bit is one that can be set. -/
theorem fattrLoop_fst {bs : List Nat} {r : Reader} {n : Node} {fs : PrfsStore} :
    (fattrLoop m n bs r fs).1 = bs.all settable := by
  induction bs generalizing r fs with
  | nil => rfl
  | cons b bs ih =>
    rw [fattrLoop, List.all_cons]
    split
    · next hb =>
      have : settable b = false := by
        unfold readFattr at hb
        split at hb <;> simp_all [settable]
      simp [this]
    · next as r' hb =>
      have : settable b = true := by
        unfold readFattr at hb
        split at hb <;> simp_all [settable]
      rw [ih, this, Bool.true_and]

theorem applyFattr4_inval {r : Reader} {n : Node} {fs : PrfsStore} (hcut : (applyFattr4 m r n fs).2.1.ok = false) :
    (applyFattr4 m r n fs).1 = .inval ↔ (bitsOf (r.bitmap m).1).all settable = true := by
  rw [← @fattrLoop_fst m _ ((r.bitmap m).2.u32 m).2 n fs]
  unfold applyFattr4 at hcut ⊢
  dsimp only at hcut ⊢
  split at hcut
  · next hl => simp [hl]
  · next r' fs' hl =>
    dsimp only at hcut
    simp [hl, hcut]

theorem opSetattr_inval_iff (hcut : (c.opSetattr live m).2.r.ok = false) :
    (c.opSetattr live m).1 = .inval ↔ RefusedInval c m .setattr := by
  rcases @opSetattr_cases c live m with ⟨n, hn, hl, hx, hr⟩ | ⟨hno, hx⟩
  · rw [hr] at hcut
    rw [hx.status, applyFattr4_inval hcut]
    simp [RefusedInval, hn, hl]
  · simp only [hx.status, false_iff, RefusedInval, Option.ne_none_iff_exists']
    rintro ⟨⟨n, hn⟩, hl, -⟩
    simp [hno n hn] at hl

theorem createNode_none {fs : PrfsStore} {type : UInt32} {linkdata : Bytes} {maj min : UInt32} :
    createNode fs type linkdata maj min = none ↔ ¬ (2 ≤ type ∧ type ≤ 7) := by
  rw [UInt32.le_iff_toNat_le, UInt32.le_iff_toNat_le]
  simp only [UInt32.reduceToNat]
  unfold createNode
  split <;> simp_all
  omega

theorem readCreate_type {r : Reader} : (readCreate m r).1.1 = (r.u32 m).1 := by
  unfold readCreate
  dsimp only
  split_ifs <;> rfl

theorem opCreate_inval_iff : (c.opCreate live m).1 = .inval ↔ RefusedInval c m .create := by
  unfold opCreate
  dsimp only [RefusedInval]
  have hcur : { c with r := (readCreate m c.r).2 }.cur = c.cur := rfl
  have hlive : { c with r := (readCreate m c.r).2 }.liveCfh live = c.liveCfh live := rfl
  rw [hcur, hlive]
  cases hn : c.cur with
  | none => simp
  | some dir =>
    cases hl : c.liveCfh live with
    | false =>
      simp only [Bool.not_false, ite_true]
      split <;> simp
    | true =>
      simp only [Bool.not_true, Bool.false_eq_true, ite_false, Option.some.injEq]
      split
      · next hd => simp [hd]
      · next hd =>
        rw [not_not] at hd
        rw [← readCreate_type, ← @createNode_none c.fs _ (readCreate m c.r).1.2.1 (readCreate m c.r).1.2.2.1
          (readCreate m c.r).1.2.2.2.1]
        split
        · next hc => simp [hc, hd]
        · next hc =>
          rw [hc]
          split <;> simp

theorem opRename_inval_iff : (c.opRename live m).1 = .inval ↔ RefusedInval c m .rename := by
  rcases @opRename_cases c live m with ⟨s, d, sdir, ddir, hb, hs, hd, hx⟩ | ⟨s, d, sdir, ddir, hb, hl, hx⟩ | ⟨hno, hx⟩
  · rw [hx.status, toNfs4_inval]
    constructor
    · exact fun he => ⟨s, d, sdir, ddir, hb, by simpa [live] using hs, by simpa [live] using hd, he⟩
    · rintro ⟨s', d', sdir', ddir', hb', -, -, he⟩
      obtain ⟨rfl, rfl, rfl, rfl⟩ := hb.unique hb'
      exact he
  · simp only [hx.status, reduceCtorEq, false_iff]
    rintro ⟨s', d', sdir', ddir', hb', hs, hd, -⟩
    obtain ⟨rfl, rfl, -, -⟩ := hb.unique hb'
    simp [live, hs, hd] at hl
  · have hne : (c.opRename live m).1 ≠ .inval := by rcases hx with hx | hx <;> simp [hx.status]
    simp only [hne, false_iff]
    rintro ⟨s, d, sdir, ddir, hb, -⟩
    exact hno s d sdir ddir hb

theorem opLink_inval_iff : (c.opLink live m).1 = .inval ↔ RefusedInval c m .link := by
  rcases @opLink_cases c live m with ⟨s, d, file, dir, hb, ht, hd, hx⟩ | ⟨s, d, file, dir, hb, ht, hl, hx⟩ | ⟨hno, hx⟩
  · rw [hx.status, toNfs4_inval]
    constructor
    · exact fun he => ⟨s, d, file, dir, hb, ht, by simpa [live] using hd, he⟩
    · rintro ⟨s', d', file', dir', hb', -, -, he⟩
      obtain ⟨rfl, rfl, rfl, rfl⟩ := hb.unique hb'
      exact he
  · simp only [hx.status, reduceCtorEq, false_iff]
    rintro ⟨s', d', file', dir', hb', -, hd, -⟩
    obtain ⟨-, rfl, -, -⟩ := hb.unique hb'
    simp [live, hd] at hl
  · have hne : (c.opLink live m).1 ≠ .inval := by rcases hx with hx | hx <;> simp [hx.status]
    simp only [hne, false_iff]
    rintro ⟨s, d, file, dir, hb, ht, -⟩
    exact hno s d file dir hb ht

/-- The statuses of the tables. -/
theorem lockFile_ne_inval {v : NfsV4} {write : Bool} {off len clientid : UInt64} {owner : Bytes} {fileId : UInt64} :
    (v.lockFile pos write off len clientid owner fileId).1.status ≠ .inval := by
  unfold lockFile
  split <;> simp

theorem opLock_ne_inval : (c.opLock pos m).1 ≠ .inval := by
  unfold opLock NfsV4.opLock
  dsimp only
  rw [exitReply_fst]
  split
  · split
    · simp
    · split
      · simp
      · exact lockFile_ne_inval
  · split
    · simp
    · split
      · simp
      · exact lockFile_ne_inval

/-- Of the operations that run out of bytes, the refused ones are those that answer INVAL. -/
theorem runOp_inval_iff (hok : c.r.ok = true) {o : Op4} (hcut : (c.runOp live hash pos m h o).2.r.ok = false) :
    (c.runOp live hash pos m h o).1 = .inval ↔ RefusedInval c m o := by
  cases o with
  | openFile =>
    simp only [runOp] at hcut ⊢
    exact (opOpen_cut hcut).2.2
  | setattr =>
    simp only [runOp] at hcut ⊢
    exact opSetattr_inval_iff hcut
  | create =>
    simp only [runOp]
    exact opCreate_inval_iff
  | rename =>
    simp only [runOp]
    exact opRename_inval_iff
  | link =>
    simp only [runOp]
    exact opLink_inval_iff
  | setclientid =>
    simp only [runOp] at hcut ⊢
    simp only [(opSetClientid_cut hcut).status, RefusedInval]
  | readlink =>
    simp only [runOp, opReadlink] at hcut
    split at hcut
    · simp [hok] at hcut
    · split at hcut <;> simp [hok] at hcut
  | write => simp only [runOp, RefusedInval, opWrite_ne_inval]
  | remove => simp only [runOp, RefusedInval, opRemove_ne_inval]
  | lock => simp only [runOp, RefusedInval, opLock_ne_inval]
  | access | commit | getattr | getfh | lookup | lookupp | putfh | putpubfh | putrootfh | read | readdir | restorefh
    | savefh =>
    simp only [RefusedInval, iff_false]
    exact (runOp_quiet rfl).status
  | openConfirm | openDowngrade | locku =>
    simp only [runOp, opOpenConfirm, opOpenDowngrade, opLocku, NfsV4.opOpenConfirm, NfsV4.opOpenDowngrade,
      NfsV4.opLocku, exitReply_fst, RefusedInval, iff_false]
    split <;> simp
  | close =>
    simp only [runOp, opClose, NfsV4.opClose, exitReply_fst, RefusedInval, iff_false]
    split
    · simp
    · split <;> simp
  | lockt =>
    simp only [runOp, opLockt, NfsV4.opLockt, exitReply_fst, RefusedInval, iff_false]
    split
    · simp
    · split <;> simp
  | renew =>
    simp only [runOp, opRenew, NfsV4.opRenew, exitReply_fst, RefusedInval, iff_false]
    split <;> simp
  | setclientidConfirm =>
    simp only [runOp, opSetClientidConfirm, NfsV4.opSetClientidConfirm, exitReply_fst, RefusedInval, iff_false]
    split
    · simp
    · split
      · simp
      · split <;> simp
  | releaseLockowner =>
    simp [runOp, opReleaseLockowner, NfsV4.opReleaseLockowner, RefusedInval]

theorem refusedInval_w {w : Writer} {o : Op4} : RefusedInval { c with w } m o ↔ RefusedInval c m o := by
  cases o <;> simp only [RefusedInval, both_w] <;> exact Iff.rfl

end Call4

end NfsV4

end Prfs
