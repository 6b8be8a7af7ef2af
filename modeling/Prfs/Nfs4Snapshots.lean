import Prfs.Nfs4Cases
import Prfs.StoreChanges

namespace Prfs

namespace NfsV4

namespace Call4

/-- The operations that can reach the store. -/
def writesStore : Op4 → Bool
  | .openFile | .write | .setattr | .create | .remove | .rename | .link => true
  | _ => false

/-- The handles that an operation works with; one that takes none is given the current one. -/
def handles (c : Call4) (m : Msg) : Op4 → List Node
  | .rename | .link => c.sfh.toList ++ c.cfh.toList
  | .restorefh => c.sfh.toList
  | .putfh => ((c.r.fh4 m).1.map (fun p => (⟨p.1, p.2⟩ : Node))).toList
  | _ => c.cfh.toList

/-- A LINK of a file of a snapshot into a live directory, where the store takes the name. -/
def LinksSnapshot (c : Call4) (m : Msg) (o : Op4) : Prop :=
  o = .link ∧ ∃ s d file dir, c.Both s d file dir ∧ s.snap ≠ LATEST ∧ d.snap = LATEST ∧ (c.fs.attrs dir).type = .DIR ∧
    c.fs.Linkable dir.id (c.r.str m).1 file.id

/-- The first outcome leaves the store as it is, and is ROFS where the second does not. -/
def Refused (c : Call4) (x y : Out4) : Prop := x.2.fs = c.fs ∧ (y.2.fs ≠ c.fs → x.1 = .rofs)

section Reads

variable {c : Call4} {h : Host} {hash : Bytes → UInt64} {pos : WalkOrder} {m : Msg} {isLive : UInt64 → Bool}

theorem opSetClientid_fs : (c.opSetClientid hash pos m).2.fs = c.fs := by
  unfold opSetClientid
  dsimp only
  split <;> simp

theorem runOp_fs_of_reads {o : Op4} (ho : writesStore o = false) : (c.runOp isLive hash pos m h o).2.fs = c.fs := by
  cases o with
  | openFile | write | setattr | create | remove | rename | link => simp [writesStore] at ho
  | setclientid => simp only [runOp, opSetClientid_fs]
  | access | commit | getattr | getfh | lookup | lookupp | putfh | putpubfh | putrootfh | read | readdir | restorefh
    | savefh => exact (runOp_quiet rfl).fs
  | readlink =>
    simp only [runOp, opReadlink]
    split
    · rfl
    · split <;> rfl
  | openConfirm | openDowngrade | close | lock | lockt | locku | renew | setclientidConfirm | releaseLockowner =>
    simp only [runOp, opOpenConfirm, opOpenDowngrade, opClose, opLock, opLockt, opLocku, opRenew, opSetClientidConfirm,
      opReleaseLockowner, exitReply_fs]

end Reads

section Writes

variable {c : Call4} {pos : WalkOrder} {m : Msg} {n : Node}

theorem Refused.same {x : Out4} (hx : x.2.fs = c.fs) : c.Refused x x := ⟨hx, fun h => absurd hx h⟩

theorem Refused.rofs {x y : Out4} (hx : x.2.fs = c.fs) (hst : x.1 = .rofs) : c.Refused x y := ⟨hx, fun _ => hst⟩

theorem liveCfh_false (hc : c.cfh = some n) (hs : n.snap ≠ LATEST) : c.liveCfh live = false := by
  simp [liveCfh, hc, live, hs]

theorem liveCfh_r (r : Reader) {isLive : UInt64 → Bool} : { c with r }.liveCfh isLive = c.liveCfh isLive := rfl

theorem cur_r (r : Reader) : { c with r }.cur = c.cur := rfl

theorem cur_live (hn : c.cur = some n) (hl : c.liveCfh live = true) : n.snap = LATEST := by
  obtain ⟨k, hk, hnode⟩ := Option.bind_eq_some_iff.mp hn
  simp only [liveCfh, hk, Option.any_some, live, decide_eq_true_eq] at hl
  rw [PrfsStore.nodeById_snap hnode, hl]

theorem opWrite_refused (hl : c.liveCfh live = false) : c.Refused (c.opWrite live m) (c.opWrite (fun _ => true) m) := by
  unfold opWrite
  dsimp only
  split
  · exact Refused.same (by simp)
  · next n hn =>
    simp only [liveCfh_r, hl, Bool.not_false, ite_true]
    exact Refused.rofs (by simp) (by simp)

theorem opSetattr_refused (hl : c.liveCfh live = false) :
    c.Refused (c.opSetattr live m) (c.opSetattr (fun _ => true) m) := by
  unfold opSetattr
  dsimp only
  split
  · exact Refused.same (by simp)
  · simp only [liveCfh_r, hl, Bool.not_false, ite_true]
    exact Refused.rofs (by simp) (by simp)

theorem opCreate_refused (hl : c.liveCfh live = false) :
    c.Refused (c.opCreate live m) (c.opCreate (fun _ => true) m) := by
  unfold opCreate
  dsimp only
  split
  · exact Refused.same (by simp)
  · split
    · exact Refused.same (by simp)
    · simp only [liveCfh_r, hl, Bool.not_false, ite_true]
      exact Refused.rofs (by simp) (by simp)

theorem opRemove_refused (hl : c.liveCfh live = false) :
    c.Refused (c.opRemove live m) (c.opRemove (fun _ => true) m) := by
  unfold opRemove
  dsimp only
  split
  · exact Refused.same (by simp)
  · split
    · exact Refused.same (by simp)
    · simp only [liveCfh_r, hl, Bool.not_false, ite_true]
      exact Refused.rofs (by simp) (by simp)

theorem openState_fs {access deny : UInt32} {clientid : UInt64} {owner : Bytes} {dir : Node} {before : UInt64}
    {created : Bool} {child : Node} :
    (c.openState pos access deny clientid owner dir before created child).2.fs = c.fs := by
  unfold openState
  dsimp only
  split <;> simp

/-- An OPEN that does not create only looks the name up. -/
theorem openName_fs {access deny : UInt32} {clientid : UInt64} {owner : Bytes} {how : OpenHow} {dir : Node}
    {name : Bytes} (hh : how.opentype ≠ OPEN4_CREATE) :
    (c.openName pos m access deny clientid owner how dir name).2.fs = c.fs := by
  unfold openName
  dsimp only
  split
  · rw [if_pos hh, exit_fs]
  · split
    · simp
    · exact openState_fs

theorem opOpen_refused (hl : c.liveCfh live = false) :
    c.Refused (c.opOpen live pos m) (c.opOpen (fun _ => true) pos m) := by
  unfold opOpen
  dsimp only
  split
  · exact Refused.same (by simp)
  · split
    · exact Refused.same (by simp)
    · split
      · exact Refused.same (by simp)
      · split
        · exact Refused.same (by simp)
        · split
          · exact Refused.same (by simp)
          · simp only [liveCfh_r, hl, and_true]
            split
            · exact Refused.rofs (by simp) (by simp)
            · next hh =>
              simp only [hh, false_and, ite_false]
              refine Refused.same ?_
              rw [openName_fs hh]

theorem opRename_refused (hs : ∃ n ∈ c.handles m .rename, n.snap ≠ LATEST) :
    c.Refused (c.opRename live m) (c.opRename (fun _ => true) m) := by
  rcases @opRename_cases c live m with ⟨s, d, sdir, ddir, hb, hls, hld, -⟩ | ⟨-, -, -, -, -, -, hx⟩ | ⟨hno, hx⟩
  · obtain ⟨n, hn, hne⟩ := hs
    simp only [handles, hb.sfh, hb.cfh] at hn
    simp only [live, decide_eq_true_eq] at hls hld
    simp at hn
    rcases hn with rfl | rfl
    · exact absurd hls hne
    · exact absurd hld hne
  · exact Refused.rofs hx.fs hx.status
  · have hsame : ∀ isLive, (c.opRename isLive m).2.fs = c.fs := by
      intro isLive
      rcases @opRename_cases c isLive m with ⟨s, d, sdir, ddir, hb, -⟩ | ⟨s, d, sdir, ddir, hb, -⟩ | ⟨-, hx | hx⟩
      · exact absurd hb (hno s d sdir ddir)
      · exact absurd hb (hno s d sdir ddir)
      · exact hx.fs
      · exact hx.fs
    exact ⟨hsame _, fun hne => absurd (hsame _) hne⟩

/-- Only the current handle keeps a LINK from the store. -/
theorem opLink_refused_iff (hs : ∃ n ∈ c.handles m .link, n.snap ≠ LATEST) :
    c.Refused (c.opLink live m) (c.opLink (fun _ => true) m) ↔ ¬ LinksSnapshot c m .link := by
  unfold LinksSnapshot
  simp only [true_and]
  rcases @opLink_cases c live m with ⟨s, d, file, dir, hb, ht, hd, hx⟩ | ⟨s, d, file, dir, hb, -, hd, hx⟩ | ⟨hno, hx⟩
  · simp only [live, decide_eq_true_eq] at hd
    have hsnap : s.snap ≠ LATEST := by
      obtain ⟨n, hn, hne⟩ := hs
      simp only [handles, hb.sfh, hb.cfh] at hn
      simp at hn
      rcases hn with rfl | rfl
      · exact hne
      · exact absurd hd hne
    by_cases hlk : c.fs.Linkable dir.id (c.r.str m).1 file.id
    · refine iff_of_false (fun hr => ?_) (fun hn => hn ⟨s, d, file, dir, hb, hsnap, hd, ht, hlk⟩)
      obtain ⟨hok, hhas⟩ := PrfsStore.link_of_linkable hlk
      have hsame := hx.fs.symm.trans hr.1
      rw [if_pos hok] at hsame
      exact hlk.not_has (hsame ▸ hhas.touchDir dir)
    · obtain ⟨hne, hsame⟩ := PrfsStore.link_of_not_linkable hlk
      refine iff_of_true ?_ ?_
      · have hfs : ∀ isLive, (c.opLink isLive m).2.fs = c.fs := by
          intro isLive
          rcases @opLink_cases c isLive m with
            ⟨s', d', file', dir', hb', -, -, hx'⟩ | ⟨-, -, -, -, -, -, -, hx'⟩ | ⟨-, hx' | hx'⟩
          · obtain ⟨-, -, rfl, rfl⟩ := hb.unique hb'
            rw [hx'.fs, if_neg hne, hsame]
          · exact hx'.fs
          · exact hx'.fs
          · exact hx'.fs
        exact ⟨hfs _, fun h => absurd (hfs _) h⟩
      · rintro ⟨s', d', file', dir', hb', -, -, -, hlk'⟩
        obtain ⟨-, -, rfl, rfl⟩ := hb.unique hb'
        exact hlk hlk'
  · refine iff_of_true (Refused.rofs hx.fs hx.status) ?_
    rintro ⟨s', d', file', dir', hb', -, hd', -⟩
    obtain ⟨-, rfl, -, -⟩ := hb.unique hb'
    simp [live, hd'] at hd
  · have hfs : ∀ isLive, (c.opLink isLive m).2.fs = c.fs := by
      intro isLive
      rcases @opLink_cases c isLive m with
        ⟨s', d', file', dir', hb', ht', -⟩ | ⟨s', d', file', dir', hb', ht', -⟩ | ⟨-, hx' | hx'⟩
      · exact absurd ht' (hno _ _ _ _ hb')
      · exact absurd ht' (hno _ _ _ _ hb')
      · exact hx'.fs
      · exact hx'.fs
    refine iff_of_true ⟨hfs _, fun h => absurd (hfs _) h⟩ ?_
    rintro ⟨s', d', file', dir', hb', -, -, ht', -⟩
    exact hno _ _ _ _ hb' ht'

/-- An operation with a handle of a snapshot is kept from the store unless it is a LINK that the store takes. -/
theorem runOp_refused_iff {h : Host} {hash : Bytes → UInt64} {o : Op4} (hs : ∃ n ∈ c.handles m o, n.snap ≠ LATEST) :
    c.Refused (c.runOp live hash pos m h o) (c.runOp (fun _ => true) hash pos m h o) ↔ ¬ LinksSnapshot c m o := by
  by_cases hlink : o = .link
  · subst hlink
    simp only [runOp]
    exact opLink_refused_iff hs
  · refine iff_of_true ?_ (fun hl => hlink hl.1)
    cases hw : writesStore o with
    | false => exact ⟨runOp_fs_of_reads hw, fun hne => absurd (runOp_fs_of_reads hw) hne⟩
    | true =>
      by_cases hren : o = .rename
      · subst hren
        simp only [runOp]
        exact opRename_refused hs
      · have hl : c.liveCfh live = false := by
          obtain ⟨n, hn, hne⟩ := hs
          refine liveCfh_false (n := n) ?_ hne
          cases o <;> first | exact absurd rfl hlink | exact absurd rfl hren | simp [writesStore] at hw
          all_goals simpa [handles] using hn
        cases o with
        | write =>
          simp only [runOp]
          exact opWrite_refused hl
        | setattr =>
          simp only [runOp]
          exact opSetattr_refused hl
        | create =>
          simp only [runOp]
          exact opCreate_refused hl
        | remove =>
          simp only [runOp]
          exact opRemove_refused hl
        | openFile =>
          simp only [runOp]
          exact opOpen_refused hl
        | rename => exact absurd rfl hren
        | link => exact absurd rfl hlink
        | _ => simp [writesStore] at hw

end Writes

end Call4

end NfsV4

end Prfs
