import Prfs.Nfs4Trace

namespace Prfs

namespace NfsV4

namespace Call4

section Exits

variable (c : Call4) (st : Nfsstat4) (body : Writer → Writer)

@[simp] theorem exit_fst : (c.exit st).1 = st := rfl

@[simp] theorem exitWith_fst : (c.exitWith st body).1 = st := rfl

@[simp] theorem exitReply_fst (x : Reply4 × NfsV4) : (c.exitReply x).1 = x.1.status := rfl

@[simp] theorem exit_r : (c.exit st).2.r = c.r := rfl

@[simp] theorem exitWith_r : (c.exitWith st body).2.r = c.r := rfl

@[simp] theorem exitReply_r (x : Reply4 × NfsV4) : (c.exitReply x).2.r = c.r := rfl

@[simp] theorem exit_fs : (c.exit st).2.fs = c.fs := rfl

@[simp] theorem exitWith_fs : (c.exitWith st body).2.fs = c.fs := rfl

@[simp] theorem exitReply_fs (x : Reply4 × NfsV4) : (c.exitReply x).2.fs = c.fs := rfl

@[simp] theorem exit_v : (c.exit st).2.v = c.v := rfl

@[simp] theorem exitWith_v : (c.exitWith st body).2.v = c.v := rfl

@[simp] theorem exitReply_v (x : Reply4 × NfsV4) : (c.exitReply x).2.v = x.2 := rfl

end Exits

variable {c : Call4} {isLive : UInt64 → Bool} {pos : WalkOrder} {m : Msg}

theorem openState_r {access deny : UInt32} {clientid : UInt64} {owner : Bytes} {dir : Node} {before : UInt64}
    {created : Bool} {child : Node} :
    (c.openState pos access deny clientid owner dir before created child).2.r = c.r := by
  unfold openState
  dsimp only
  split <;> rfl

theorem openName_r {access deny : UInt32} {clientid : UInt64} {owner : Bytes} {how : OpenHow} {dir : Node}
    {name : Bytes} : (c.openName pos m access deny clientid owner how dir name).2.r = c.r := by
  unfold openName
  dsimp only
  split
  · split
    · rfl
    · split
      · exact openState_r
      · rfl
  · split
    · rfl
    · exact openState_r

/-- The saved handle stands for one node and the current handle for another. -/
structure Both (c : Call4) (s d ns nd : Node) : Prop where
  sfh : c.sfh = some s
  cfh : c.cfh = some d
  saved : c.fs.nodeById s.id s.snap = some ns
  current : c.fs.nodeById d.id d.snap = some nd

theorem Both.unique {s d ns nd s' d' ns' nd' : Node} (h : c.Both s d ns nd) (h' : c.Both s' d' ns' nd') :
    s = s' ∧ d = d' ∧ ns = ns' ∧ nd = nd' := by
  obtain rfl : s = s' := Option.some.inj (h.sfh.symm.trans h'.sfh)
  obtain rfl : d = d' := Option.some.inj (h.cfh.symm.trans h'.cfh)
  exact ⟨rfl, rfl, Option.some.inj (h.saved.symm.trans h'.saved), Option.some.inj (h.current.symm.trans h'.current)⟩

/-- What is written so far has no part in it. -/
theorem both_w {w : Writer} {s d ns nd : Node} : { c with w }.Both s d ns nd ↔ c.Both s d ns nd :=
  ⟨fun h => ⟨h.sfh, h.cfh, h.saved, h.current⟩, fun h => ⟨h.sfh, h.cfh, h.saved, h.current⟩⟩

/-- What an operation that only writes the store leaves. -/
structure Leaves (c : Call4) (x : Out4) (st : Nfsstat4) (fs : PrfsStore) : Prop where
  status : x.1 = st
  fs : x.2.fs = fs
  v : x.2.v = c.v

theorem Leaves.exit {c' : Call4} {st : Nfsstat4} {fs : PrfsStore} (hfs : c'.fs = fs) (hv : c'.v = c.v) :
    c.Leaves (c'.exit st) st fs := ⟨rfl, hfs, hv⟩

/-- A stateid is refused as bad, or for the access of its open. -/
theorem refuses_cases {v : NfsV4} {sid : Stateid} {fileId : UInt64} {bit : UInt32} {st : Nfsstat4}
    (h : refuses v sid fileId bit = some st) : st = .badStateid ∨ st = .openmode := by
  unfold refuses checkStateid at h
  split at h
  · next e he =>
    obtain rfl := Option.some.inj h
    left
    split_ifs at he
    · split at he
      · simpa using he.symm
      · split_ifs at he
        simpa using he.symm
    · split at he
      · simpa using he.symm
      · split_ifs at he
        simpa using he.symm
  · split_ifs at h
    exact Or.inr (Option.some.inj h).symm

theorem refuses_ne_inval {v : NfsV4} {sid : Stateid} {fileId : UInt64} {bit : UInt32} :
    refuses v sid fileId bit ≠ some .inval := by
  intro h
  rcases refuses_cases h with h | h <;> cases h

/-- An outcome other than INVAL that leaves the store and the tables as they are. -/
structure Quiet (c : Call4) (x : Out4) : Prop where
  status : x.1 ≠ .inval
  fs : x.2.fs = c.fs
  v : x.2.v = c.v

/-- The operations that only look, whatever bytes they are given. -/
def looks : Op4 → Bool
  | .access | .commit | .getattr | .getfh | .lookup | .lookupp | .putfh | .putpubfh | .putrootfh | .read | .readdir
  | .restorefh | .savefh => true
  | _ => false

section Looks

variable {h : Host} {hash : Bytes → UInt64}

theorem lookupIn_quiet {step : Node → Option Node} : c.Quiet (c.lookupIn step) := by
  unfold lookupIn enter
  split
  · exact ⟨by simp, by simp, by simp⟩
  · split
    · exact ⟨by simp, by simp, by simp⟩
    · split <;> exact ⟨by simp, by simp, by simp⟩

theorem opRead_quiet : c.Quiet (c.opRead h m) := by
  unfold opRead
  dsimp only
  split
  · exact ⟨by simp, by simp, by simp⟩
  · split
    · exact ⟨by simp, by simp, by simp⟩
    · split
      · next st hst =>
        refine ⟨?_, by simp, by simp⟩
        rintro rfl
        exact refuses_ne_inval hst
      · exact ⟨by simp, by simp, by simp⟩

theorem opReaddir_quiet : c.Quiet (c.opReaddir m) := by
  unfold opReaddir listFrom
  dsimp only
  split
  · exact ⟨by simp, by simp, by simp⟩
  · split
    · exact ⟨by simp, by simp, by simp⟩
    · split
      · exact ⟨by simp, by simp, by simp⟩
      · split <;> exact ⟨by simp, by simp, by simp⟩

theorem runOp_quiet {o : Op4} (ho : looks o = true) : c.Quiet (c.runOp isLive hash pos m h o) := by
  cases o with
  | read =>
    simp only [runOp]
    exact opRead_quiet
  | readdir =>
    simp only [runOp]
    exact opReaddir_quiet
  | lookup | lookupp =>
    simp only [runOp, opLookup, opLookupp]
    exact ⟨lookupIn_quiet.status, lookupIn_quiet.fs, lookupIn_quiet.v⟩
  | commit | putrootfh | putpubfh =>
    simp only [runOp, opCommit, opPutrootfh]
    exact ⟨by simp, by simp, by simp⟩
  | access | getattr | getfh | putfh | restorefh | savefh =>
    simp only [runOp, opPutfh, opSavefh, opRestorefh, opGetfh, opAccess, opGetattr]
    split <;> exact ⟨by simp, by simp, by simp⟩
  | _ => simp [looks] at ho

end Looks

theorem opSetClientid_cut {hash : Bytes → UInt64} (hcut : (c.opSetClientid hash pos m).2.r.ok = false) :
    c.Leaves (c.opSetClientid hash pos m) .inval c.fs := by
  unfold opSetClientid at hcut ⊢
  dsimp only at hcut ⊢
  split at hcut
  · next hr =>
    rw [if_pos hr]
    exact .exit (by rfl) (by rfl)
  · next hr =>
    rw [exitReply_r] at hcut
    dsimp only at hcut
    simp [hcut] at hr

/-- A SETATTR of a live node is what `applyFattr4` makes of it; any other changes nothing. -/
theorem opSetattr_cases :
    (∃ n, c.cur = some n ∧ c.liveCfh isLive = true ∧
      let x := applyFattr4 m (c.r.skip m 16) n c.fs
      c.Leaves (c.opSetattr isLive m) x.1 (if x.1 = .ok then x.2.2.setAttr n (.ctime x.2.2.now) else x.2.2) ∧
        (c.opSetattr isLive m).2.r = x.2.1) ∨
    ((∀ n, c.cur = some n → c.liveCfh isLive = false) ∧ c.Quiet (c.opSetattr isLive m)) := by
  have hcur : { c with r := c.r.skip m 16 }.cur = c.cur := rfl
  have hlive : { c with r := c.r.skip m 16 }.liveCfh isLive = c.liveCfh isLive := rfl
  unfold opSetattr
  dsimp only
  rw [hcur, hlive]
  cases hn : c.cur with
  | none => exact .inr ⟨by simp, by simp, by simp, by simp⟩
  | some n =>
    cases hl : c.liveCfh isLive with
    | false => exact .inr ⟨by simp, by simp, by simp, by simp⟩
    | true => exact .inl ⟨n, rfl, rfl, ⟨by simp, by simp, by simp⟩, by simp⟩

theorem opRename_cases :
    (∃ s d sdir ddir, c.Both s d sdir ddir ∧ isLive s.snap = true ∧ isLive d.snap = true ∧
      let mv := c.fs.move sdir (c.r.str m).1 ddir ((c.r.str m).2.str m).1
      c.Leaves (c.opRename isLive m) (toNfs4 mv.1)
        (if mv.1 = .OK then touchDir (touchDir mv.2 sdir) ddir else mv.2)) ∨
    (∃ s d sdir ddir, c.Both s d sdir ddir ∧ (isLive s.snap = false ∨ isLive d.snap = false) ∧
      c.Leaves (c.opRename isLive m) .rofs c.fs) ∨
    ((∀ s d sdir ddir, ¬ c.Both s d sdir ddir) ∧
      (c.Leaves (c.opRename isLive m) .stale c.fs ∨ c.Leaves (c.opRename isLive m) .nofilehandle c.fs)) := by
  unfold opRename
  dsimp only
  split
  · next s d hs hd =>
    split
    · next sdir ddir hsn hdn =>
      have hb : c.Both s d sdir ddir := ⟨hs, hd, hsn, hdn⟩
      split
      · next hl => exact .inr (.inl ⟨s, d, sdir, ddir, hb, by simpa using hl, .exit rfl rfl⟩)
      · next hl =>
        simp only [Bool.or_eq_true, Bool.not_eq_true', not_or, Bool.not_eq_false] at hl
        refine .inl ⟨s, d, sdir, ddir, hb, hl.1, hl.2, ?_⟩
        split
        · next fs he => exact ⟨by simp [he, toNfs4], by simp [he], rfl⟩
        · next e fs hne he => exact ⟨by simp [he], by rw [he]; simp [show e ≠ .OK by simpa using hne], rfl⟩
    · next hno =>
      refine .inr (.inr ⟨fun s' d' sdir ddir hb => ?_, .inl (.exit rfl rfl)⟩)
      obtain ⟨hs', hd', hsn, hdn⟩ := hb
      rw [hs] at hs'
      rw [hd] at hd'
      cases hs'
      cases hd'
      exact hno _ _ hsn hdn
  · next hno =>
    exact .inr (.inr ⟨fun s' d' sdir ddir hb => hno _ _ hb.sfh hb.cfh, .inr (.exit rfl rfl)⟩)

theorem opLink_cases :
    (∃ s d file dir, c.Both s d file dir ∧ (c.fs.attrs dir).type = .DIR ∧ isLive d.snap = true ∧
      let ln := c.fs.link dir (c.r.str m).1 file
      c.Leaves (c.opLink isLive m) (toNfs4 ln.1) (if ln.1 = .OK then touchDir ln.2 dir else ln.2)) ∨
    (∃ s d file dir, c.Both s d file dir ∧ (c.fs.attrs dir).type = .DIR ∧ isLive d.snap = false ∧
      c.Leaves (c.opLink isLive m) .rofs c.fs) ∨
    ((∀ s d file dir, c.Both s d file dir → (c.fs.attrs dir).type ≠ .DIR) ∧
      (c.Leaves (c.opLink isLive m) .notdir c.fs ∨ c.Leaves (c.opLink isLive m) .nofilehandle c.fs)) := by
  unfold opLink
  dsimp only
  split
  · next s d hs hd =>
    split
    · next file dir hsn hdn =>
      have hb : c.Both s d file dir := ⟨hs, hd, hsn, hdn⟩
      split
      · next ht =>
        refine .inr (.inr ⟨fun s' d' file' dir' hb' => ?_, .inl (.exit rfl rfl)⟩)
        rwa [(hb.unique hb').2.2.2] at ht
      · next ht =>
        rw [not_not] at ht
        split
        · next hl => exact .inr (.inl ⟨s, d, file, dir, hb, ht, by simpa using hl, .exit rfl rfl⟩)
        · next hl =>
          refine .inl ⟨s, d, file, dir, hb, ht, by simpa using hl, ?_⟩
          split
          · next fs he => exact ⟨by simp [he, toNfs4], by simp [he], rfl⟩
          · next e fs hne he => exact ⟨by simp [he], by rw [he]; simp [show e ≠ .OK by simpa using hne], rfl⟩
    · next hno =>
      refine .inr (.inr ⟨fun s' d' file dir hb => ?_, .inl (.exit rfl rfl)⟩)
      obtain ⟨hs', hd', hsn, hdn⟩ := hb
      rw [hs] at hs'
      rw [hd] at hd'
      cases hs'
      cases hd'
      exact absurd hdn (hno _ _ hsn)
  · next hno =>
    exact .inr (.inr ⟨fun s' d' file dir hb => absurd hb.cfh (hno _ _ hb.sfh), .inr (.exit rfl rfl)⟩)

end Call4

end NfsV4

end Prfs
