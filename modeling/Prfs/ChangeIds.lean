import Prfs.StoreStamps
import Prfs.XdrBytes

namespace Prfs

namespace NfsV4

/-- The CREATE makes a node of one type or another. -/
theorem createNode_alloc {fs : PrfsStore} {type : UInt32} {linkdata : Bytes} {maj min : UInt32} {x : Node × PrfsStore}
    (h : createNode fs type linkdata maj min = some x) : ∃ t blob spec, x = fs.alloc t blob spec := by
  unfold createNode at h
  split at h <;> first
    | exact ⟨_, _, _, (Option.some.inj h).symm⟩
    | cases h

namespace Call4

variable {c : Call4} {m : Msg} {n dir : Node} {pos : WalkOrder}

theorem cur_nodeById (hn : c.cur = some n) : c.fs.nodeById n.id n.snap = some n := by
  obtain ⟨x, -, hx⟩ := Option.bind_eq_some_iff.mp hn
  have hid := PrfsStore.nodeById_eq hx
  rw [hid] at hx ⊢
  exact hx

theorem opWrite_ok (hn : c.cur = some n) (hok : (c.opWrite live m).1 = .ok) :
    n.snap = LATEST ∧ isSnapDir n.id = false ∧ ∃ off data, (c.opWrite live m).2.fs = writeData c.fs n off data := by
  unfold opWrite at hok ⊢
  dsimp only at hok ⊢
  rw [cur_r, liveCfh_r, hn] at hok ⊢
  dsimp only at hok ⊢
  split at hok
  · cases hok
  split at hok
  · cases hok
  next hlive ht =>
  rw [if_neg hlive, if_neg ht]
  refine ⟨cur_live hn (by simpa using hlive), isSnapDir_of_type ht, ?_⟩
  split at hok
  · next st hst =>
    rw [exit_fst] at hok
    rw [hok] at hst
    rcases refuses_cases hst with h | h <;> cases h
  · rw [exitWith_fs]
    dsimp only
    exact ⟨_, _, rfl⟩

/-- A CREATE that succeeds links a new node and stamps the directory last. -/
theorem opCreate_ok (hn : c.cur = some dir) (hok : (c.opCreate live m).1 = .ok) :
    dir.snap = LATEST ∧ ∃ t blob spec name as, let new := c.fs.alloc t blob spec
      (new.2.link dir name new.1).1 = .OK ∧
        (c.opCreate live m).2.fs = touchDir ((new.2.link dir name new.1).2.setAttrs new.1 as) dir := by
  unfold opCreate at hok ⊢
  dsimp only at hok ⊢
  rw [cur_r, liveCfh_r, hn] at hok ⊢
  dsimp only at hok ⊢
  by_cases ht : (c.fs.attrs dir).type ≠ .DIR
  · rw [if_pos ht] at hok
    cases hok
  rw [if_neg ht] at hok ⊢
  by_cases hlive : (!c.liveCfh live) = true
  · rw [if_pos hlive] at hok
    cases hok
  rw [if_neg hlive] at hok ⊢
  refine ⟨cur_live hn (by simpa using hlive), ?_⟩
  generalize hmade : createNode c.fs (readCreate m c.r).1.1 (readCreate m c.r).1.2.1 (readCreate m c.r).1.2.2.1
      (readCreate m c.r).1.2.2.2.1 = made at hok ⊢
  cases made with
  | none => cases hok
  | some x =>
    obtain ⟨t, blob, spec, rfl⟩ := createNode_alloc hmade
    refine ⟨t, blob, spec, (readCreate m c.r).1.2.2.2.2, ?_⟩
    dsimp only at hok ⊢
    split at hok
    · next fs' hlink =>
      rw [hlink, exitWith_fs]
      dsimp only
      rw [applyFattr4_setAttrs]
      exact ⟨_, rfl, rfl⟩
    · cases hok

/-- The name that an OPEN opens in the directory that is the current filehandle. -/
def openedName (m : Msg) (r : Reader) : Bytes :=
  let (_, r) := openOwner m r
  let (_, r) := readOpenHow m r
  let (_, r) := r.u32 m
  (r.str m).1

/-- An OPEN that succeeds has found its directory and goes on to the name. -/
theorem opOpen_named (hn : c.cur = some dir) (hok : (c.opOpen live pos m).1 = .ok) :
    ∃ r access deny clientid owner how, (how.opentype = OPEN4_CREATE → dir.snap = LATEST) ∧
      c.opOpen live pos m = { c with r }.openName pos m access deny clientid owner how dir (openedName m c.r) := by
  unfold opOpen at hok ⊢
  dsimp only [openedName, openOwner] at hok ⊢
  split at hok
  · cases hok.symm.trans (exit_fst _ _)
  split at hok
  · cases hok.symm.trans (exit_fst _ _)
  split at hok
  · cases hok.symm.trans (exit_fst _ _)
  next hconf hclaim hr =>
  rw [if_neg hconf, if_neg hclaim, if_neg hr]
  rw [cur_r, liveCfh_r, hn] at hok ⊢
  dsimp only at hok ⊢
  split at hok
  · cases hok.symm.trans (exit_fst _ _)
  split at hok
  · cases hok.symm.trans (exit_fst _ _)
  next ht hlive =>
  rw [if_neg ht, if_neg hlive]
  refine ⟨_, _, _, _, _, _, fun hcreate => ?_, rfl⟩
  have hl : c.liveCfh live = true := by simpa [hcreate] using hlive
  exact cur_live hn hl

/-- So does an OPEN of a name that is not there. -/
theorem opOpen_ok (hn : c.cur = some dir) (hnew : c.fs.lookup dir (openedName m c.r) = none)
    (hok : (c.opOpen live pos m).1 = .ok) :
    dir.snap = LATEST ∧ ∃ t blob spec name as, let new := c.fs.alloc t blob spec
      (new.2.link dir name new.1).1 = .OK ∧
        (c.opOpen live pos m).2.fs = touchDir ((new.2.link dir name new.1).2.setAttrs new.1 as) dir := by
  obtain ⟨r, access, deny, clientid, owner, how, hl, hrun⟩ := opOpen_named hn hok
  rw [hrun] at hok ⊢
  unfold openName at hok ⊢
  dsimp only at hok ⊢
  rw [hnew] at hok ⊢
  dsimp only at hok ⊢
  split at hok
  · cases hok.symm.trans (exit_fst _ _)
  next hcreate =>
  rw [if_neg hcreate]
  refine ⟨hl (not_not.mp hcreate), .REG, [], 0, openedName m c.r, ?_⟩
  split at hok
  · next fs' hlink =>
    have hmade : c.fs.alloc .REG [] 0 = c.fs.mkfile [] := rfl
    rw [hmade, hlink]
    dsimp only
    rw [openState_fs]
    dsimp only
    split
    · rw [applyFattr4_setAttrs]
      exact ⟨_, rfl, rfl⟩
    · exact ⟨[], rfl, rfl⟩
  · cases hok.symm.trans (exit_fst _ _)

/-- The objects that an operation modifies; of those that OPEN opens, the directory of a name that it makes. -/
def Modifies (c : Call4) (m : Msg) (n : Node) : Op4 → Prop
  | .write | .setattr | .create | .remove => c.cur = some n
  | .openFile => c.cur = some n ∧ c.fs.lookup n (openedName m c.r) = none
  | .link => ∃ s d file, c.Both s d file n
  | .rename => ∃ s d sdir ddir, c.Both s d sdir ddir ∧ (n = sdir ∨ n = ddir)
  | _ => False

/-- The object has the time of the clock in what the operation leaves. -/
structure Stamps (c : Call4) (x : Out4) (n : Node) : Prop where
  stamped : x.2.fs.Stamped n
  now : x.2.fs.now = c.fs.now
  latest : n.snap = LATEST
  real : isSnapDir n.id = false

theorem opCreate_stamps (hs : c.fs.Sound) (hn : c.cur = some dir) (hok : (c.opCreate live m).1 = .ok) :
    c.Stamps (c.opCreate live m) dir := by
  obtain ⟨hl, t, blob, spec, name, as, hlink, hfs⟩ := opCreate_ok hn hok
  obtain ⟨hst, hnow, hd⟩ := hs.stamped_of_made (cur_nodeById hn) hl hlink as
  exact ⟨by rw [hfs]; exact hst, by rw [hfs]; exact hnow, hl, hd⟩

theorem opOpen_stamps (hs : c.fs.Sound) (hn : c.cur = some dir) (hnew : c.fs.lookup dir (openedName m c.r) = none)
    (hok : (c.opOpen live pos m).1 = .ok) : c.Stamps (c.opOpen live pos m) dir := by
  obtain ⟨hl, t, blob, spec, name, as, hlink, hfs⟩ := opOpen_ok hn hnew hok
  obtain ⟨hst, hnow, hd⟩ := hs.stamped_of_made (cur_nodeById hn) hl hlink as
  exact ⟨by rw [hfs]; exact hst, by rw [hfs]; exact hnow, hl, hd⟩

theorem real_of_load (hs : c.fs.Sound) (hr : ∃ r, loadNode c.fs.kv n.id c.fs.cur = some r) : isSnapDir n.id = false := by
  by_contra hd
  rw [hs.loadNode_snapDir (by simpa using hd)] at hr
  simp at hr

theorem opRemove_stamps (hs : c.fs.Sound) (hn : c.cur = some dir) (hok : (c.opRemove live m).1 = .ok) :
    c.Stamps (c.opRemove live m) dir := by
  obtain ⟨hl, hun, -, hfs⟩ := opRemove_ok hn hok
  obtain ⟨hbefore, r, hr⟩ := PrfsStore.load_of_unlink hun
  refine ⟨?_, ?_, hl, real_of_load hs hbefore⟩
  · rw [hfs]
    exact PrfsStore.stamped_touchDir hr
  · rw [hfs, PrfsStore.touchDir_now]
    rfl

theorem toNfs4_ok {e : Error} (h : toNfs4 e = .ok) : e = .OK := by
  cases e <;> first | rfl | cases h

theorem opLink_stamps (hs : c.fs.Sound) (hn : ∃ s d file, c.Both s d file n) (hok : (c.opLink live m).1 = .ok) :
    c.Stamps (c.opLink live m) n := by
  obtain ⟨s, d, file, hb⟩ := hn
  rcases @opLink_cases c live m with ⟨s', d', file', dir', hb', -, hl, hx⟩ | ⟨_, _, _, _, -, -, -, hx⟩ | ⟨-, hx | hx⟩
  · obtain ⟨-, rfl, -, rfl⟩ := hb.unique hb'
    have hlink := toNfs4_ok (hx.status.symm.trans hok)
    have hfs := hx.fs
    rw [if_pos hlink] at hfs
    obtain ⟨hbefore, r, hr⟩ := PrfsStore.load_of_link hlink
    refine ⟨?_, ?_, ?_, real_of_load hs hbefore⟩
    · rw [hfs]
      exact PrfsStore.stamped_touchDir hr
    · rw [hfs, PrfsStore.touchDir_now]
      rfl
    · rw [PrfsStore.nodeById_eq hb.current]
      simpa [live] using hl
  · cases hx.status.symm.trans hok
  · cases hx.status.symm.trans hok
  · cases hx.status.symm.trans hok

theorem opRename_stamps (hs : c.fs.Sound) (hn : ∃ s d sdir ddir, c.Both s d sdir ddir ∧ (n = sdir ∨ n = ddir))
    (hok : (c.opRename live m).1 = .ok) : c.Stamps (c.opRename live m) n := by
  obtain ⟨s, d, sdir, ddir, hb, hor⟩ := hn
  rcases @opRename_cases c live m with ⟨s', d', sdir', ddir', hb', hls, hld, hx⟩ | ⟨_, _, _, _, -, -, hx⟩ | ⟨-, hx | hx⟩
  · obtain ⟨rfl, rfl, rfl, rfl⟩ := hb.unique hb'
    have hmove := toNfs4_ok (hx.status.symm.trans hok)
    have hfs := hx.fs
    rw [if_pos hmove] at hfs
    have hid : n.id = sdir.id ∨ n.id = ddir.id := hor.imp (congrArg Node.id) (congrArg Node.id)
    have hload := fun {i} => @PrfsStore.load_of_move _ _ _ hs _ _ hmove i
    refine ⟨?_, ?_, ?_, real_of_load hs (hload hid).1⟩
    · rw [hfs]
      rcases hor with rfl | rfl
      · obtain ⟨-, r, hr⟩ := hload (.inl rfl)
        exact (PrfsStore.stamped_touchDir hr).touchDir _
      · obtain ⟨r, hr⟩ := @PrfsStore.load_touchDir _ sdir _ (hload (.inr rfl)).2
        exact PrfsStore.stamped_touchDir hr
    · rw [hfs, PrfsStore.touchDir_now, PrfsStore.touchDir_now, PrfsStore.move_now]
    · rcases hor with rfl | rfl
      · rw [PrfsStore.nodeById_eq hb.saved]
        simpa [live] using hls
      · rw [PrfsStore.nodeById_eq hb.current]
        simpa [live] using hld
  · cases hx.status.symm.trans hok
  · cases hx.status.symm.trans hok
  · cases hx.status.symm.trans hok

/-- A SETATTR stamps its object, unless that is a snapshot directory, which has nothing to stamp. -/
theorem opSetattr_stamps (hn : c.cur = some n) (hok : (c.opSetattr live m).1 = .ok) :
    (isSnapDir n.id = false → c.Stamps (c.opSetattr live m) n) ∧
      (c.fs.Sound → isSnapDir n.id = true → (c.opSetattr live m).2.fs = c.fs) := by
  rcases @opSetattr_cases c live m with ⟨n', hn', hl, hx, -⟩ | ⟨hno, hx⟩
  · obtain rfl : n = n' := Option.some.inj (hn.symm.trans hn')
    have hfs := hx.fs
    rw [if_pos (hx.status.symm.trans hok), applyFattr4_setAttrs] at hfs
    constructor
    · intro hd
      have hlatest := cur_live hn hl
      have hload := @PrfsStore.load_setAttrs c.fs n n (fattr4Setters m c.fs.now (c.r.skip m 16))
        (PrfsStore.load_of_nodeById (cur_nodeById hn) hlatest hd)
      refine ⟨?_, ?_, hlatest, hd⟩
      · rw [hfs]
        exact PrfsStore.stamped_setAttr hload
      · rw [hfs, PrfsStore.setAttr_now, setAttrs_now]
    · intro hs hd
      have hnone := hs.loadNode_snapDir hd
      rw [PrfsStore.setAttrs_of_none hnone, PrfsStore.setAttr_of_none hnone] at hfs
      exact hfs
  · exfalso
    unfold opSetattr at hok
    dsimp only at hok
    rw [cur_r, liveCfh_r, hn, hno n hn] at hok
    cases hok

/-- The value of the change attribute, as it is encoded. -/
def changeId (fs : PrfsStore) (n : Node) : UInt64 := rdbe (encodeAttrValue fs {} n n.id n.snap .change).v

theorem changeId_eq (fs : PrfsStore) (n : Node) : changeId fs n = (fs.attrs n).ctime := by
  rw [changeId, encodeAttrValue, Writer.u64_eq]
  exact rdbe_be _

theorem Stamps.changeId {x : Out4} (h : c.Stamps x n) : changeId x.2.fs n = c.fs.now := by
  rw [changeId_eq, h.stamped.ctime h.latest h.real, h.now]

theorem opWrite_changeId (hn : c.cur = some n) (hok : (c.opWrite live m).1 = .ok) :
    changeId (c.opWrite live m).2.fs n = changeId c.fs n := by
  obtain ⟨hl, hd, off, data, hfs⟩ := opWrite_ok hn hok
  obtain ⟨r, hr⟩ := PrfsStore.load_of_nodeById (cur_nodeById hn) hl hd
  have hkeep : (c.fs.written n off data r).ctime = r.ctime := by
    unfold PrfsStore.written
    dsimp only
    split_ifs <;> rfl
  rw [changeId_eq, changeId_eq, hfs, PrfsStore.writeData_of_some hr hl hd, PrfsStore.attrs_ctime hr hl hd,
    PrfsStore.attrs_ctime PrfsStore.loadNode_withNode hl hd, hkeep]

/-- At a time after the change attribute of the object, an operation that succeeds moves the attribute to that time exactly when
it is no WRITE, and no SETATTR of a snapshot directory. -/
theorem change_tracks_iff (hs : PrfsStore.Run .empty c.fs) {h : Host} {hash : Bytes → UInt64} {o : Op4}
    (hn : c.Modifies m n o) (hok : (c.runOp live hash pos m h o).1 = .ok) (hlt : changeId c.fs n < c.fs.now) :
    (changeId (c.runOp live hash pos m h o).2.fs n = c.fs.now ∧
      changeId (c.runOp live hash pos m h o).2.fs n ≠ changeId c.fs n) ↔ o ≠ .write ∧ isSnapDir n.id = false := by
  have hmoved : ∀ {x : Out4}, c.Stamps x n → (changeId x.2.fs n = c.fs.now ∧ changeId x.2.fs n ≠ changeId c.fs n) := by
    intro x hx
    rw [hx.changeId]
    exact ⟨rfl, ne_of_gt hlt⟩
  cases o with
  | write =>
    rw [runOp] at hok ⊢
    exact iff_of_false (fun hx => hx.2 (opWrite_changeId hn hok)) (fun hx => hx.1 rfl)
  | setattr =>
    rw [runOp] at hok ⊢
    obtain ⟨hreal, hsnap⟩ := opSetattr_stamps hn hok
    cases hd : isSnapDir n.id with
    | false => exact iff_of_true (hmoved (hreal hd)) ⟨by simp, rfl⟩
    | true =>
      refine iff_of_false (fun hx => hx.2 ?_) (by simp)
      rw [hsnap hs.sound hd]
  | create =>
    rw [runOp] at hok ⊢
    have hx := opCreate_stamps hs.sound hn hok
    exact iff_of_true (hmoved hx) ⟨by simp, hx.real⟩
  | remove =>
    rw [runOp] at hok ⊢
    have hx := opRemove_stamps hs.sound hn hok
    exact iff_of_true (hmoved hx) ⟨by simp, hx.real⟩
  | openFile =>
    rw [runOp] at hok ⊢
    have hx := opOpen_stamps hs.sound hn.1 hn.2 hok
    exact iff_of_true (hmoved hx) ⟨by simp, hx.real⟩
  | link =>
    rw [runOp] at hok ⊢
    have hx := opLink_stamps hs.sound hn hok
    exact iff_of_true (hmoved hx) ⟨by simp, hx.real⟩
  | rename =>
    rw [runOp] at hok ⊢
    have hx := opRename_stamps hs.sound hn hok
    exact iff_of_true (hmoved hx) ⟨by simp, hx.real⟩
  | _ => exact absurd hn id

/-- A store with one file, at a later time. -/
def laterFile : PrfsStore := PrfsStore.empty.after [.mkfile [], .setTime 5]

/-- The arguments of a SETATTR of nothing. -/
def setNothing : Msg := ⟨List.replicate 24 0, fun _ => 0, by decide⟩

def atLaterFile : Call4 := { v := {}, fs := laterFile, cfh := some ⟨2, LATEST⟩ }

/-- The file has the time of the clock after a SETATTR of nothing. -/
theorem change_tracks_iff_setattr :
    changeId (atLaterFile.runOp live (fun _ => 0) (fun _ => 0) setNothing {} .setattr).2.fs ⟨2, LATEST⟩ = 5 := by
  have hrun : PrfsStore.Run .empty atLaterFile.fs := PrfsStore.run_after (by decide)
  have hn : atLaterFile.Modifies setNothing ⟨2, LATEST⟩ .setattr := by
    show atLaterFile.cur = some ⟨2, LATEST⟩
    decide
  have hok : (atLaterFile.runOp live (fun _ => 0) (fun _ => 0) setNothing {} .setattr).1 = .ok := by decide
  have hlt : changeId atLaterFile.fs ⟨2, LATEST⟩ < atLaterFile.fs.now := by decide
  have hnow : atLaterFile.fs.now = 5 := by decide
  rw [← hnow]
  exact ((change_tracks_iff hrun hn hok hlt).mpr ⟨by decide, by decide⟩).1

/-- The arguments of a WRITE of one byte under a special stateid. -/
def writeByte : Msg := ⟨((((((({} : Writer).u32 0).u64 0).u32 0).u64 0).u32 0).str [104]).v, fun _ => 0, by decide⟩

/-- A WRITE at that time leaves the change attribute as it was. -/
theorem write_keeps_change : PrfsStore.Run .empty laterFile ∧ laterFile.now = 5 ∧ changeId laterFile ⟨2, LATEST⟩ = 0 ∧
    let x := atLaterFile.opWrite live writeByte
    x.1 = .ok ∧ (x.2.fs.attrs ⟨2, LATEST⟩).size = 1 ∧ changeId x.2.fs ⟨2, LATEST⟩ = 0 := by
  exact ⟨PrfsStore.run_after (by decide), by decide, by decide, by decide, by decide, by decide⟩

end Call4

end NfsV4

end Prfs
