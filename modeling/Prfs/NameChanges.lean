import Prfs.FailedOps
import Prfs.FileCopies
import Prfs.Nfs3Snapshots
import Prfs.PathWalks

namespace Prfs

/-- A change of the names in directories, as a client of either version asks for it. -/
inductive NameChange
  | rename (sdir : Node) (oldname : Bytes) (ddir : Node) (newname : Bytes)
  | link (file dir : Node) (newname : Bytes)
  | remove (dir : Node) (name : Bytes)

namespace NameChange

/-- Where the store makes the change, its directories get the time of it. -/
def settled (dirs : List Node) (x : Error × PrfsStore) : Option Error × PrfsStore :=
  (some x.1, if x.1 = .OK then dirs.foldl touchDir x.2 else x.2)

/-- What a change comes to: the store's answer, none where it falls on a sealed view, and the store after it. -/
def apply (s : PrfsStore) : NameChange → Option Error × PrfsStore
  | .rename sdir oldname ddir newname =>
    if live sdir.snap && live ddir.snap then settled [sdir, ddir] (s.move sdir oldname ddir newname) else (none, s)
  | .link file dir newname => if live dir.snap then settled [dir] (s.link dir newname file) else (none, s)
  | .remove dir name =>
    if (s.attrs dir).type ≠ .DIR then (some .NOTDIR, s)
    else if !live dir.snap then (none, s)
    else if (s.lookup dir name).any (fun victim =>
        (s.attrs victim).type = .DIR && !(s.readdir victim).isEmpty) then (some .NOTEMPTY, s)
    else settled [dir] (s.unlink dir name)

def handles : NameChange → List Node
  | .rename sdir _ ddir _ => [sdir, ddir]
  | .link file dir _ => [file, dir]
  | .remove dir _ => [dir]

def names : NameChange → List Bytes
  | .rename _ oldname _ newname => [oldname, newname]
  | .link _ _ newname => [newname]
  | .remove _ name => [name]

/-- The directory of a hard link; version 3 leaves its type to the store. -/
def linkDir : NameChange → Option Node
  | .link _ dir _ => some dir
  | _ => none

/-- The handles of the change are found, and names are bound in directories. -/
def Valid (c : NameChange) (s : PrfsStore) : Prop :=
  (∀ n ∈ c.handles, s.nodeById n.id n.snap = some n) ∧ ∀ d ∈ c.linkDir, (s.attrs d).type = .DIR

instance (c : NameChange) (s : PrfsStore) : Decidable (c.Valid s) := inferInstanceAs (Decidable (_ ∧ _))

/-- The status that either version reports. -/
def status : Option Error → UInt32
  | none => Nfsstat3.rofs.code
  | some e => (toNfsStat e).code

/-- What a client of version 3 calls: RENAME, LINK, and REMOVE or, of a directory, RMDIR. -/
def call3 (s : PrfsStore) (xid : UInt32) : NameChange → Bytes
  | .rename sdir oldname ddir newname =>
    callBytes xid PROG_NFS NFS_V3 14 [.fh sdir.id sdir.snap, .str oldname, .fh ddir.id ddir.snap, .str newname]
  | .link file dir newname => callBytes xid PROG_NFS NFS_V3 15 [.fh file.id file.snap, .fh dir.id dir.snap, .str newname]
  | .remove dir name =>
    callBytes xid PROG_NFS NFS_V3 (if (s.lookup dir name).any (fun victim => (s.attrs victim).type = .DIR) then 13 else 12)
      [.fh dir.id dir.snap, .str name]

/-- What a client of version 4 calls: RENAME and LINK from the saved handle to the current one, and REMOVE. -/
def call4 (xid : UInt32) : NameChange → Bytes
  | .rename sdir oldname ddir newname =>
    NfsV4.compoundBytes xid 4 [.u32 22, .fh sdir.id sdir.snap, .u32 32, .u32 22, .fh ddir.id ddir.snap, .u32 29, .str oldname, .str newname]
  | .link file dir newname =>
    NfsV4.compoundBytes xid 4 [.u32 22, .fh file.id file.snap, .u32 32, .u32 22, .fh dir.id dir.snap, .u32 11, .str newname]
  | .remove dir name => NfsV4.compoundBytes xid 2 [.u32 22, .fh dir.id dir.snap, .u32 28, .str name]

/-- The status at the front of a result. -/
def statusIn (result : Bytes) : Option UInt32 := (XdrType.takeWord result).map Prod.fst

theorem statusIn_pre {st : UInt32} {w : Writer} (hw : (({} : Writer).u32 st).Pre w) : statusIn w.v = some st := by
  obtain ⟨rest, hrest⟩ := hw
  have hv : w.v = word st ++ rest := hrest.symm
  rw [statusIn, hv, XdrType.takeWord_word]
  rfl

theorem toNfs4_code (e : Error) : (toNfs4 e).code = (toNfsStat e).code := by cases e <;> rfl

end NameChange

namespace NfsV3

open NameChange (settled status)

section Calls

variable {h : Host} {v : NfsV3} {m : Msg} {r : Reader} {d f : Node} {name newname : Bytes}

theorem dispatch_still (hadv : h.advance = false) (prog vers proc : UInt32) (cred : Cred) :
    dispatch h v m r prog vers proc cred = run h v m r prog vers proc cred := by
  have hstill : ¬ (prog = PROG_NFS ∧ (Proc3.ofCode proc).any Proc3.isMutating = true ∧ h.advance = true) := by
    rw [hadv]
    exact fun hh => Bool.false_ne_true hh.2.2
  unfold dispatch
  dsimp only
  rw [if_neg hstill]

theorem diropParent_found (hr : r.Ahead m ([Item.fh d.id d.snap, .str name].flatMap Item.encode)) (hok : r.ok = true)
    (hname : name.length ≤ 2 ^ 32 - 4) (hd : v.fs.nodeById d.id d.snap = some d) (hdir : (v.fs.attrs d).type = .DIR)
    (hlive : live d.snap = true) (w : Writer) :
    ∃ r', diropParent live h v m r w = (.ok (d, preOf v.fs (some d), name), r', w) := by
  obtain ⟨r1, r2, hfh, hstr, hok2⟩ := lookup_reads hname hr hok
  refine ⟨r2, ?_⟩
  unfold diropParent
  rw [hfh]
  dsimp only
  rw [hstr]
  dsimp only
  rw [hok2, hd]
  dsimp only
  rw [if_neg (not_not.mpr hdir), hlive]
  rfl

theorem diropParent_error (hr : r.Ahead m ([Item.fh d.id d.snap, .str name].flatMap Item.encode)) (hok : r.ok = true)
    (hname : name.length ≤ 2 ^ 32 - 4) (hd : v.fs.nodeById d.id d.snap = some d)
    (hbad : (v.fs.attrs d).type ≠ .DIR ∨ live d.snap = false) (w : Writer) :
    ∃ st r', diropParent live h v m r w =
      (.error st, r', encodeWcc h v.fs (w.u32 (status (if (v.fs.attrs d).type ≠ .DIR then some .NOTDIR else none)))
        (preOf v.fs (some d)) (some d)) := by
  obtain ⟨r1, r2, hfh, hstr, hok2⟩ := lookup_reads hname hr hok
  by_cases hdir : (v.fs.attrs d).type ≠ .DIR
  · refine ⟨.status .notdir, r2, ?_⟩
    unfold diropParent
    rw [hfh]
    dsimp only
    rw [hstr]
    dsimp only
    rw [hok2, hd]
    dsimp only
    rw [if_pos hdir, if_pos hdir]
    rfl
  · have hseal : live d.snap = false := hbad.resolve_left hdir
    refine ⟨.status .rofs, r2, ?_⟩
    unfold diropParent
    rw [hfh]
    dsimp only
    rw [hstr]
    dsimp only
    rw [hok2, hd]
    dsimp only
    rw [if_neg hdir, hseal, if_neg hdir]
    rfl

/-- REMOVE and RMDIR of a name of a live directory. -/
theorem nfsRemove_live (hr : r.Ahead m ([Item.fh d.id d.snap, .str name].flatMap Item.encode)) (hok : r.ok = true)
    (hname : name.length ≤ 2 ^ 32 - 4) (hd : v.fs.nodeById d.id d.snap = some d) (hdir : (v.fs.attrs d).type = .DIR)
    (hlive : live d.snap = true) :
    nfsRemove live h v m r {} =
      let x := settled [d] (v.fs.unlink d name)
      (.success, encodeWcc h x.2 (({} : Writer).u32 (status x.1)) (preOf v.fs (some d)) (some d), { v with fs := x.2 }) := by
  obtain ⟨r', hparent⟩ := @diropParent_found h v m r d name hr hok hname hd hdir hlive {}
  unfold nfsRemove
  rw [hparent]
  rfl

theorem nfsRmdir_live (hr : r.Ahead m ([Item.fh d.id d.snap, .str name].flatMap Item.encode)) (hok : r.ok = true)
    (hname : name.length ≤ 2 ^ 32 - 4) (hd : v.fs.nodeById d.id d.snap = some d) (hdir : (v.fs.attrs d).type = .DIR)
    (hlive : live d.snap = true) {x : Node} (hx : v.fs.lookup d name = some x) (hxdir : (v.fs.attrs x).type = .DIR) :
    nfsRmdir live h v m r {} =
      let x := if !(v.fs.readdir x).isEmpty then (some .NOTEMPTY, v.fs) else settled [d] (v.fs.unlink d name)
      (.success, encodeWcc h x.2 (({} : Writer).u32 (status x.1)) (preOf v.fs (some d)) (some d), { v with fs := x.2 }) := by
  obtain ⟨r', hparent⟩ := @diropParent_found h v m r d name hr hok hname hd hdir hlive {}
  unfold nfsRmdir
  rw [hparent]
  dsimp only
  rw [hx]
  dsimp only
  rw [if_neg (not_not.mpr hxdir)]
  split_ifs with hfull
  · rfl
  · rfl

/-- A change in version 3, whatever the message it comes in. -/
def Runs3 (h : Host) (v : NfsV3) (c : NameChange) (proc : UInt32) (args : List Item) : Prop :=
  ∃ w : Writer, (({} : Writer).u32 (status (c.apply v.fs).1)).Pre w ∧
    ∀ (m : Msg) (r : Reader), r.Ahead m (args.flatMap Item.encode) → r.ok = true →
      run h v m r PROG_NFS NFS_V3 proc {} = (.success, w, { v with fs := (c.apply v.fs).2 })

theorem Runs3.of_wcc {c : NameChange} {proc : UInt32} {args : List Item} {x : Option Error × PrfsStore} (happly : c.apply v.fs = x)
    (hrun : ∀ (m : Msg) (r : Reader), r.Ahead m (args.flatMap Item.encode) → r.ok = true →
      run h v m r PROG_NFS NFS_V3 proc {} =
        (.success, encodeWcc h x.2 (({} : Writer).u32 (status x.1)) (preOf v.fs (some d)) (some d), { v with fs := x.2 })) :
    Runs3 h v c proc args := by
  unfold Runs3
  rw [happly]
  exact ⟨_, pre_encodeWcc (.refl _) _ _, hrun⟩

theorem remove_runs (hname : name.length ≤ 2 ^ 32 - 4) (hd : v.fs.nodeById d.id d.snap = some d) :
    Runs3 h v (.remove d name) (if (v.fs.lookup d name).any (fun victim => (v.fs.attrs victim).type = .DIR) then 13 else 12)
      [.fh d.id d.snap, .str name] := by
  have h12 : ∀ (m : Msg) (r : Reader), run h v m r PROG_NFS NFS_V3 12 {} = nfsRemove live h v m r {} := fun _ _ => rfl
  have h13 : ∀ (m : Msg) (r : Reader), run h v m r PROG_NFS NFS_V3 13 {} = nfsRmdir live h v m r {} := fun _ _ => rfl
  by_cases hbad : (v.fs.attrs d).type ≠ .DIR ∨ live d.snap = false
  · have happly : (NameChange.remove d name).apply v.fs = (if (v.fs.attrs d).type ≠ .DIR then some .NOTDIR else none, v.fs) := by
      rw [NameChange.apply]
      by_cases hdir : (v.fs.attrs d).type ≠ .DIR
      · rw [if_pos hdir, if_pos hdir]
      · rw [if_neg hdir, if_neg hdir, hbad.resolve_left hdir]
        rfl
    refine @Runs3.of_wcc h v d _ _ _ _ happly fun m r hr hok => ?_
    obtain ⟨st, r', hparent⟩ := @diropParent_error h v m r d name hr hok hname hd hbad {}
    generalize encodeWcc h v.fs (({} : Writer).u32 (status (if (v.fs.attrs d).type ≠ .DIR then some .NOTDIR else none)))
      (preOf v.fs (some d)) (some d) = w at *
    dsimp only
    split_ifs
    · rw [h13]
      unfold nfsRmdir
      rw [hparent]
      rfl
    · rw [h12]
      unfold nfsRemove
      rw [hparent]
      rfl
  · rw [not_or, not_not, Bool.not_eq_false] at hbad
    obtain ⟨hdir, hlive⟩ := hbad
    have happly : (NameChange.remove d name).apply v.fs =
        if (v.fs.lookup d name).any (fun victim => (v.fs.attrs victim).type = .DIR && !(v.fs.readdir victim).isEmpty) then
          (some .NOTEMPTY, v.fs)
        else settled [d] (v.fs.unlink d name) := by
      rw [NameChange.apply, if_neg (not_not.mpr hdir), hlive]
      rfl
    refine @Runs3.of_wcc h v d _ _ _ _ happly fun m r hr hok => ?_
    cases hx : v.fs.lookup d name with
    | none =>
      rw [Option.any_none, Option.any_none, if_neg Bool.false_ne_true, if_neg Bool.false_ne_true, h12]
      exact nfsRemove_live hr hok hname hd hdir hlive
    | some x =>
      rw [Option.any_some, Option.any_some]
      by_cases hxdir : (v.fs.attrs x).type = .DIR
      · simp only [hxdir, decide_true, if_true, Bool.true_and, h13]
        exact nfsRmdir_live hr hok hname hd hdir hlive hx hxdir
      · simp only [hxdir, decide_false, Bool.false_eq_true, if_false, Bool.false_and, h12]
        exact nfsRemove_live hr hok hname hd hdir hlive

theorem rename_runs (hname : name.length ≤ 2 ^ 32 - 4) (hnew : newname.length ≤ 2 ^ 32 - 4)
    (hd : v.fs.nodeById d.id d.snap = some d) (hf : v.fs.nodeById f.id f.snap = some f) :
    Runs3 h v (.rename d name f newname) 14 [.fh d.id d.snap, .str name, .fh f.id f.snap, .str newname] := by
  have h14 : ∀ (m : Msg) (r : Reader), run h v m r PROG_NFS NFS_V3 14 {} = nfsRename live h v m r {} := fun _ _ => rfl
  refine ⟨encodeWcc h ((NameChange.rename d name f newname).apply v.fs).2 (encodeWcc h ((NameChange.rename d name f newname).apply v.fs).2
    (({} : Writer).u32 (status ((NameChange.rename d name f newname).apply v.fs).1)) (preOf v.fs (some d)) (some d))
    (preOf v.fs (some f)) (some f), pre_encodeWcc (pre_encodeWcc (.refl _) _ _) _ _, fun m r hr hok => ?_⟩
  simp only [List.flatMap_cons, List.flatMap_nil] at hr
  obtain ⟨r1, hfh, h1, hok1, -⟩ := hr.fh3 hok
  obtain ⟨r2, hstr, h2, hok2⟩ := h1.string hname hok1
  obtain ⟨r3, hfh2, h3, hok3, -⟩ := h2.fh3 hok2
  obtain ⟨r4, hstr2, -, hok4⟩ := h3.string hnew hok3
  rw [h14]
  unfold nfsRename NameChange.apply
  rw [hfh]
  dsimp only
  rw [hstr]
  dsimp only
  rw [hfh2]
  dsimp only
  rw [hstr2]
  dsimp only
  rw [hok4, hd, hf]
  dsimp only
  cases live d.snap && live f.snap with
  | false => rfl
  | true =>
    unfold settled touched
    simp only [Bool.not_true, Bool.false_eq_true, if_false, if_true]
    split_ifs
    · rfl
    · rfl

theorem link_runs (hnew : newname.length ≤ 2 ^ 32 - 4) (hf : v.fs.nodeById f.id f.snap = some f)
    (hd : v.fs.nodeById d.id d.snap = some d) :
    Runs3 h v (.link f d newname) 15 [.fh f.id f.snap, .fh d.id d.snap, .str newname] := by
  have h15 : ∀ (m : Msg) (r : Reader), run h v m r PROG_NFS NFS_V3 15 {} = nfsLink live h v m r {} := fun _ _ => rfl
  refine ⟨encodeWcc h ((NameChange.link f d newname).apply v.fs).2 (encodePostOp h ((NameChange.link f d newname).apply v.fs).2
    (({} : Writer).u32 (status ((NameChange.link f d newname).apply v.fs).1)) (some f)) (preOf v.fs (some d)) (some d),
    pre_encodeWcc (pre_encodePostOp (.refl _) _) _ _, fun m r hr hok => ?_⟩
  simp only [List.flatMap_cons, List.flatMap_nil] at hr
  obtain ⟨r1, hfh, h1, hok1, -⟩ := hr.fh3 hok
  obtain ⟨r2, hfh2, h2, hok2, -⟩ := h1.fh3 hok1
  obtain ⟨r3, hstr, -, hok3⟩ := h2.string hnew hok2
  rw [h15]
  unfold nfsLink NameChange.apply
  rw [hfh]
  dsimp only
  rw [hfh2]
  dsimp only
  rw [hstr]
  dsimp only
  rw [hok3, hf, hd]
  dsimp only
  cases live d.snap with
  | false => rfl
  | true => rfl

theorem change_served {beyond : Nat → UInt8} {c : NameChange} {proc : UInt32} {args : List Item} (hadv : h.advance = false)
    (hrun : Runs3 h v c proc args) {xid : UInt32} (hlen : (callBytes xid PROG_NFS NFS_V3 proc args).length ≤ 0x100000) :
    ∃ frame, connection h beyond v (callBytes xid PROG_NFS NFS_V3 proc args) = some (frame, { v with fs := (c.apply v.fs).2 }) ∧
      (resultIn xid frame).bind NameChange.statusIn = some (status (c.apply v.fs).1) := by
  obtain ⟨w, hw, hrun⟩ := hrun
  refine ⟨resultFrame xid w.v, connection_call hlen fun m r hr hok => (dispatch_still hadv ..).trans (hrun m r hr hok), ?_⟩
  rw [resultIn_frame, Option.bind_some]
  exact NameChange.statusIn_pre hw

/-- A valid change, called for by a client of version 3. -/
theorem call3_served {beyond : Nat → UInt8} {c : NameChange} (hadv : h.advance = false) (hv : c.Valid v.fs)
    (hnames : ∀ n ∈ c.names, n.length ≤ 0x7FF00) (xid : UInt32) :
    ∃ frame, connection h beyond v (c.call3 v.fs xid) = some (frame, { v with fs := (c.apply v.fs).2 }) ∧
      (resultIn xid frame).bind NameChange.statusIn = some (status (c.apply v.fs).1) := by
  obtain ⟨hfound, -⟩ := hv
  have hstr := Item.str_length_le
  have hfh := Item.fh_length
  cases c with
  | rename sdir oldname ddir newname =>
    have hold := hnames oldname List.mem_cons_self
    have hnew := hnames newname (List.mem_cons_of_mem _ List.mem_cons_self)
    refine change_served hadv (rename_runs (by omega) (by omega) (hfound sdir List.mem_cons_self)
      (hfound ddir (List.mem_cons_of_mem _ List.mem_cons_self))) ?_
    have h1 := hstr oldname
    have h2 := hstr newname
    simp only [callBytes_length, List.flatMap_cons, List.flatMap_nil, List.length_append, List.length_nil, hfh]
    omega
  | link file dir newname =>
    have hnew := hnames newname List.mem_cons_self
    refine change_served hadv (link_runs (by omega) (hfound file List.mem_cons_self)
      (hfound dir (List.mem_cons_of_mem _ List.mem_cons_self))) ?_
    have h1 := hstr newname
    simp only [callBytes_length, List.flatMap_cons, List.flatMap_nil, List.length_append, List.length_nil, hfh]
    omega
  | remove dir name =>
    have hname := hnames name List.mem_cons_self
    refine change_served hadv (remove_runs (by omega) (hfound dir List.mem_cons_self)) ?_
    have h1 := hstr name
    simp only [callBytes_length, List.flatMap_cons, List.flatMap_nil, List.length_append, List.length_nil, hfh]
    omega

end Calls

end NfsV3

namespace NfsV4

open NameChange (settled)

/-- The status of a change in version 4. -/
def verdict : Option Error → Nfsstat4
  | none => .rofs
  | some e => toNfs4 e

theorem verdict_code (e : Option Error) : (verdict e).code = NameChange.status e := by
  cases e with
  | none => rfl
  | some e => exact NameChange.toNfs4_code e

namespace Call4

variable {h : Host} {hash : Bytes → UInt64} {pos : Nat → WalkOrder} {m : Msg} {c : Call4} {d f : Node} {name newname bs : Bytes}

/-- The operation came to what the change comes to, and left the tables as they were. -/
def Changes (c : Call4) (t : Step4) (x : Option Error × PrfsStore) : Prop :=
  t.st = verdict x.1 ∧ t.after.r.ok = true ∧ t.after.v = c.v ∧ t.after.fs = x.2 ∧ t.after.ckName = c.ckName

theorem opsLoop_last {done : Nat} {last : Nfsstat4} (hok : c.r.ok = true) :
    opsLoop h hash pos m 1 done last c =
      ((execOp h hash (pos done) m c).st, done + 1, (execOp h hash (pos done) m c).after) := by
  rw [@opsLoop_succ h hash pos m 0 done c last hok]
  dsimp only
  by_cases hst : (execOp h hash (pos done) m c).st = .ok
  · rw [if_pos hst, hst]
    rfl
  · rw [if_neg hst]

theorem execOp_savefh (hc : c.cfh = some d) (hr : c.r.Ahead m (word 32 ++ bs)) (hok : c.r.ok = true) :
    ∃ r, r.Ahead m bs ∧ r.ok = true ∧ ∀ p, (execOp h hash p m c).st = .ok ∧
      (execOp h hash p m c).after = { c with sfh := some d, r := r, w := (c.w.u32 32).u32 0 } := by
  obtain ⟨hop, h1, hok1⟩ := hr.u32
  have hcode : Op4.ofCode 32 = some .savefh := by decide
  refine ⟨(c.r.u32 m).2, h1, hok1.trans hok, fun p => ?_⟩
  unfold execOp doOp
  dsimp only
  rw [hop, hcode]
  dsimp only
  unfold runOp opSavefh
  dsimp only
  rw [hc]
  exact ⟨rfl, rfl⟩

theorem execOp_rename (hs : c.sfh = some d) (hc : c.cfh = some f) (hd : c.fs.nodeById d.id d.snap = some d)
    (hf : c.fs.nodeById f.id f.snap = some f) (hname : name.length ≤ 2 ^ 32 - 4) (hnew : newname.length ≤ 2 ^ 32 - 4)
    (hr : c.r.Ahead m (word 29 ++ ((Item.str name).encode ++ ((Item.str newname).encode ++ bs)))) (hok : c.r.ok = true) (p : WalkOrder) :
    c.Changes (execOp h hash p m c) ((NameChange.rename d name f newname).apply c.fs) := by
  obtain ⟨hop, h1, hok1⟩ := hr.u32
  obtain ⟨r2, hstr, h2, hok2⟩ := h1.string hname (hok1.trans hok)
  obtain ⟨r3, hstr2, -, hok3⟩ := h2.string hnew hok2
  have hcode : Op4.ofCode 29 = some .rename := by decide
  unfold execOp doOp
  dsimp only
  rw [hop, hcode]
  dsimp only
  unfold runOp opRename NameChange.apply
  dsimp only
  rw [hstr]
  dsimp only
  rw [hstr2]
  dsimp only
  rw [hs, hc]
  dsimp only
  rw [hd, hf]
  dsimp only
  rw [← Bool.not_and]
  cases live d.snap && live f.snap with
  | false => exact ⟨rfl, hok3, rfl, rfl, rfl⟩
  | true =>
    simp only [Bool.not_true, Bool.false_eq_true, if_false, if_true]
    generalize c.fs.move d name f newname = x
    obtain ⟨e, fs⟩ := x
    cases e with
    | OK => exact ⟨rfl, hok3, rfl, rfl, rfl⟩
    | _ => exact ⟨rfl, hok3, rfl, rfl, rfl⟩

theorem execOp_link (hs : c.sfh = some f) (hc : c.cfh = some d) (hf : c.fs.nodeById f.id f.snap = some f)
    (hd : c.fs.nodeById d.id d.snap = some d) (hdir : (c.fs.attrs d).type = .DIR) (hnew : newname.length ≤ 2 ^ 32 - 4)
    (hr : c.r.Ahead m (word 11 ++ ((Item.str newname).encode ++ bs))) (hok : c.r.ok = true) (p : WalkOrder) :
    c.Changes (execOp h hash p m c) ((NameChange.link f d newname).apply c.fs) := by
  obtain ⟨hop, h1, hok1⟩ := hr.u32
  obtain ⟨r2, hstr, -, hok2⟩ := h1.string hnew (hok1.trans hok)
  have hcode : Op4.ofCode 11 = some .link := by decide
  unfold execOp doOp
  dsimp only
  rw [hop, hcode]
  dsimp only
  unfold runOp opLink NameChange.apply
  dsimp only
  rw [hstr]
  dsimp only
  rw [hs, hc]
  dsimp only
  rw [hf, hd]
  dsimp only
  rw [if_neg (not_not.mpr hdir)]
  cases live d.snap with
  | false => exact ⟨rfl, hok2, rfl, rfl, rfl⟩
  | true =>
    simp only [Bool.not_true, Bool.false_eq_true, if_false, if_true]
    generalize c.fs.link d newname f = x
    obtain ⟨e, fs⟩ := x
    cases e with
    | OK => exact ⟨rfl, hok2, rfl, rfl, rfl⟩
    | _ => exact ⟨rfl, hok2, rfl, rfl, rfl⟩

theorem execOp_remove (hc : c.cfh = some d) (hd : c.fs.nodeById d.id d.snap = some d) (hname : name.length ≤ 2 ^ 32 - 4)
    (hr : c.r.Ahead m (word 28 ++ ((Item.str name).encode ++ bs))) (hok : c.r.ok = true) (p : WalkOrder) :
    c.Changes (execOp h hash p m c) ((NameChange.remove d name).apply c.fs) := by
  obtain ⟨hop, h1, hok1⟩ := hr.u32
  obtain ⟨r2, hstr, -, hok2⟩ := h1.string hname (hok1.trans hok)
  have hcode : Op4.ofCode 28 = some .remove := by decide
  unfold execOp doOp
  dsimp only
  rw [hop, hcode]
  dsimp only
  unfold runOp opRemove cur liveCfh NameChange.apply
  dsimp only
  rw [hstr]
  dsimp only
  rw [hc, Option.bind_some, hd, Option.any_some]
  dsimp only
  split_ifs with hdir hseal hfull
  · exact ⟨rfl, hok2, rfl, rfl, rfl⟩
  · exact ⟨rfl, hok2, rfl, rfl, rfl⟩
  · exact ⟨rfl, hok2, rfl, rfl, rfl⟩
  · generalize c.fs.unlink d name = x
    obtain ⟨e, fs⟩ := x
    cases e with
    | OK => exact ⟨rfl, hok2, rfl, rfl, rfl⟩
    | _ => exact ⟨rfl, hok2, rfl, rfl, rfl⟩

/-- The handles of a change of two, put and saved in turn. -/
theorem opsLoop_handles {a b : Node} (hr : c.r.Ahead m (word 22 ++ (Reader.handle a.id a.snap ++ (word 32 ++ (word 22 ++
    (Reader.handle b.id b.snap ++ bs)))))) (hok : c.r.ok = true) :
    ∃ r w, r.Ahead m bs ∧ r.ok = true ∧
      opsLoop h hash pos m 4 0 .ok c = opsLoop h hash pos m 1 3 .ok { c with cfh := some b, sfh := some a, r := r, w := w } := by
  obtain ⟨r1, h1, hok1, hput⟩ := @execOp_putfh h hash m c a _ hr hok
  obtain ⟨hst1, hafter1⟩ := hput (pos 0)
  obtain ⟨r2, h2, hok2, hsave⟩ := @execOp_savefh h hash m { c with cfh := some a, r := r1, w := (c.w.u32 22).u32 0 } a _ rfl h1 hok1
  obtain ⟨hst2, hafter2⟩ := hsave (pos 1)
  obtain ⟨r3, h3, hok3, hput2⟩ := @execOp_putfh h hash m
    { c with cfh := some a, sfh := some a, r := r2, w := (((c.w.u32 22).u32 0).u32 32).u32 0 } b _ h2 hok2
  obtain ⟨hst3, hafter3⟩ := hput2 (pos 2)
  refine ⟨r3, (((((c.w.u32 22).u32 0).u32 32).u32 0).u32 22).u32 0, h3, hok3, ?_⟩
  rw [@opsLoop_succ h hash pos m 3 0 c .ok hok]
  dsimp only
  rw [if_pos hst1, hafter1, @opsLoop_succ h hash pos m 2 _ _ _ hok1]
  dsimp only
  rw [if_pos hst2, hafter2, @opsLoop_succ h hash pos m 1 _ _ _ hok2]
  dsimp only
  rw [if_pos hst3, hafter3]

end Call4

section Calls

variable {h : Host} {hash : Bytes → UInt64} {pos : Nat → Nat → WalkOrder} {beyond : Nat → UInt8} {s : Server4} {k : Nat}

/-- A COMPOUND whose last operation is the change. -/
theorem change_served (done : Nat) {xid n : UInt32} {ops : List Item} {x : Option Error × PrfsStore}
    (hlen : (compoundBytes xid n ops).length ≤ 0x200000) (hn : n ≤ 4096)
    (hrun : ∀ (m : Msg) (r : Reader), r.Ahead m (ops.flatMap Item.encode) → r.ok = true → ∃ c : Call4, c.r.ok = true ∧
      (c.v = s.v ∧ c.ckName = s.ckName) ∧ (∀ p, c.Changes (Call4.execOp h hash p m c) x) ∧
      Call4.opsLoop h hash (pos k) m n.toNat 0 .ok { v := s.v, fs := s.fs, ckName := s.ckName, r } =
        Call4.opsLoop h hash (pos k) m 1 done .ok c) :
    ∃ frame, connection h hash pos beyond (s, k) (compoundBytes xid n ops) = some (frame, ({ s with fs := x.2 }, k + 1)) ∧
      (resultIn xid frame).bind NameChange.statusIn = some (NameChange.status x.1) := by
  obtain ⟨c, ⟨hv, hfs, hck⟩, hserve⟩ := @connection_compound h hash pos beyond s k xid n ops (verdict x.1) (done + 1)
    (fun c => c.v = s.v ∧ c.fs = x.2 ∧ c.ckName = s.ckName) hlen hn fun m r hr hok => by
      obtain ⟨c, hok', ⟨hv, hck⟩, hchange, hloop⟩ := hrun m r hr hok
      obtain ⟨hst, hok2, hv2, hfs2, hck2⟩ := hchange (pos k done)
      refine ⟨_, hok2, ⟨hv2.trans hv, hfs2, hck2.trans hck⟩, ?_⟩
      rw [hloop, Call4.opsLoop_last hok', hst]
  rw [hv, hfs, hck] at hserve
  refine ⟨_, hserve, ?_⟩
  rw [resultIn_frame, Option.bind_some, NameChange.statusIn, compoundResult, XdrType.takeWord_word, Option.map_some, verdict_code]

/-- A valid change, called for by a client of version 4. -/
theorem call4_served {c : NameChange} (hv : c.Valid s.fs) (hnames : ∀ n ∈ c.names, n.length ≤ 0x7FF00) (xid : UInt32) :
    ∃ frame, connection h hash pos beyond (s, k) (c.call4 xid) = some (frame, ({ s with fs := (c.apply s.fs).2 }, k + 1)) ∧
      (resultIn xid frame).bind NameChange.statusIn = some (NameChange.status (c.apply s.fs).1) := by
  obtain ⟨hfound, hdir⟩ := hv
  have hstr := Item.str_length_le
  have hfh := Item.fh_length
  have hword : ∀ x, (Item.u32 x).encode.length = 4 := fun _ => rfl
  have htag : (Item.str []).encode.length = 4 := rfl
  cases c with
  | rename sdir oldname ddir newname =>
    have hold := hnames oldname List.mem_cons_self
    have hnew := hnames newname (List.mem_cons_of_mem _ List.mem_cons_self)
    have h1 := hstr oldname
    have h2 := hstr newname
    refine change_served 3 ?_ (by decide) fun m r hr hok => ?_
    · simp only [compoundBytes, callBytes_length, List.flatMap_cons, List.flatMap_nil, List.cons_append, List.nil_append,
        List.length_append, List.length_nil, hfh, hword, htag]
      omega
    · simp only [List.flatMap_cons, List.flatMap_nil] at hr
      obtain ⟨r', w, hr', hok', hloop⟩ := @Call4.opsLoop_handles h hash (pos k) m
        { v := s.v, fs := s.fs, ckName := s.ckName, r } _ sdir ddir hr hok
      have hchange := @Call4.execOp_rename h hash m
        { v := s.v, fs := s.fs, ckName := s.ckName, cfh := some ddir, sfh := some sdir, r := r', w } sdir ddir oldname newname []
        rfl rfl (hfound sdir List.mem_cons_self) (hfound ddir (List.mem_cons_of_mem _ List.mem_cons_self)) (by omega) (by omega) hr' hok'
      exact ⟨_, hok', ⟨rfl, rfl⟩, hchange, hloop⟩
  | link file dir newname =>
    have hnew := hnames newname List.mem_cons_self
    have h1 := hstr newname
    refine change_served 3 ?_ (by decide) fun m r hr hok => ?_
    · simp only [compoundBytes, callBytes_length, List.flatMap_cons, List.flatMap_nil, List.cons_append, List.nil_append,
        List.length_append, List.length_nil, hfh, hword, htag]
      omega
    · simp only [List.flatMap_cons, List.flatMap_nil] at hr
      obtain ⟨r', w, hr', hok', hloop⟩ := @Call4.opsLoop_handles h hash (pos k) m
        { v := s.v, fs := s.fs, ckName := s.ckName, r } _ file dir hr hok
      have hchange := @Call4.execOp_link h hash m
        { v := s.v, fs := s.fs, ckName := s.ckName, cfh := some dir, sfh := some file, r := r', w } dir file newname []
        rfl rfl (hfound file List.mem_cons_self) (hfound dir (List.mem_cons_of_mem _ List.mem_cons_self)) (hdir dir rfl) (by omega) hr' hok'
      exact ⟨_, hok', ⟨rfl, rfl⟩, hchange, hloop⟩
  | remove dir name =>
    have hname := hnames name List.mem_cons_self
    have h1 := hstr name
    refine change_served 1 ?_ (by decide) fun m r hr hok => ?_
    · simp only [compoundBytes, callBytes_length, List.flatMap_cons, List.flatMap_nil, List.cons_append, List.nil_append,
        List.length_append, List.length_nil, hfh, hword, htag]
      omega
    · simp only [List.flatMap_cons, List.flatMap_nil] at hr
      obtain ⟨r', hr', hok', hput⟩ := @Call4.execOp_putfh h hash m { v := s.v, fs := s.fs, ckName := s.ckName, r } dir _ hr hok
      obtain ⟨hst, hafter⟩ := hput (pos k 0)
      have hchange := @Call4.execOp_remove h hash m
        { v := s.v, fs := s.fs, ckName := s.ckName, cfh := some dir, r := r', w := (({} : Writer).u32 22).u32 0 } dir name []
        rfl (hfound dir List.mem_cons_self) (by omega) hr' hok'
      refine ⟨_, hok', ⟨rfl, rfl⟩, hchange, ?_⟩
      rw [show (2 : UInt32).toNat = 1 + 1 from rfl, @Call4.opsLoop_succ h hash (pos k) m 1 0 _ .ok hok]
      dsimp only
      rw [if_pos hst, hafter]

end Calls

end NfsV4

namespace NameChange

/-- Changes in turn: what each comes to, and the store after them. -/
def applyAll (s : PrfsStore) : List NameChange → List (Option Error) × PrfsStore
  | [] => ([], s)
  | c :: cs =>
    let x := applyAll (c.apply s).2 cs
    ((c.apply s).1 :: x.1, x.2)

variable {c : NameChange} {s t : PrfsStore}

theorem settled_run {op : Op} {x : Error × PrfsStore} (hf : s.Fits op) (hx : x.2 = (s.exec op).2) (dirs : List Node) :
    PrfsStore.Run s (settled dirs x).2 := by
  have hop : PrfsStore.Does op.binds s x.2 := by
    rw [hx]
    exact .op .refl op hf (.inr rfl)
  have htouch : ∀ {t}, PrfsStore.Does op.binds s t → PrfsStore.Does op.binds s (dirs.foldl touchDir t) := by
    induction dirs with
    | nil => exact fun ht => ht
    | cons d dirs ih => exact fun ht => ih (ht.touchDir d)
  unfold settled
  dsimp only
  split_ifs
  · exact (htouch hop).run
  · exact hop.run

theorem apply_run (c : NameChange) (s : PrfsStore) : PrfsStore.Run s (c.apply s).2 := by
  cases c with
  | rename sdir oldname ddir newname =>
    rw [apply]
    split_ifs
    · exact @settled_run s (.move sdir oldname ddir newname) _ trivial rfl _
    · exact .refl
  | link file dir newname =>
    rw [apply]
    split_ifs
    · exact @settled_run s (.link dir newname file) _ trivial rfl _
    · exact .refl
  | remove dir name =>
    rw [apply]
    split_ifs
    · exact .refl
    · exact .refl
    · exact .refl
    · exact @settled_run s (.unlink dir name) _ trivial rfl _

/-- A change that the store refuses leaves it as it was. -/
theorem apply_failed (hs : s.Sound) (hc : (c.apply s).1 ≠ some .OK) : (c.apply s).2 = s := by
  have hstill : ∀ {op : Op} {x : Error × PrfsStore} {dirs : List Node}, s.exec op = (.err x.1, x.2) →
      (settled dirs x).1 ≠ some .OK → (settled dirs x).2 = s := by
    intro op x dirs hop hne
    have he : x.1 ≠ .OK := fun he => hne (congrArg some he)
    have hsame := PrfsStore.exec_failed hs (congrArg Prod.fst hop) he
    unfold settled
    rw [if_neg he, ← hsame, hop]
  cases c with
  | rename sdir oldname ddir newname =>
    rw [apply] at hc ⊢
    split_ifs at hc ⊢
    · exact @hstill (.move sdir oldname ddir newname) _ _ rfl hc
    · rfl
  | link file dir newname =>
    rw [apply] at hc ⊢
    split_ifs at hc ⊢
    · exact @hstill (.link dir newname file) _ _ rfl hc
    · rfl
  | remove dir name =>
    rw [apply] at hc ⊢
    split_ifs at hc ⊢
    · rfl
    · rfl
    · rfl
    · exact @hstill (.unlink dir name) _ _ rfl hc

theorem Valid.run (hs : s.Sound) (hr : PrfsStore.Run s t) (hc : c.Valid s) : c.Valid t := by
  obtain ⟨hfound, hdir⟩ := hc
  have hstay : ∀ n ∈ c.handles, t.nodeById n.id n.snap = some n := fun n hn =>
    (hs.nodeById_run hr (hs.given_of_nodeById (hfound n hn)).2).trans (hfound n hn)
  refine ⟨hstay, fun d hd => ?_⟩
  have hmem : d ∈ c.handles := by
    cases c with
    | rename => cases hd
    | link file dir newname =>
      cases hd
      exact List.mem_cons_of_mem _ List.mem_cons_self
    | remove => cases hd
  rw [hs.type_run hr (hfound d hmem)]
  exact hdir d hd

end NameChange

namespace Server

variable (h : Host) (hash : Bytes → UInt64) (pos : Nat → Nat → WalkOrder) (beyond : Nat → UInt8)

/-- One change by a client of the version that is chosen: the record that answers it, and the server after it. -/
def send (three : Bool) (xid : UInt32) (k : Nat) (s : Server) (c : NameChange) : Option (Bytes × Server) :=
  if three then
    (NfsV3.connection h beyond ⟨s.fs, s.names⟩ (c.call3 s.fs xid)).map fun x => (x.1, { s with fs := x.2.fs, names := x.2.ckName })
  else
    (NfsV4.connection h hash pos beyond (s.server4, k) (c.call4 xid)).map fun x =>
      (x.1, { s with fs := x.2.1.fs, v := x.2.1.v, ckName := x.2.1.ckName })

/-- Changes one after another, each by a client of the version that is chosen for it: the statuses that come back, and the server
after them. -/
def sendAll (via : Nat → Bool) (xid : UInt32) : Nat → Server → List NameChange → Option (List UInt32 × Server)
  | _, s, [] => some ([], s)
  | k, s, c :: cs =>
    (send h hash pos beyond (via k) xid k s c).bind fun x =>
      ((resultIn xid x.1).bind NameChange.statusIn).bind fun st =>
        (sendAll via xid (k + 1) x.2 cs).map fun y => (st :: y.1, y.2)

variable {h hash pos beyond} {s : Server} {xid : UInt32} {k : Nat}

theorem send_served {c : NameChange} (hadv : h.advance = false) (hv : c.Valid s.fs) (hnames : ∀ n ∈ c.names, n.length ≤ 0x7FF00)
    (three : Bool) : ∃ frame, s.send h hash pos beyond three xid k c = some (frame, { s with fs := (c.apply s.fs).2 }) ∧
      (resultIn xid frame).bind NameChange.statusIn = some (NameChange.status (c.apply s.fs).1) := by
  cases three with
  | true =>
    obtain ⟨frame, hframe, hstatus⟩ := @NfsV3.call3_served h ⟨s.fs, s.names⟩ beyond c hadv hv hnames xid
    refine ⟨frame, ?_, hstatus⟩
    unfold send
    rw [if_pos rfl, hframe]
    rfl
  | false =>
    obtain ⟨frame, hframe, hstatus⟩ := @NfsV4.call4_served h hash pos beyond s.server4 k c hv hnames xid
    refine ⟨frame, ?_, hstatus⟩
    unfold send
    rw [if_neg Bool.false_ne_true, hframe]
    rfl

/-- Renames, hard links and removals come to the same through either version, one by one and in any mix: the same statuses and the same
store, which a refused change leaves as it was. -/
theorem changes_agree (hs : PrfsStore.Run .empty s.fs) (hadv : h.advance = false) {cs : List NameChange}
    (hv : ∀ c ∈ cs, c.Valid s.fs) (hnames : ∀ c ∈ cs, ∀ n ∈ c.names, n.length ≤ 0x7FF00) (via : Nat → Bool) (xid : UInt32) (k : Nat) :
    s.sendAll h hash pos beyond via xid k cs =
      some ((NameChange.applyAll s.fs cs).1.map NameChange.status, { s with fs := (NameChange.applyAll s.fs cs).2 }) ∧
    ∀ c t, PrfsStore.Run s.fs t → (NameChange.apply t c).1 ≠ some .OK → (NameChange.apply t c).2 = t := by
  refine ⟨?_, fun c t ht hc => NameChange.apply_failed (hs.sound.run ht) hc⟩
  induction cs generalizing s k with
  | nil => rfl
  | cons c cs ih =>
    have hrun := NameChange.apply_run c s.fs
    obtain ⟨frame, hframe, hstatus⟩ := @send_served h hash pos beyond s xid k c hadv (hv c List.mem_cons_self)
      (hnames c List.mem_cons_self) (via k)
    have hrest := @ih { s with fs := (c.apply s.fs).2 } (Reaches.trans hs hrun)
      (fun x hx => (hv x (List.mem_cons_of_mem c hx)).run hs.sound hrun) (fun x hx => hnames x (List.mem_cons_of_mem c hx)) (k + 1)
    rw [sendAll, hframe, Option.bind_some]
    dsimp only
    rw [hstatus, Option.bind_some, hrest]
    rfl

/-- A directory with the entry "a", and in it a file with the entry "b". -/
def nestedFile : PrfsStore :=
  PrfsStore.empty.after [.mkdir, .link ⟨1, LATEST⟩ [97] ⟨2, LATEST⟩, .mkfile [], .link ⟨2, LATEST⟩ [98] ⟨3, LATEST⟩]

set_option maxRecDepth 20000 in
/-- The directory is not removed while it holds the file, which is linked into the root under "c" and moved over it; then it is. -/
theorem changes_agree_mixed :
    let cs : List NameChange := [.remove ⟨1, LATEST⟩ [97], .link ⟨3, LATEST⟩ ⟨1, LATEST⟩ [99],
      .rename ⟨2, LATEST⟩ [98] ⟨1, LATEST⟩ [99], .remove ⟨2, LATEST⟩ [98], .remove ⟨1, LATEST⟩ [97]]
    ∀ via, (({ fs := nestedFile } : Server).sendAll {} (fun _ => 0) (fun _ _ _ => 0) (fun _ => 0) via 7 0 cs).map Prod.fst =
      some [66, 0, 17, 0, 0] := by
  intro cs via
  have hs : PrfsStore.Run .empty ({ fs := nestedFile } : Server).fs := PrfsStore.run_after (by decide)
  obtain ⟨hsend, -⟩ := @changes_agree {} (fun _ => 0) (fun _ _ _ => 0) (fun _ => 0) { fs := nestedFile } hs rfl cs (by decide) (by decide)
    via 7 0
  have hstatus : (NameChange.applyAll nestedFile cs).1.map NameChange.status = [66, 0, 17, 0, 0] := by decide
  rw [hsend, Option.map_some, hstatus]

end Server

end Prfs
