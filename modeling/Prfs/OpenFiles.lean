import Prfs.Interleavings
import Prfs.Nfs4Effects

namespace Prfs

namespace NfsV4

variable {v w : NfsV4} {P Q : UInt64 → Prop} {pos : WalkOrder} {hash : Bytes → UInt64}

/-- The opens and the locks are of files that `P` holds of. -/
structure FilesIn (P : UInt64 → Prop) (v : NfsV4) : Prop where
  opens : ∀ k o, v.opens.get k = some o → P o.fileId
  locks : ∀ k l, v.locks.get k = some l → P l.fileId

theorem filesIn_empty : ({} : NfsV4).FilesIn P := ⟨fun _ _ ho => absurd ho (by simp), fun _ _ hl => absurd hl (by simp)⟩

namespace FilesIn

theorem mono (h : v.FilesIn P) (hPQ : ∀ f, P f → Q f) : v.FilesIn Q :=
  ⟨fun k o ho => hPQ _ (h.opens k o ho), fun k l hl => hPQ _ (h.locks k l hl)⟩

/-- Entries that go are no loss. -/
theorem shrink (h : v.FilesIn P) (ho : ∀ k o, w.opens.get k = some o → v.opens.get k = some o)
    (hl : ∀ k l, w.locks.get k = some l → v.locks.get k = some l) : w.FilesIn P :=
  ⟨fun k o hk => h.opens k o (ho k o hk), fun k l hk => h.locks k l (hl k l hk)⟩

theorem putOpen (h : v.FilesIn P) {k : UInt64} {o : OpenState} (hopens : w.opens = v.opens.put k o)
    (hlocks : w.locks = v.locks) (ho : P o.fileId) : w.FilesIn P := by
  refine ⟨fun j p hj => ?_, fun j l hj => h.locks j l (hlocks ▸ hj)⟩
  rw [hopens, OrdMap.get_put] at hj
  split_ifs at hj
  · obtain rfl := Option.some.inj hj
    exact ho
  · exact h.opens j p hj

theorem putLock (h : v.FilesIn P) {k : UInt64} {l : LockState} (hopens : w.opens = v.opens)
    (hlocks : w.locks = v.locks.put k l) (hl : P l.fileId) : w.FilesIn P := by
  refine ⟨fun j p hj => h.opens j p (hopens ▸ hj), fun j p hj => ?_⟩
  rw [hlocks, OrdMap.get_put] at hj
  split_ifs at hj
  · obtain rfl := Option.some.inj hj
    exact hl
  · exact h.locks j p hj

theorem openFile (h : v.FilesIn P) {access deny : UInt32} {clientid : UInt64} {owner : Bytes} {fileId : UInt64}
    (hf : P fileId) : (v.openFile pos access deny clientid owner fileId).2.FilesIn P := by
  unfold NfsV4.openFile
  dsimp only
  split_ifs with hup
  · obtain ⟨o, ho, -⟩ := firstKey_spec hup
    rw [ho, Option.getD_some]
    exact h.putOpen rfl rfl (h.opens _ o ho)
  · exact h
  · exact h.putOpen rfl rfl hf

theorem lockFile (h : v.FilesIn P) {write : Bool} {off len clientid : UInt64} {owner : Bytes} {fileId : UInt64}
    (hf : P fileId) : (v.lockFile pos write off len clientid owner fileId).2.FilesIn P := by
  unfold NfsV4.lockFile ownLock
  split
  · exact h
  · dsimp only
    split_ifs with hlid
    · obtain ⟨l, hl, -⟩ := firstKey_spec hlid
      dsimp only
      rw [hl, Option.getD_some]
      exact h.putLock rfl rfl (h.locks _ l hl)
    · dsimp only
      rw [OrdMap.get_put, if_pos rfl, Option.getD_some, OrdMap.put_put]
      exact h.putLock rfl rfl hf

theorem opLock (h : v.FilesIn P) {locktype : UInt32} {off len : UInt64} {locker : Locker} {file : Option UInt64}
    (hf : ∀ f, file = some f → P f) : (v.opLock pos locktype off len locker file).2.FilesIn P := by
  cases file with
  | none =>
    cases locker with
    | new openSid clientid owner =>
      rw [NfsV4.opLock]
      split_ifs
      · exact h
      · exact h
    | existing sid => exact h
  | some fileId =>
    cases locker with
    | new openSid clientid owner =>
      rw [NfsV4.opLock]
      split_ifs
      · exact h
      · exact h.lockFile (hf fileId rfl)
    | existing sid =>
      rw [NfsV4.opLock]
      split
      · exact h
      · exact h.lockFile (hf fileId rfl)

theorem confirm (h : v.FilesIn P) (clientid verf : UInt64) : (v.opSetClientidConfirm pos clientid verf).2.FilesIn P := by
  rcases opSetClientidConfirm_cases pos v clientid verf with hv | ⟨r, -, -, -, hv⟩
  · rwa [hv]
  · rw [hv]
    exact h.shrink (fun k o ho => (dropLeases_opens_iff.mp ho).1) fun k l hl => (dropLeases_locks_iff.mp hl).1

/-- A request puts the file that it names into the tables, or none. -/
theorem step (h : v.FilesIn P) {i : WalkOrder × Req} (hi : ∀ f, i.2.file = some f → P f) : (v.step hash i).FilesIn P := by
  obtain ⟨pos, q⟩ := i
  show (v.exec hash pos q).2.FilesIn P
  cases q with
  | setClientid verifier id cbProgram cbNetid cbAddr cbIdent =>
    rw [exec, opSetClientid]
    dsimp only
    split_ifs
    · exact h.shrink (fun _ _ ho => ho) fun _ _ hl => hl
    · exact h.shrink (fun _ _ ho => ho) fun _ _ hl => hl
  | setClientidConfirm clientid verf => exact h.confirm clientid verf
  | openFile access deny clientid owner file =>
    rcases opOpen_cases pos v access deny clientid owner file with hv | ⟨fileId, hfile, -, hv⟩
    · rwa [exec, hv]
    · rw [exec, hv]
      refine h.openFile (hi fileId ?_)
      rw [hfile]
      rfl
  | openConfirm sid =>
    rw [exec, opOpenConfirm]
    split
    · exact h
    · next o ho => exact h.putOpen rfl rfl (h.opens _ o ho)
  | openDowngrade sid access deny =>
    rw [exec, opOpenDowngrade]
    split
    · exact h
    · next o ho => exact h.putOpen rfl rfl (h.opens _ o ho)
  | close sid =>
    rcases opClose_cases v sid with hv | hv
    · rwa [exec, hv]
    · rw [exec, hv]
      refine h.shrink (fun k o ho => ?_) fun _ _ hl => hl
      rw [OrdMap.get_del] at ho
      split_ifs at ho
      exact ho
  | lock locktype off len locker file => exact h.opLock hi
  | locku sid off len =>
    rw [exec, opLocku]
    split
    · exact h
    · next l hl => exact h.putLock rfl rfl (h.locks _ l hl)
  | releaseLockowner clientid owner =>
    refine h.shrink (fun _ _ ho => ho) fun k l hl => ?_
    rw [exec, opReleaseLockowner, OrdMap.get_filter] at hl
    exact hl.1
  | renew | lockt | read | write => exact h

end FilesIn

end NfsV4

namespace Server

variable {h : Host} {hash : Bytes → UInt64} {s t : Server}

/-- However connections interleave, every open and every lock is of a file that a live handle reaches, whatever has been
removed since. -/
theorem traffic_open_files {fs : PrfsStore} (hs : PrfsStore.Run .empty fs) (ht : Traffic h hash { fs } t) :
    (∀ k o, t.v.opens.get k = some o → t.fs.nodeById o.fileId LATEST = some ⟨o.fileId, LATEST⟩) ∧
    ∀ k l, t.v.locks.get k = some l → t.fs.nodeById l.fileId LATEST = some ⟨l.fileId, LATEST⟩ := by
  have hinv : t.fs.Sound ∧ t.v.FilesIn t.fs.Given := by
    refine Reaches.invariant (P := fun t : Server => t.fs.Sound ∧ t.v.FilesIn t.fs.Given) ?_
      ⟨hs.sound, NfsV4.filesIn_empty⟩ ht
    rintro u turn ⟨hu, hfiles⟩ hf
    have hrun := (@step_does h hash u turn hf).run
    obtain ⟨i, hv, hgiven⟩ := @step_request h hash u turn
    refine ⟨hu.run hrun, ?_⟩
    rw [hv]
    exact (hfiles.mono fun f hf => (hu.run_sameNodes hrun).given hf).step (hgiven hu hf)
  obtain ⟨hts, hfiles⟩ := hinv
  exact ⟨fun k o ho => hts.nodeById_live.mpr (hfiles.opens k o ho), fun k l hl => hts.nodeById_live.mpr (hfiles.locks k l hl)⟩

set_option maxRecDepth 4000 in
/-- A COMPOUND that registers a client and opens the new file "a" of the root. -/
def openA : Msg :=
  let header : List UInt32 := [7, RPC_CALL, 2, PROG_NFS, NfsV4.NFS_V4, 1, 0, 0, 0, 0, 0, 0, 4, 35]
  let w : Writer := (((((((header.foldl Writer.u32 {}).u64 7).str [67]).u32 0).str []).str []).u32 0)
  let w := (((w.u32 36).u64 1).u64 (viewFileid (1 ^^^ 7) 0)).u32 24
  let w := ((([18, 0, 3, 0] : List UInt32).foldl Writer.u32 w).u64 1).str [65]
  let w := (([1, 0, 0, 0, 0] : List UInt32).foldl Writer.u32 w).str [97]
  ⟨w.v, fun _ => 0, by decide⟩

/-- The file is removed while it is open. -/
def openedTurns : List Turn :=
  .call 0 openA :: List.replicate 4 (.operation 0 (fun _ => 0)) ++ [.direct (.unlink ⟨1, LATEST⟩ [97])]

set_option maxRecDepth 20000 in
theorem traffic_open_files_removed :
    let t := ({ fs := .empty } : Server).after {} (fun _ => 0) openedTurns
    t.fs.readdir ⟨1, LATEST⟩ = [] ∧ t.fs.nodeById 2 LATEST = some ⟨2, LATEST⟩ := by
  have ht : Traffic {} (fun _ => 0) { fs := .empty } (({ fs := .empty } : Server).after {} (fun _ => 0) openedTurns) :=
    traffic_after (by decide)
  obtain ⟨o, ho, hfile⟩ : ∃ o, (({ fs := .empty } : Server).after {} (fun _ => 0) openedTurns).v.opens.get 1 = some o ∧
      o.fileId = 2 := ⟨_, rfl, by decide⟩
  refine ⟨by decide, ?_⟩
  rw [← hfile]
  exact (traffic_open_files .refl ht).1 1 o ho

end Server

end Prfs
