import Prfs.Nfs4Compound

namespace Prfs

namespace NfsV4

section Writers

variable {w w' : Writer}

theorem pre_changeInfo (h : w.Pre w') (before after : UInt64) : w.Pre (changeInfo w' before after) :=
  ((h.u32 _).u64 _).u64 _

theorem pre_writeStateid (h : w.Pre w') (s : Stateid) : w.Pre (writeStateid w' s) := ((h.u32 _).u64 _).u32 _

theorem pre_encodeFattr4 (h : w.Pre w') (fs : PrfsStore) (req : List UInt32) (n : Node) (id snap : UInt64) :
    w.Pre (encodeFattr4 fs w' req n id snap) :=
  (((h.u32 _).u32 _).u32 _).bytes _

theorem pre_encodeBody (h : w.Pre w') (b : Body4) : w.Pre (encodeBody b w') := by
  cases b with
  | none => exact h
  | clientid id confirm => exact (h.u64 _).u64 _
  | stateid sid => exact pre_writeStateid h sid
  | opened sid rflags => exact (pre_writeStateid h sid).u32 _
  | denied rg clientid owner => exact ((((h.u64 _).u64 _).u32 _).u64 _).str _

end Writers

/-- The result of an operation: the status it returns, and behind it what else it has to say. -/
def Answers (c : Call4) (x : Out4) : Prop := (c.w.u32 x.1.code).Pre x.2.w

namespace Call4

variable {c c' : Call4} {st : Nfsstat4}

theorem exit_answers (hw : c'.w = c.w) : Answers c (c'.exit st) := by
  rw [Answers, exit, hw]
  exact .refl _

theorem exitWith_answers (hw : c'.w = c.w) {body : Writer → Writer} (hb : ∀ w : Writer, w.Pre (body w)) :
    Answers c (c'.exitWith st body) := by
  rw [Answers, exitWith, hw]
  exact hb _

theorem exitReply_answers (hw : c'.w = c.w) {x : Reply4 × NfsV4} : Answers c (c'.exitReply x) :=
  exitWith_answers hw fun w => pre_encodeBody (.refl w) _

theorem listEntries_pre {fs : PrfsStore} {req : List UInt32} {mx : Nat} {es : List (Bytes × Node)} {l : Listing}
    {w : Writer} (h : w.Pre l.w) : w.Pre (listEntries fs req mx es l).2.w := by
  induction es generalizing l with
  | nil => exact h
  | cons e es ih =>
    rw [listEntries]
    split_ifs
    · exact h
    · exact ih ((h.u32 1).append _)

theorem listPages_pre {fs : PrfsStore} {dir : Node} {req : List UInt32} {mx fuel : Nat} {after : Bytes} {l : Listing}
    {w : Writer} (h : w.Pre l.w) : w.Pre (listPages fs dir req mx fuel after l).2.w := by
  induction fuel generalizing after l with
  | zero => exact h
  | succ fuel ih =>
    have hes := @listEntries_pre fs req mx (fs.readdirPage dir after 512).entries l w h
    rw [listPages]
    split
    · next l' hl => rwa [hl] at hes
    · next l' hl =>
      rw [hl] at hes
      split_ifs
      · exact hes
      · exact ih hes

theorem listFrom_answers (hw : c'.w = c.w) {dir : Node} {req : List UInt32} {mx : Nat} {after : Bytes} :
    Answers c (c'.listFrom dir req mx after) := by
  have hl := @listPages_pre c'.fs dir req mx (pageFuel c'.fs dir) after
    { w := zeros8 (c'.w.u32 Nfsstat4.ok.code), ckName := c'.ckName } (c.w.u32 Nfsstat4.ok.code)
    (by rw [hw]; exact (Writer.Pre.refl _).append _)
  exact (hl.u32 0).u32 _

theorem lookupIn_answers (hw : c'.w = c.w) {step : Node → Option Node} : Answers c (c'.lookupIn step) := by
  unfold lookupIn enter
  split
  · exact exit_answers (by exact hw)
  · split_ifs
    · exact exit_answers (by exact hw)
    · split
      · exact exit_answers (by exact hw)
      · exact exit_answers (by exact hw)

theorem openState_answers (hw : c'.w = c.w) {pos : WalkOrder} {access deny : UInt32} {clientid : UInt64} {owner : Bytes}
    {dir : Node} {before : UInt64} {created : Bool} {child : Node} :
    Answers c (c'.openState pos access deny clientid owner dir before created child) := by
  unfold openState
  dsimp only
  split
  · exact exitWith_answers (by exact hw) fun w =>
      ((((pre_changeInfo (pre_writeStateid (.refl w) _) _ _).u32 _).u32 _).u32 _).u32 _ |>.u32 _
  · exact exit_answers (by exact hw)

theorem openName_answers (hw : c'.w = c.w) {pos : WalkOrder} {m : Msg} {access deny : UInt32} {clientid : UInt64}
    {owner : Bytes} {how : OpenHow} {dir : Node} {name : Bytes} :
    Answers c (c'.openName pos m access deny clientid owner how dir name) := by
  unfold openName
  dsimp only
  split
  · split_ifs
    · exact exit_answers (by exact hw)
    · split
      · exact openState_answers (by exact hw)
      · exact exit_answers (by exact hw)
  · split_ifs
    · exact exit_answers (by exact hw)
    · exact openState_answers (by exact hw)

theorem opOpen_answers {isLive : UInt64 → Bool} {pos : WalkOrder} {m : Msg} : Answers c (c.opOpen isLive pos m) := by
  unfold opOpen
  dsimp only
  split
  · exact exit_answers (by rfl)
  · split
    · exact exit_answers (by rfl)
    · split
      · exact exit_answers (by rfl)
      · split
        · exact exit_answers (by rfl)
        · split
          · exact exit_answers (by rfl)
          · split
            · exact exit_answers (by rfl)
            · exact openName_answers (by rfl)

section Ops

variable {isLive : UInt64 → Bool} {m : Msg}

theorem opRead_answers {h : Host} : Answers c (c.opRead h m) := by
  unfold opRead
  dsimp only
  split
  · exact exit_answers (by rfl)
  · split
    · exact exit_answers (by rfl)
    · split
      · exact exit_answers (by rfl)
      · exact exitWith_answers (by rfl) fun w => ((Writer.Pre.refl w).u32 _).bytes _

theorem opReaddir_answers : Answers c (c.opReaddir m) := by
  unfold opReaddir
  dsimp only
  split
  · exact exit_answers (by rfl)
  · split
    · exact exit_answers (by rfl)
    · split
      · exact listFrom_answers (by rfl)
      · split
        · exact exit_answers (by rfl)
        · exact listFrom_answers (by rfl)

theorem opWrite_answers : Answers c (c.opWrite isLive m) := by
  unfold opWrite
  dsimp only
  split
  · exact exit_answers (by rfl)
  · split
    · exact exit_answers (by rfl)
    · split
      · exact exit_answers (by rfl)
      · split
        · exact exit_answers (by rfl)
        · exact exitWith_answers (by rfl) fun w => (((Writer.Pre.refl w).u32 _).u32 _).append _

theorem opSetattr_answers : Answers c (c.opSetattr isLive m) := by
  unfold opSetattr
  dsimp only
  split
  · exact exit_answers (by rfl)
  · split
    · exact exitWith_answers (by rfl) fun w => (Writer.Pre.refl w).u32 _
    · exact exitWith_answers (by rfl) fun w => (Writer.Pre.refl w).u32 _

theorem opCreate_answers : Answers c (c.opCreate isLive m) := by
  unfold opCreate
  dsimp only
  split
  · exact exit_answers (by rfl)
  · split
    · exact exit_answers (by rfl)
    · split
      · exact exit_answers (by rfl)
      · split
        · exact exit_answers (by rfl)
        · split
          · exact exitWith_answers (by rfl) fun w => (((pre_changeInfo (.refl w) _ _).u32 _).u32 _).u32 _
          · exact exit_answers (by rfl)

theorem opRemove_answers : Answers c (c.opRemove isLive m) := by
  unfold opRemove
  dsimp only
  split
  · exact exit_answers (by rfl)
  · split
    · exact exit_answers (by rfl)
    · split
      · exact exit_answers (by rfl)
      · split
        · exact exit_answers (by rfl)
        · split
          · exact exitWith_answers (by rfl) fun w => pre_changeInfo (.refl w) _ _
          · exact exit_answers (by rfl)

theorem opRename_answers : Answers c (c.opRename isLive m) := by
  unfold opRename
  dsimp only
  split
  · split
    · split
      · exact exit_answers (by rfl)
      · split
        · exact exitWith_answers (by rfl) fun w => pre_changeInfo (pre_changeInfo (.refl w) _ _) _ _
        · exact exit_answers (by rfl)
    · exact exit_answers (by rfl)
  · exact exit_answers (by rfl)

theorem opLink_answers : Answers c (c.opLink isLive m) := by
  unfold opLink
  dsimp only
  split
  · split
    · split
      · exact exit_answers (by rfl)
      · split
        · exact exit_answers (by rfl)
        · split
          · exact exitWith_answers (by rfl) fun w => pre_changeInfo (.refl w) _ _
          · exact exit_answers (by rfl)
    · exact exit_answers (by rfl)
  · exact exit_answers (by rfl)

/-- Every operation writes the status it returns, and nothing before it. -/
theorem runOp_answers {hash : Bytes → UInt64} {pos : WalkOrder} {h : Host} (o : Op4) :
    Answers c (c.runOp isLive hash pos m h o) := by
  cases o with
  | putrootfh => exact exit_answers (by rfl)
  | putpubfh => exact exit_answers (by rfl)
  | putfh =>
    simp only [runOp, opPutfh]
    split <;> exact exit_answers (by rfl)
  | savefh =>
    simp only [runOp, opSavefh]
    split <;> exact exit_answers (by rfl)
  | restorefh =>
    simp only [runOp, opRestorefh]
    split <;> exact exit_answers (by rfl)
  | getfh =>
    simp only [runOp, opGetfh]
    split
    · exact exit_answers (by rfl)
    · exact exitWith_answers (by rfl) fun w => (Writer.Pre.refl w).fh _ _
  | lookup =>
    simp only [runOp, opLookup]
    exact lookupIn_answers (by rfl)
  | lookupp =>
    simp only [runOp, opLookupp]
    exact lookupIn_answers (by rfl)
  | access =>
    simp only [runOp, opAccess]
    split
    · exact exit_answers (by rfl)
    · exact exitWith_answers (by rfl) fun w => ((Writer.Pre.refl w).u32 _).u32 _
  | getattr =>
    simp only [runOp, opGetattr]
    split
    · exact exit_answers (by rfl)
    · exact exitWith_answers (by rfl) fun w => pre_encodeFattr4 (.refl w) _ _ _ _ _
  | readlink =>
    simp only [runOp, opReadlink]
    split
    · exact exit_answers (by rfl)
    · split
      · exact exit_answers (by rfl)
      · exact exitWith_answers (by rfl) fun w => (Writer.Pre.refl w).str _
  | read =>
    simp only [runOp]
    exact opRead_answers
  | readdir =>
    simp only [runOp]
    exact opReaddir_answers
  | openFile =>
    simp only [runOp]
    exact opOpen_answers
  | setclientid =>
    simp only [runOp, opSetClientid]
    split
    · exact exit_answers (by rfl)
    · exact exitReply_answers (by rfl)
  | write =>
    simp only [runOp]
    exact opWrite_answers
  | setattr =>
    simp only [runOp]
    exact opSetattr_answers
  | create =>
    simp only [runOp]
    exact opCreate_answers
  | remove =>
    simp only [runOp]
    exact opRemove_answers
  | rename =>
    simp only [runOp]
    exact opRename_answers
  | link =>
    simp only [runOp]
    exact opLink_answers
  | commit =>
    simp only [runOp, opCommit]
    exact exitWith_answers (by rfl) fun w => (Writer.Pre.refl w).append _
  | openConfirm | openDowngrade | close | lock | lockt | locku | renew | setclientidConfirm | releaseLockowner =>
    simp only [runOp, opOpenConfirm, opOpenDowngrade, opClose, opLock, opLockt, opLocku, opRenew, opSetClientidConfirm,
      opReleaseLockowner]
    exact exitReply_answers (by rfl)

/-- The bytes one operation adds: its number, the status it returns, and the rest of its result. -/
theorem doOp_result {hash : Bytes → UInt64} {pos : WalkOrder} {h : Host} (op : UInt32) :
    ∃ body, (c.doOp hash pos m h op).2.w.v = c.w.v ++ (word op ++ word (c.doOp hash pos m h op).1.code ++ body) := by
  have ha : Answers { c with w := c.w.u32 op } (c.doOp hash pos m h op) := by
    unfold doOp
    dsimp only
    split
    · exact runOp_answers _
    · exact exit_answers (by rfl)
  obtain ⟨body, hb⟩ := ha
  refine ⟨body, ?_⟩
  rw [← hb]
  simp [Writer.u32, Writer.append]

end Ops

end Call4

end NfsV4

end Prfs
