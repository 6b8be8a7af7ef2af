import Prfs.ChangeIds
import Prfs.StoreGrowth

namespace Prfs

namespace NfsV4

open PrfsStore (Does)

/-- The name that an operation makes an entry of. -/
def boundName (m : Msg) (r : Reader) : Op4 → Option Bytes
  | .create => some (readCreate m r).1.2.2.2.2
  | .openFile => some (Call4.openedName m r)
  | .rename => some ((r.str m).2.str m).1
  | .link => some (r.str m).1
  | _ => none

section Fattrs

variable {s fs : PrfsStore} {N : Option Bytes} {m : Msg} {r : Reader} {n : Node}

theorem setAttrs_does (hd : Does N s fs) (n : Node) (as : List Setter) : Does N s (fs.setAttrs n as) := hd.sets ⟨as, rfl⟩

theorem createNode_does {type : UInt32} {linkdata : Bytes} {maj min : UInt32} {x : Node × PrfsStore}
    (h : createNode fs type linkdata maj min = some x) (hs : fs.next < SNAP_BIT) : Does N fs x.2 := by
  have h0 : Does N fs fs := .refl
  have hdev : ∀ t, Does N fs (fs.mknod t maj min).2 := fun t => h0.op (.mknod t maj min) hs (.inl rfl)
  unfold createNode at h
  split at h
  · obtain rfl := Option.some.inj h
    exact h0.mkdir hs
  · obtain rfl := Option.some.inj h
    exact h0.op (.symlink linkdata) hs (.inl rfl)
  · obtain rfl := Option.some.inj h
    exact hdev .BLK
  · obtain rfl := Option.some.inj h
    exact hdev .CHR
  · obtain rfl := Option.some.inj h
    exact h0.mksock hs
  · obtain rfl := Option.some.inj h
    exact h0.mkfifo hs
  · cases h

end Fattrs

/-- The file that a request names. -/
def Req.file : Req → Option UInt64
  | .openFile _ _ _ _ (.ok fileId) => some fileId
  | .lock _ _ _ _ file => file
  | _ => none

/-- A request that leaves the tables as they are. -/
def Req.idle : Req := .renew 0

namespace Call4

variable {c : Call4} {m : Msg} {pos : WalkOrder} {N : Option Bytes}

theorem exit_does {c' : Call4} {st : Nfsstat4} (hc : c'.fs = c.fs) : Does N c.fs (c'.exit st).2.fs := by
  rw [exit_fs, hc]
  exact .refl

theorem opWrite_does : Does N c.fs (c.opWrite live m).2.fs := by
  unfold opWrite
  dsimp only
  split
  · exact exit_does rfl
  · next n hn =>
    split
    · exact exit_does rfl
    · split
      · exact exit_does rfl
      · split
        · exact exit_does rfl
        · have hdata : ∀ off data, Does N c.fs (writeData c.fs n off data) := .writeData .refl n
          rw [exitWith_fs]
          dsimp only
          exact hdata _ _

theorem opSetattr_does : Does N c.fs (c.opSetattr live m).2.fs := by
  rcases @opSetattr_cases c live m with ⟨n, -, -, hx, -⟩ | ⟨-, hx⟩
  · have hset : ∀ as, Does N c.fs (c.fs.setAttrs n as) := setAttrs_does .refl n
    rw [hx.fs, applyFattr4_setAttrs]
    split_ifs
    · exact (hset _).setAttr n _
    · exact hset _
  · rw [hx.fs]
    exact .refl

theorem opCreate_does (hs : c.fs.next < SNAP_BIT) : Does (boundName m c.r .create) c.fs (c.opCreate live m).2.fs := by
  unfold opCreate boundName
  dsimp only
  split
  · exact exit_does rfl
  · next dir hdir =>
    split
    · exact exit_does rfl
    · split
      · exact exit_does rfl
      · split
        · exact exit_does rfl
        · next child fs hmade =>
          have hnew : Does (some (readCreate m c.r).1.2.2.2.2) c.fs fs := createNode_does hmade hs
          have hlink := hnew.link dir child
          split
          · next fs' heq =>
            rw [heq] at hlink
            rw [exitWith_fs]
            dsimp only
            rw [applyFattr4_setAttrs]
            exact (setAttrs_does hlink child _).touchDir dir
          · next e fs' hne heq =>
            rw [heq] at hlink
            rw [exit_fs]
            exact hlink

theorem opRemove_does : Does N c.fs (c.opRemove live m).2.fs := by
  unfold opRemove
  dsimp only
  split
  · exact exit_does rfl
  · next dir hdir =>
    have hun : Does N c.fs (c.fs.unlink dir (c.r.str m).1).2 := .unlink .refl dir _
    split
    · exact exit_does rfl
    · split
      · exact exit_does rfl
      · split
        · exact exit_does rfl
        · split
          · next fs heq =>
            rw [heq] at hun
            rw [exitWith_fs]
            exact hun.touchDir dir
          · next e fs hne heq =>
            rw [heq] at hun
            rw [exit_fs]
            exact hun

theorem opRename_does : Does (boundName m c.r .rename) c.fs (c.opRename live m).2.fs := by
  rcases @opRename_cases c live m with ⟨s, d, sdir, ddir, -, -, -, hx⟩ | ⟨_, _, _, _, -, -, hx⟩ | ⟨-, hx | hx⟩
  · have hmove : Does (boundName m c.r .rename) c.fs
        (c.fs.move sdir (c.r.str m).1 ddir ((c.r.str m).2.str m).1).2 := .move .refl sdir ddir _
    rw [hx.fs]
    split_ifs
    · exact (hmove.touchDir sdir).touchDir ddir
    · exact hmove
  · rw [hx.fs]
    exact .refl
  · rw [hx.fs]
    exact .refl
  · rw [hx.fs]
    exact .refl

theorem opLink_does : Does (boundName m c.r .link) c.fs (c.opLink live m).2.fs := by
  rcases @opLink_cases c live m with ⟨s, d, file, dir, -, -, -, hx⟩ | ⟨_, _, _, _, -, -, -, hx⟩ | ⟨-, hx | hx⟩
  · have hlink : Does (boundName m c.r .link) c.fs (c.fs.link dir (c.r.str m).1 file).2 := .link .refl dir file
    rw [hx.fs]
    split_ifs
    · exact hlink.touchDir dir
    · exact hlink
  · rw [hx.fs]
    exact .refl
  · rw [hx.fs]
    exact .refl
  · rw [hx.fs]
    exact .refl

/-- The file that an OPEN comes to in the store `fs`: what the name stands for, or a new one. -/
def OpensFile (s : PrfsStore) (dir : Node) (name : Bytes) (fs : PrfsStore) (child : Node) : Prop :=
  s.lookup dir name = some child ∧ fs = s ∨ child = (s.mkfile []).1 ∧ Does (some name) (s.mkfile []).2 fs

theorem openName_cases {access deny : UInt32} {clientid : UInt64} {owner : Bytes} {how : OpenHow} {dir : Node}
    {name : Bytes} : (∃ fs st, (fs = c.fs ∨ Does (some name) (c.fs.mkfile []).2 fs) ∧
      c.openName pos m access deny clientid owner how dir name = { c with fs }.exit st) ∨
    ∃ fs before created child, OpensFile c.fs dir name fs child ∧ c.openName pos m access deny clientid owner how dir name =
      { c with fs }.openState pos access deny clientid owner dir before created child := by
  unfold openName
  dsimp only
  split
  · split
    · exact .inl ⟨_, _, .inl rfl, rfl⟩
    · have hnew : Does (some name) (c.fs.mkfile []).2 (c.fs.mkfile []).2 := .refl
      have hlink := hnew.link dir (c.fs.mkfile []).1
      split
      · next fs heq =>
        rw [heq] at hlink
        refine .inr ⟨_, _, _, _, .inr ⟨rfl, ?_⟩, rfl⟩
        split
        · rw [applyFattr4_setAttrs]
          exact (setAttrs_does hlink _ _).touchDir dir
        · exact hlink.touchDir dir
      · next e fs hne heq =>
        rw [heq] at hlink
        exact .inl ⟨_, _, .inr hlink, rfl⟩
  · next child hchild =>
    split
    · exact .inl ⟨_, _, .inl rfl, rfl⟩
    · exact .inr ⟨_, _, _, _, .inl ⟨hchild, rfl⟩, rfl⟩

/-- An OPEN fails on its arguments, or goes on to the name in a directory for a confirmed client. -/
theorem opOpen_cases : (∃ r st, c.opOpen live pos m = { c with r }.exit st) ∨
    ∃ r access deny clientid owner how dir, c.v.clientConfirmed clientid = true ∧ c.cur = some dir ∧
      c.opOpen live pos m = { c with r }.openName pos m access deny clientid owner how dir (openedName m c.r) := by
  unfold opOpen
  dsimp only [openedName, openOwner]
  split
  · exact .inl ⟨_, _, rfl⟩
  next hconf =>
  split
  · exact .inl ⟨_, _, rfl⟩
  split
  · exact .inl ⟨_, _, rfl⟩
  split
  · exact .inl ⟨_, _, rfl⟩
  next dir hdir =>
  split
  · exact .inl ⟨_, _, rfl⟩
  split
  · exact .inl ⟨_, _, rfl⟩
  rw [cur_r] at hdir
  refine .inr ⟨_, _, _, _, _, _, dir, ?_, hdir, rfl⟩
  simpa using hconf

theorem does_of_mkfile {fs fs' : PrfsStore} {name : Bytes} (hs : fs.next < SNAP_BIT)
    (hd : Does (some name) (fs.mkfile []).2 fs') : Does (some name) fs fs' := by
  have hnew : Does (some name) fs (fs.mkfile []).2 := .mkfile .refl hs
  exact Reaches.trans hnew hd

theorem opOpen_does (hs : c.fs.next < SNAP_BIT) :
    Does (boundName m c.r .openFile) c.fs (c.opOpen live pos m).2.fs := by
  rcases @opOpen_cases c m pos with ⟨r, st, hx⟩ | ⟨r, access, deny, clientid, owner, how, dir, -, -, hx⟩
  · rw [hx]
    exact exit_does rfl
  · rw [hx, boundName]
    rcases @openName_cases { c with r } m pos access deny clientid owner how dir (openedName m c.r) with
      ⟨fs, st, hfs, hx⟩ | ⟨fs, before, created, child, hfile, hx⟩
    · rw [hx, exit_fs]
      rcases hfs with rfl | hfs
      · exact .refl
      · exact does_of_mkfile hs hfs
    · rw [hx, openState_fs]
      rcases hfile with ⟨-, rfl⟩ | ⟨-, hfs⟩
      · exact .refl
      · exact does_of_mkfile hs hfs

/-- An operation runs public operations of the store, and makes entries of the name in its arguments only. -/
theorem runOp_does (hs : c.fs.next < SNAP_BIT) {h : Host} {hash : Bytes → UInt64} (o : Op4) :
    Does (boundName m c.r o) c.fs (c.runOp live hash pos m h o).2.fs := by
  by_cases ho : writesStore o = false
  · rw [runOp_fs_of_reads ho]
    exact .refl
  · cases o with
    | openFile =>
      rw [runOp]
      exact opOpen_does hs
    | write =>
      rw [runOp]
      exact opWrite_does
    | setattr =>
      rw [runOp]
      exact opSetattr_does
    | create =>
      rw [runOp]
      exact opCreate_does hs
    | remove =>
      rw [runOp]
      exact opRemove_does
    | rename =>
      rw [runOp]
      exact opRename_does
    | link =>
      rw [runOp]
      exact opLink_does
    | _ => exact absurd rfl ho

theorem doOp_does (hs : c.fs.next < SNAP_BIT) (h : Host) (hash : Bytes → UInt64) (op : UInt32) :
    Does ((Op4.ofCode op).bind (boundName m c.r)) c.fs (c.doOp hash pos m h op).2.fs := by
  unfold doOp
  dsimp only
  cases Op4.ofCode op with
  | none => exact exit_does rfl
  | some o => exact @runOp_does { c with w := c.w.u32 op } m pos hs h hash o

section Tables

variable {h : Host} {hash : Bytes → UInt64}

/-- An operation acts on the tables as the request does, whose file is there afterwards. -/
structure Makes (hash : Bytes → UInt64) (pos : WalkOrder) (c : Call4) (x : Out4) (q : Req) : Prop where
  v : x.2.v = (c.v.exec hash pos q).2
  file : c.fs.Sound → c.fs.next < SNAP_BIT → ∀ f, q.file = some f → x.2.fs.Given f

theorem makes_idle {x : Out4} (hv : x.2.v = c.v) : Makes hash pos c x .idle := ⟨hv, fun _ _ _ hf => by cases hf⟩

/-- A request that names no file. -/
theorem makes_of_none {x : Out4} {q : Req} (hv : x.2.v = (c.v.exec hash pos q).2) (hq : q.file = none) :
    Makes hash pos c x q := ⟨hv, fun _ _ f hf => by rw [hq] at hf; cases hf⟩

theorem openState_v {access deny : UInt32} {clientid : UInt64} {owner : Bytes} {dir child : Node} {before : UInt64}
    {created : Bool} : (c.openState pos access deny clientid owner dir before created child).2.v =
      (c.v.openFile pos access deny clientid owner child.id).2 := by
  unfold openState
  dsimp only
  split
  · next sid rflags v heq => simp [heq]
  · next x v hne heq => simp [heq]

theorem OpensFile.given {s fs : PrfsStore} {dir child : Node} {name : Bytes} (hfile : OpensFile s dir name fs child)
    (hs : s.Sound) (hn : s.next < SNAP_BIT) (hdir : s.nodeById dir.id dir.snap = some dir) : fs.Given child.id := by
  rcases hfile with ⟨hlook, rfl⟩ | ⟨rfl, hd⟩
  · exact hs.given_of_lookup (hs.given_of_nodeById hdir) hlook
  · have hmade : (s.mkfile []).2.Sound := @PrfsStore.Sound.exec s hs (.mkfile []) hn
    have hgrow := hmade.run_sameNodes hd.run
    exact hgrow.given (hs.given_alloc hn .REG [] 0)

theorem opOpen_request : ∃ q, Makes hash pos c (c.opOpen live pos m) q := by
  rcases @opOpen_cases c m pos with ⟨r, st, hx⟩ | ⟨r, access, deny, clientid, owner, how, dir, hconf, hdir, hx⟩
  · refine ⟨.idle, makes_idle ?_⟩
    rw [hx, exit_v]
  · rw [hx]
    rcases @openName_cases { c with r } m pos access deny clientid owner how dir (openedName m c.r) with
      ⟨fs, st, -, hx⟩ | ⟨fs, before, created, child, hfile, hx⟩
    · refine ⟨.idle, makes_idle ?_⟩
      rw [hx, exit_v]
    · refine ⟨.openFile access deny clientid owner (.ok child.id), ?_, fun hs hn f hf => ?_⟩
      · rw [hx, openState_v, exec, NfsV4.opOpen, hconf]
        rfl
      · obtain rfl : child.id = f := Option.some.inj hf
        rw [hx, openState_fs]
        exact hfile.given hs hn (cur_nodeById hdir)

/-- The operations that write the store make no request of the tables. -/
theorem runOp_v_of_writes {o : Op4} (ho : writesStore o = true) (hopen : o ≠ .openFile) :
    (c.runOp live hash pos m h o).2.v = c.v := by
  cases o with
  | openFile => exact absurd rfl hopen
  | write =>
    rw [runOp, opWrite]
    dsimp only
    split
    · rw [exit_v]
    · split_ifs
      · rw [exit_v]
      · rw [exit_v]
      · split
        · rw [exit_v]
        · rw [exitWith_v]
  | setattr =>
    rw [runOp]
    rcases @opSetattr_cases c live m with ⟨n, -, -, hx, -⟩ | ⟨-, hx⟩ <;> exact hx.v
  | create =>
    rw [runOp, opCreate]
    dsimp only
    split
    · rw [exit_v]
    · split_ifs
      · rw [exit_v]
      · rw [exit_v]
      · split
        · rw [exit_v]
        · split
          · rw [exitWith_v]
          · rw [exit_v]
  | remove =>
    rw [runOp, opRemove]
    dsimp only
    split
    · rw [exit_v]
    · split_ifs
      · rw [exit_v]
      · rw [exit_v]
      · rw [exit_v]
      · split
        · rw [exitWith_v]
        · rw [exit_v]
  | rename =>
    rw [runOp]
    rcases @opRename_cases c live m with ⟨s, d, sdir, ddir, -, -, -, hx⟩ | ⟨_, _, _, _, -, -, hx⟩ | ⟨-, hx | hx⟩ <;>
      exact hx.v
  | link =>
    rw [runOp]
    rcases @opLink_cases c live m with ⟨s, d, file, dir, -, -, -, hx⟩ | ⟨_, _, _, _, -, -, -, hx⟩ | ⟨-, hx | hx⟩ <;>
      exact hx.v
  | _ => simp [writesStore] at ho

/-- An operation acts on the tables as one request does. -/
theorem runOp_request (o : Op4) : ∃ q, Makes hash pos c (c.runOp live hash pos m h o) q := by
  cases o with
  | openFile =>
    rw [runOp]
    exact opOpen_request
  | write | setattr | create | remove | rename | link => exact ⟨.idle, makes_idle (runOp_v_of_writes rfl (by simp))⟩
  | access | commit | getattr | getfh | lookup | lookupp | putfh | putpubfh | putrootfh | read | readdir | restorefh
    | savefh => exact ⟨.idle, makes_idle (runOp_quiet rfl).v⟩
  | readlink =>
    refine ⟨.idle, makes_idle ?_⟩
    rw [runOp, opReadlink]
    split
    · rw [exit_v]
    · split
      · rw [exit_v]
      · rw [exitWith_v]
  | setclientid =>
    rw [runOp, opSetClientid]
    dsimp only
    split
    · refine ⟨.idle, makes_idle ?_⟩
      rw [exit_v]
    · have hall : ∀ verifier id cbProgram cbNetid cbAddr cbIdent r, ∃ q, Makes hash pos c (exitReply { c with r }
          (c.v.opSetClientid hash pos verifier id cbProgram cbNetid cbAddr cbIdent)) q :=
        fun verifier id cbProgram cbNetid cbAddr cbIdent r =>
          ⟨.setClientid verifier id cbProgram cbNetid cbAddr cbIdent, makes_of_none (exitReply_v _ _) rfl⟩
      exact hall _ _ _ _ _ _ _
  | setclientidConfirm =>
    have hall : ∀ clientid confirm r, ∃ q, Makes hash pos c (exitReply { c with r } (c.v.opSetClientidConfirm pos clientid confirm)) q :=
      fun clientid confirm r => ⟨.setClientidConfirm clientid confirm, makes_of_none (exitReply_v _ _) rfl⟩
    rw [runOp, opSetClientidConfirm]
    exact hall _ _ _
  | renew =>
    refine ⟨.idle, makes_idle ?_⟩
    rw [runOp, opRenew, exitReply_v]
  | openConfirm =>
    have hall : ∀ sid r, ∃ q, Makes hash pos c (exitReply { c with r } (c.v.opOpenConfirm sid)) q :=
      fun sid r => ⟨.openConfirm sid, makes_of_none (exitReply_v _ _) rfl⟩
    rw [runOp, opOpenConfirm]
    exact hall _ _
  | openDowngrade =>
    have hall : ∀ sid access deny r, ∃ q, Makes hash pos c (exitReply { c with r } (c.v.opOpenDowngrade sid access deny)) q :=
      fun sid access deny r => ⟨.openDowngrade sid access deny, makes_of_none (exitReply_v _ _) rfl⟩
    rw [runOp, opOpenDowngrade]
    exact hall _ _ _ _
  | close =>
    have hall : ∀ sid r, ∃ q, Makes hash pos c (exitReply { c with r } (c.v.opClose sid)) q :=
      fun sid r => ⟨.close sid, makes_of_none (exitReply_v _ _) rfl⟩
    rw [runOp, opClose]
    exact hall _ _
  | lock =>
    have hall : ∀ lt off len locker r, ∃ q,
        Makes hash pos c (exitReply { c with r } (c.v.opLock pos lt off len locker (c.cur.map Node.id))) q := by
      intro lt off len locker r
      refine ⟨.lock lt off len locker (c.cur.map Node.id), exitReply_v _ _, fun hs _ f hf => ?_⟩
      obtain ⟨n, hn, rfl⟩ := Option.map_eq_some_iff.mp hf
      exact hs.given_of_nodeById (cur_nodeById hn)
    rw [runOp, opLock]
    exact hall _ _ _ _ _
  | lockt =>
    refine ⟨.idle, makes_idle ?_⟩
    rw [runOp, opLockt, exitReply_v]
  | locku =>
    have hall : ∀ sid off len r, ∃ q, Makes hash pos c (exitReply { c with r } (c.v.opLocku sid off len)) q :=
      fun sid off len r => ⟨.locku sid off len, makes_of_none (exitReply_v _ _) rfl⟩
    rw [runOp, opLocku]
    exact hall _ _ _ _
  | releaseLockowner =>
    have hall : ∀ clientid owner r, ∃ q, Makes hash pos c (exitReply { c with r } (c.v.opReleaseLockowner clientid owner)) q :=
      fun clientid owner r => ⟨.releaseLockowner clientid owner, makes_of_none (exitReply_v _ _) rfl⟩
    rw [runOp, opReleaseLockowner]
    exact hall _ _ _

theorem doOp_request (op : UInt32) : ∃ q, Makes hash pos c (c.doOp hash pos m h op) q := by
  unfold doOp
  dsimp only
  cases Op4.ofCode op with
  | none => exact ⟨.idle, makes_idle rfl⟩
  | some o =>
    obtain ⟨q, hv, hfile⟩ := @runOp_request { c with w := c.w.u32 op } m pos h hash o
    exact ⟨q, hv, hfile⟩

end Tables

end Call4

end NfsV4

end Prfs
