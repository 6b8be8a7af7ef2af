import Prfs.ListingNames
import Prfs.Server
import Prfs.StoreGrowth

namespace Prfs

namespace Server

variable {h : Host} {hash : Bytes → UInt64} {s t : Server}

instance Fits.decidable (s : Server) : (turn : Turn) → Decidable (s.Fits turn)
  | .record _ => inferInstanceAs (Decidable (s.fs.next < SNAP_BIT))
  | .operation _ _ => inferInstanceAs (Decidable (s.fs.next < SNAP_BIT))
  | .direct op => inferInstanceAs (Decidable (s.fs.Fits op))
  | .call _ _ => inferInstanceAs (Decidable True)
  | .answer _ => inferInstanceAs (Decidable True)

/-- The server after a list of turns. -/
def after (h : Host) (hash : Bytes → UInt64) (s : Server) (turns : List Turn) : Server := turns.foldl (step h hash) s

theorem traffic_after {turns : List Turn} (hok : Allowed (step h hash) Fits s turns) :
    Traffic h hash s (s.after h hash turns) := Reaches.of_allowed hok

/-- However the records, the operations of COMPOUNDs and the local operations of any connections interleave, the links of
every view agree and close no cycle, what was sealed stays as it was, no entry has the reserved name, and a turn makes
entries of no other name than its own. -/
theorem traffic_keeps_tree (hs : PrfsStore.Run .empty s.fs) (ht : Traffic h hash s t) :
    (∀ g, (viewAt t.fs.kv g).Consistent ∧ (viewAt t.fs.kv g).Acyclic) ∧
    PrfsStore.Keeps s.fs t.fs ∧
    (∀ d n c, t.fs.liveView.entry d n = some c → n ≠ SNAPSHOT_NAME) ∧
    ∀ turn, t.Fits turn → ∀ d n c, (t.step h hash turn).fs.liveView.entry d n = some c →
      t.fs.liveView.entry d n = some c ∨ t.boundName turn = some n := by
  have hrun := ht.fs_run
  have hall : PrfsStore.Run .empty t.fs := Reaches.trans hs hrun
  have hts := hall.sound
  refine ⟨fun g => ⟨hts.consistent g, hts.acyclic g⟩, PrfsStore.run_keeps hs.sound hrun, fun d n c he => ?_,
    fun turn hf d n c he => (step_does hf).entry_or hts he⟩
  exact hall.avoids d n c he

set_option maxRecDepth 2000 in
/-- A COMPOUND that makes the directory "b" in the root. -/
def createB : Msg :=
  let words : List UInt32 := [7, RPC_CALL, 2, PROG_NFS, NfsV4.NFS_V4, 1, 0, 0, 0, 0, 0, 0, 2, 24, 6, 2]
  ⟨((((words.foldl Writer.u32 {}).str [98]).u32 0).u32 0).v, fun _ => 0, by decide⟩

/-- A record of version 3 between the two operations of a COMPOUND. -/
def mixedTurns : List Turn :=
  [.call 0 createB, .operation 0 (fun _ => 0), .record NfsV3.createA, .operation 0 (fun _ => 0), .answer 0]

set_option maxRecDepth 20000 in
theorem traffic_keeps_tree_mixed :
    let t := ({ fs := .empty } : Server).after {} (fun _ => 0) mixedTurns
    t.fs.readdir ⟨1, LATEST⟩ = [([97], ⟨2, LATEST⟩), ([98], ⟨3, LATEST⟩)] ∧ (viewAt t.fs.kv t.fs.cur).Acyclic := by
  have ht : Traffic {} (fun _ => 0) { fs := .empty } (({ fs := .empty } : Server).after {} (fun _ => 0) mixedTurns) :=
    traffic_after (by decide)
  have hs : PrfsStore.Run .empty ({ fs := .empty } : Server).fs := .refl
  exact ⟨by decide, ((traffic_keeps_tree hs ht).1 _).2⟩

/-- Through any traffic a handle whose id has been given out stays valid or stays invalid, in every view; the object of
a valid one keeps its type; a handle is invalid until its id is given out; and the root is a live directory. -/
theorem traffic_keeps_handles (hs : PrfsStore.Run .empty s.fs) (ht : Traffic h hash s t) (n : Node) :
    (snapBase n.id < s.fs.next → t.fs.nodeById n.id n.snap = s.fs.nodeById n.id n.snap) ∧
    (s.fs.nodeById n.id n.snap = some n → (t.fs.attrs n).type = (s.fs.attrs n).type) ∧
    (s.fs.next ≤ snapBase n.id → s.fs.nodeById n.id n.snap = none) ∧
    t.fs.nodeById t.fs.root LATEST = some ⟨t.fs.root, LATEST⟩ ∧ (t.fs.attrs ⟨t.fs.root, LATEST⟩).type = .DIR := by
  have hrun := ht.fs_run
  have hss := hs.sound
  have hall : PrfsStore.Run .empty t.fs := Reaches.trans hs hrun
  have hroot : PrfsStore.empty.nodeById 1 LATEST = some ⟨1, LATEST⟩ := by decide
  refine ⟨hss.nodeById_run hrun, hss.type_run hrun, fun hid => ?_, ?_, ?_⟩
  · cases hn : s.fs.nodeById n.id n.snap with
    | none => rfl
    | some x => exact absurd (hss.given_of_nodeById hn).2 (not_lt.mpr hid)
  · rw [hall.sound.root]
    exact (PrfsStore.Sound.empty.nodeById_run hall (n := ⟨1, LATEST⟩) (by decide)).trans hroot
  · rw [hall.sound.root]
    exact PrfsStore.Sound.empty.type_run hall (n := ⟨1, LATEST⟩) hroot

set_option maxRecDepth 20000 in
/-- The directory that one connection makes is not there before, and the root is the same afterwards. -/
theorem traffic_keeps_handles_mixed :
    PrfsStore.empty.nodeById 3 LATEST = none ∧
      ((({ fs := .empty } : Server).after {} (fun _ => 0) mixedTurns).fs.attrs ⟨1, LATEST⟩).type = .DIR := by
  have ht : Traffic {} (fun _ => 0) { fs := .empty } (({ fs := .empty } : Server).after {} (fun _ => 0) mixedTurns) :=
    traffic_after (by decide)
  have hs : PrfsStore.Run .empty ({ fs := .empty } : Server).fs := .refl
  have hnew := traffic_keeps_handles hs ht ⟨3, LATEST⟩
  have hroot := traffic_keeps_handles hs ht ⟨1, LATEST⟩
  exact ⟨hnew.2.2.1 (by decide), (hroot.2.1 (by decide)).trans (by decide)⟩

end Server

end Prfs
