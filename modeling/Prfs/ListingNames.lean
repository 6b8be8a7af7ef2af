import Prfs.LinkFrames
import Prfs.ListingPages
import Prfs.Nfs3Ops

namespace Prfs

/-- No entry has a name of `P`. -/
def View.Avoids (v : View) (P : Set Bytes) : Prop := ∀ d n c, v.entry d n = some c → n ∉ P

namespace View.Avoids

variable {v : View} {P : Set Bytes} {dir child : UInt64} {name : Bytes}

theorem link (h : v.Avoids P) (hn : name ∉ P) : (v.link dir name child).Avoids P := by
  intro d n c he
  simp only [View.link] at he
  split_ifs at he with hhit
  · rw [hhit.2]
    exact hn
  · exact h d n c he

theorem unlink (h : v.Avoids P) : (v.unlink dir name child).Avoids P := by
  intro d n c he
  simp only [View.unlink] at he
  split_ifs at he
  exact h d n c he

/-- The store's reserved name is refused whatever is asked for. -/
theorem linkOp (h : v.Avoids P) (hn : name ∈ P → name = SNAPSHOT_NAME) : (v.linkOp dir name child).2.Avoids P := by
  unfold View.linkOp
  split_ifs with hok
  · exact h.link fun hmem => (linkError_ok.mp hok).1 (hn hmem)
  · exact h

theorem unlinkOp (h : v.Avoids P) : (v.unlinkOp dir name).2.Avoids P := by
  unfold View.unlinkOp
  split
  · exact h
  · exact h.unlink

theorem moveOp {ddir : UInt64} {dn : Bytes} (h : v.Avoids P) (hn : dn ∈ P → dn = SNAPSHOT_NAME) :
    (v.moveOp dir name ddir dn).2.Avoids P := by
  rcases @View.moveOp_cases v ddir dn dir name with ⟨c, -, hok, hop⟩ | ⟨-, hop⟩
  · rw [hop]
    exact (h.link fun hmem => (linkError_ok.mp hok).1 (hn hmem)).unlink
  · rw [hop]
    exact h

theorem setOp (h : v.Avoids P) (want : UInt32 → Bool) (f : NodeRec → NodeRec) : (v.setOp dir want f).2.Avoids P := by
  unfold View.setOp
  split
  · exact h
  · split_ifs
    · exact h
    · exact h

end View.Avoids

theorem FileSys.exec_avoids {a : FileSys} {P : Set Bytes} (h : a.live.Avoids P) {op : Op}
    (hop : ∀ n, op.binds = some n → n ∈ P → n = SNAPSHOT_NAME) : (a.exec op).2.live.Avoids P := by
  cases op with
  | link dir name child => exact h.linkOp (hop name rfl)
  | unlink dir name => exact h.unlinkOp
  | move sdir sn ddir dn => exact h.moveOp (hop dn rfl)
  | setContent reg c => exact h.setOp _ _
  | setTarget lnk t => exact h.setOp _ _
  | setRdev dev maj min => exact h.setOp _ _
  | setContentSeed reg seed => exact h.setOp _ _
  | _ => exact h

namespace PrfsStore

variable {s t : PrfsStore} {P : Set Bytes} {N : Option Bytes} {dir : Node}

theorem Sound.exec_avoids (hs : s.Sound) (hv : s.liveView.Avoids P) {op : Op} (hf : s.Fits op)
    (hop : ∀ n, op.binds = some n → n ∈ P → n = SNAPSHOT_NAME) : (s.exec op).2.liveView.Avoids P := by
  obtain ⟨a, -, -, hlive, hlive'⟩ := hs.exec_live hf
  rw [hlive] at hv
  rw [hlive']
  exact FileSys.exec_avoids hv hop

theorem empty_avoids : empty.liveView.Avoids P := by
  intro d n c he
  have hlive : empty.liveView = FileSys.init.live := Refines.empty.live
  rw [hlive] at he
  cases he

/-- No entry of the live view has the store's reserved name. -/
theorem Run.avoids (hs : Run empty s) : s.liveView.Avoids {SNAPSHOT_NAME} := by
  have hinv : s.Sound ∧ s.liveView.Avoids {SNAPSHOT_NAME} :=
    Reaches.invariant (P := fun s => s.Sound ∧ s.liveView.Avoids {SNAPSHOT_NAME})
      (fun t op ht hf => ⟨ht.1.exec hf, ht.1.exec_avoids ht.2 hf fun n _ hn => hn⟩) ⟨.empty, empty_avoids⟩ hs
  exact hinv.2

/-- Operations that make no entry of a name of `P` leave the live view without one. -/
theorem Does.avoids (h : Does N s t) (hs : s.Sound) (hv : s.liveView.Avoids P)
    (hN : ∀ n, N = some n → n ∈ P → n = SNAPSHOT_NAME) : t.Sound ∧ t.liveView.Avoids P := by
  refine Reaches.invariant (P := fun t => t.Sound ∧ t.liveView.Avoids P) ?_ ⟨hs, hv⟩ h
  rintro t op ⟨ht, hv⟩ ⟨hf, hop⟩
  refine ⟨ht.exec hf, ht.exec_avoids hv hf fun n hn => hN n ?_⟩
  rcases hop with hop | hop
  · rw [hop] at hn
    cases hn
  · rw [← hop, hn]

theorem mem_readdir (hd : isSnapDir dir.id = false) (hl : dir.snap = LATEST) {e : Bytes × Node} :
    e ∈ s.readdir dir ↔ ∃ c, s.liveView.entry dir.id e.1 = some c ∧ e.2 = ⟨c, LATEST⟩ := by
  obtain ⟨l, hlists, heq⟩ := s.readdir_eq hd
  rw [viewAt_latest hl] at hlists
  rw [heq, List.mem_map, hl]
  constructor
  · rintro ⟨⟨n, c⟩, hmem, rfl⟩
    exact ⟨c, (hlists.mem n c).mp hmem, rfl⟩
  · rintro ⟨c, hc, hnode⟩
    exact ⟨(e.1, c), (hlists.mem e.1 c).mpr hc, Prod.ext rfl hnode.symm⟩

/-- A name of the listing is found with its node, the store's reserved name apart. -/
theorem lookup_of_mem_readdir (hd : isSnapDir dir.id = false) (hl : dir.snap = LATEST) {e : Bytes × Node}
    (he : e ∈ s.readdir dir) (hn : e.1 ≠ SNAPSHOT_NAME) : s.lookup dir e.1 = some e.2 := by
  obtain ⟨c, hc, hnode⟩ := (mem_readdir hd hl).mp he
  rw [lookup_eq hd fun h => hn h.1, viewAt_latest hl, hc, hnode, hl]
  rfl

end PrfsStore

namespace NfsV3

variable {h : Host} {v : NfsV3} {dir : Node} {count perEntry : Nat} {es : List DirEnt}

/-- The service after records that are each let through, while node ids last. -/
def Served (h : Host) (ok : Msg → Prop) (v v' : NfsV3) : Prop :=
  Reaches (serve h) (fun v m => v.fs.next < SNAP_BIT ∧ ok m) v v'

theorem Served.fs_run {ok : Msg → Prop} (hrun : Served h ok { fs := .empty } v) : PrfsStore.Run .empty v.fs := by
  unfold Served at hrun
  induction hrun with
  | refl => exact .refl
  | tail _ hok ih => exact Reaches.trans ih (serve_does hok.1 _).run

/-- Names that no record binds are not in any directory. -/
theorem Served.avoids {P : Set Bytes} (hrun : Served h (fun m => ∀ n, recordName m = some n → n ∈ P → n = SNAPSHOT_NAME)
    { fs := .empty } v) : v.fs.liveView.Avoids P := by
  have hinv : v.fs.Sound ∧ v.fs.liveView.Avoids P :=
    Reaches.invariant (P := fun v => v.fs.Sound ∧ v.fs.liveView.Avoids P)
      (fun w m hw hok => (serve_does hok.1 m).avoids hw.1 hw.2 hok.2) ⟨.empty, PrfsStore.empty_avoids⟩ hrun
  exact hinv.2

theorem lookup_none_iff (hd : isSnapDir dir.id = false) (hl : dir.snap = LATEST) {name : Bytes}
    (hn : name ≠ SNAPSHOT_NAME) : v.fs.lookup dir name = none ↔ ∀ e ∈ v.fs.readdir dir, e.1 ≠ name := by
  constructor
  · rintro hnone e he rfl
    rw [PrfsStore.lookup_of_mem_readdir hd hl he hn] at hnone
    cases hnone
  · intro hno
    cases hlook : v.fs.lookup dir name with
    | none => rfl
    | some x =>
      rw [PrfsStore.lookup_eq hd fun h => hn h.1, PrfsStore.viewAt_latest hl] at hlook
      obtain ⟨c, hc, -⟩ := Option.map_eq_some_iff.mp hlook
      exact absurd rfl (hno (name, ⟨c, LATEST⟩) ((PrfsStore.mem_readdir hd hl).mpr ⟨c, hc, rfl⟩))

theorem dirAhead_start (hd : isSnapDir dir.id = false) : v.fs.dirAhead dir [] =
    (v.fs.readdir dir).filter (fun e => [] < e.1) := by
  rw [PrfsStore.dirAhead, hd]
  rfl

/-- The whole listing has no name twice exactly when "." and ".." are not bound in the directory. -/
theorem pending_nodup_iff (hd : isSnapDir dir.id = false) (hl : dir.snap = LATEST) :
    ((pending v dir 0).map DirEnt.name).Nodup ↔ v.fs.lookup dir dot = none ∧ v.fs.lookup dir dotdot = none := by
  have hsorted := (v.fs.readdir_sorted hd).filter (fun e => [] < e.1)
  have hnames : ∀ {name : Bytes}, name ≠ [] → (name ∈ ((v.fs.readdir dir).filter (fun e => [] < e.1)).map Prod.fst ↔
      ∃ e ∈ v.fs.readdir dir, e.1 = name) := by
    intro name hne
    simp only [List.mem_map, List.mem_filter, decide_eq_true_eq]
    constructor
    · rintro ⟨e, ⟨he, -⟩, rfl⟩
      exact ⟨e, he, rfl⟩
    · rintro ⟨e, he, rfl⟩
      exact ⟨e, ⟨he, lt_of_le_of_ne (nil_le_list _) hne.symm⟩, rfl⟩
  have hmap : (((v.fs.readdir dir).filter (fun e => [] < e.1)).map entOf).map DirEnt.name =
      ((v.fs.readdir dir).filter (fun e => [] < e.1)).map Prod.fst := by
    rw [List.map_map]
    rfl
  rw [pending_zero, dirAhead_start hd, List.map_cons, List.map_cons, hmap, List.nodup_cons, List.nodup_cons,
    lookup_none_iff hd hl (by decide), lookup_none_iff hd hl (by decide), List.mem_cons,
    hnames (show dot ≠ [] by decide), hnames (show dotdot ≠ [] by decide)]
  have hnodup : (((v.fs.readdir dir).filter (fun e => [] < e.1)).map Prod.fst).Nodup :=
    List.pairwise_map.mpr (hsorted.imp ne_of_lt)
  have hdots : dot ≠ dotdot := by decide
  constructor
  · rintro ⟨h1, h2, -⟩
    exact ⟨fun e he heq => h1 (Or.inr ⟨e, he, heq⟩), fun e he heq => h2 ⟨e, he, heq⟩⟩
  · rintro ⟨h1, h2⟩
    refine ⟨?_, ?_, hnodup⟩
    · rintro (heq | ⟨e, he, heq⟩)
      · exact hdots heq
      · exact h1 e he heq
    · rintro ⟨e, he, heq⟩
      exact h2 e he heq

/-- The records that bind neither "." nor "..". -/
def Plain (m : Msg) : Prop := recordName m ≠ some dot ∧ recordName m ≠ some dotdot

/-- After records that bind neither "." nor "..", the complete listing of a live directory gives no name twice, and each
name it has from the store is found with the node it gives. -/
theorem listing_names_unique (hrun : Served h Plain { fs := .empty } v) (dir : Node) (count perEntry : Nat)
    (hd : isSnapDir dir.id = false) (hl : dir.snap = LATEST)
    (hcount : ∀ e ∈ pending v dir 0, 128 + entrySize perEntry e.name ≤ count) :
    ∃ es, (∀ es', Complete (Gets dir count perEntry) (v, 0) es' ↔ es' = es) ∧ (es.map DirEnt.name).Nodup ∧
      ∀ e ∈ es, e.cookie &&& CK_ENTRY ≠ 0 → v.fs.lookup dir e.name = some e.node := by
  have hres : Resumes v dir 0 := fun hck => absurd rfl hck
  have hcomplete : ∀ es', Complete (Gets dir count perEntry) (v, 0) es' ↔
      es' = pending v dir 0 ∧ ∀ e ∈ pending v dir 0, 128 + entrySize perEntry e.name ≤ count :=
    fun es' => (gets_fills dir count perEntry).complete_iff (x := (v, 0)) ⟨hrun.fs_run, hres⟩
  have havoid : v.fs.liveView.Avoids {dot, dotdot, SNAPSHOT_NAME} := by
    refine Served.avoids (Reaches.weaken (fun w m hok => ⟨hok.1, fun n hn hmem => ?_⟩) hrun)
    rcases hmem with rfl | rfl | rfl
    · exact absurd hn hok.2.1
    · exact absurd hn hok.2.2
    · rfl
  have hnot : ∀ e ∈ v.fs.readdir dir, e.1 ∉ ({dot, dotdot, SNAPSHOT_NAME} : Set Bytes) := by
    intro e he
    obtain ⟨c, hc, -⟩ := (PrfsStore.mem_readdir hd hl).mp he
    exact havoid _ _ _ hc
  refine ⟨pending v dir 0, fun es' => ?_, ?_, fun e he hck => ?_⟩
  · rw [hcomplete es', and_iff_left hcount]
  · refine (pending_nodup_iff hd hl).mpr ⟨(lookup_none_iff hd hl (by decide)).mpr fun e he heq => hnot e he ?_,
      (lookup_none_iff hd hl (by decide)).mpr fun e he heq => hnot e he ?_⟩
    · simp [heq]
    · simp [heq]
  · rw [pending_zero, dirAhead_start hd] at he
    rcases List.mem_cons.mp he with rfl | he
    · exact absurd dot_untagged hck
    · rcases List.mem_cons.mp he with rfl | he
      · exact absurd dotdot_untagged hck
      · obtain ⟨x, hx, rfl⟩ := List.mem_map.mp he
        have hx' := List.mem_of_mem_filter hx
        exact PrfsStore.lookup_of_mem_readdir hd hl hx' fun heq => hnot x hx' (by simp [heq])

/-- A CREATE in the root without attributes, up to the name. -/
def createHeader : Writer := (callHeader 8).fh 1 LATEST

def noAttributes (w : Writer) : Writer := w.append (List.replicate 28 0)

set_option maxRecDepth 2000 in
/-- A CREATE of "." in the root. -/
def createDot : Msg := ⟨(noAttributes (createHeader.str dot)).v, fun _ => 0, by decide⟩

set_option maxRecDepth 2000 in
/-- A CREATE of "a" in the root. -/
def createA : Msg := ⟨(noAttributes (createHeader.str [97])).v, fun _ => 0, by decide⟩

set_option maxRecDepth 20000 in
/-- After a CREATE of "a" the listing has ".", ".." and "a". -/
theorem listing_names_unique_create : ∃ es,
    Complete (Gets ⟨1, LATEST⟩ 4096 0) (serve {} { fs := .empty } createA, 0) es ∧ (es.map DirEnt.name).Nodup := by
  have hplain : Plain createA := by
    constructor <;> decide
  have hrun : Served {} Plain { fs := .empty } (serve {} { fs := .empty } createA) :=
    Reaches.refl.tail ⟨by decide, hplain⟩
  obtain ⟨es, hes, hnodup, -⟩ := listing_names_unique hrun ⟨1, LATEST⟩ 4096 0 (by decide) rfl (by decide)
  exact ⟨es, (hes es).mpr rfl, hnodup⟩

set_option maxRecDepth 20000 in
/-- A CREATE of "." in the root is let through, and the listing of the root then has "." twice. -/
theorem dot_listed_twice : Served {} (fun _ => True) { fs := .empty } (serve {} { fs := .empty } createDot) ∧
    ∃ es, Complete (Gets ⟨1, LATEST⟩ 4096 0) (serve {} { fs := .empty } createDot, 0) es ∧
      es.map DirEnt.name = [dot, dotdot, dot] := by
  have hrun : Served {} (fun _ => True) { fs := .empty } (serve {} { fs := .empty } createDot) :=
    Reaches.refl.tail ⟨by decide, trivial⟩
  have hres : Resumes (serve {} { fs := .empty } createDot) ⟨1, LATEST⟩ 0 := fun hck => absurd rfl hck
  refine ⟨hrun, pending (serve {} { fs := .empty } createDot) ⟨1, LATEST⟩ 0, ?_, by decide⟩
  exact ((gets_fills ⟨1, LATEST⟩ 4096 0).complete_iff (x := (serve {} { fs := .empty } createDot, 0))
    ⟨hrun.fs_run, hres⟩).mpr ⟨rfl, by decide⟩

end NfsV3

end Prfs
