import Prfs.SealedReads
import Prfs.WriteSizes

namespace Prfs

/-- The file whose seed an operation sets. -/
def Op.seeds : Op → Option UInt64
  | .setContentSeed reg _ => some reg.id
  | _ => none

namespace View

/-- A regular file with this seed in its record, zero where it has none. -/
def Seeded (v : View) (id seed : UInt64) : Prop :=
  ∃ r, v.node id = some r ∧ r.type = FType.REG.code ∧ r.spec = seed

namespace Seeded

variable {v : View} {id i seed : UInt64} {f : NodeRec → NodeRec}

theorem modify (h : v.Seeded id seed)
    (hf : ∀ r, v.node i = some r → i = id → r.type = FType.REG.code → (f r).type = r.type ∧ (f r).spec = r.spec) :
    (v.modify i f).Seeded id seed := by
  obtain ⟨r, hr, ht, hs⟩ := h
  by_cases hi : i = id
  · obtain ⟨ht', hs'⟩ := hf r (hi ▸ hr) hi ht
    exact ⟨f r, by simp [View.modify, hi, hr], ht'.trans ht, hs'.trans hs⟩
  · exact ⟨r, by simp [View.modify, Ne.symm hi, hr], ht, hs⟩

theorem link (h : v.Seeded id seed) {dir : UInt64} {name : Bytes} : (v.link dir name i).Seeded id seed :=
  h.modify (f := incLink) fun _ _ _ _ => ⟨rfl, rfl⟩

theorem unlinkOp (h : v.Seeded id seed) {dir : UInt64} {name : Bytes} : (v.unlinkOp dir name).2.Seeded id seed := by
  unfold View.unlinkOp
  split
  · exact h
  · refine h.modify (f := decLink) fun r _ _ _ => ?_
    unfold decLink
    split_ifs <;> exact ⟨rfl, rfl⟩

theorem linkOp (h : v.Seeded id seed) {dir : UInt64} {name : Bytes} : (v.linkOp dir name i).2.Seeded id seed := by
  unfold View.linkOp
  split_ifs
  · exact h.link
  · exact h

theorem moveOp (h : v.Seeded id seed) {sdir ddir : UInt64} {sn dn : Bytes} :
    (v.moveOp sdir sn ddir dn).2.Seeded id seed := by
  unfold View.moveOp
  split
  · exact h
  · split_ifs
    · exact h.link.unlinkOp
    · exact h

theorem setOp (h : v.Seeded id seed) {want : UInt32 → Bool}
    (hf : ∀ r, i = id → r.type = FType.REG.code → want r.type = true → (f r).type = r.type ∧ (f r).spec = r.spec) :
    (v.setOp i want f).2.Seeded id seed := by
  unfold View.setOp
  split
  · exact h
  · next r hr =>
    split_ifs with hw
    · refine h.modify fun r' hr' hi ht => hf r' hi ht ?_
      rwa [Option.some.inj (hr.symm.trans hr')] at hw
    · exact h

theorem alloc (h : v.Seeded id seed) {r : NodeRec} (hfree : v.node i = none) : (v.alloc i r).Seeded id seed := by
  obtain ⟨r', hr, ht, hs⟩ := h
  have hne : id ≠ i := by
    rintro rfl
    rw [hfree] at hr
    cases hr
  exact ⟨r', by simp [View.alloc, hne, hr], ht, hs⟩

end Seeded

end View

/-- An operation that does not set the seed of a file keeps it. -/
theorem FileSys.Inv.exec_seeded {a : FileSys} (hi : a.Inv) {id seed : UInt64} (h : a.live.Seeded id seed) {op : Op}
    (hop : op.seeds ≠ some id) : (a.exec op).2.live.Seeded id seed := by
  cases op with
  | mkdir => exact h.alloc hi.next_free
  | mkfile c => exact h.alloc hi.next_free
  | symlink t => exact h.alloc hi.next_free
  | mkfifo => exact h.alloc hi.next_free
  | mksock => exact h.alloc hi.next_free
  | mknod t maj min => exact h.alloc hi.next_free
  | link dir name child => exact h.linkOp
  | unlink dir name => exact h.unlinkOp
  | move sdir sn ddir dn => exact h.moveOp
  | setContent reg c => exact h.setOp fun _ _ _ _ => ⟨rfl, rfl⟩
  | setTarget lnk t => exact h.setOp fun _ _ _ _ => ⟨rfl, rfl⟩
  | setRdev dev maj min =>
    refine h.setOp fun r _ ht hw => ?_
    rw [ht] at hw
    exact absurd hw (by decide)
  | setContentSeed reg x => exact h.setOp fun _ he _ _ => absurd (congrArg some he) hop
  | setAttr n x => exact h.modify fun r _ _ _ => by cases x <;> exact ⟨rfl, rfl⟩
  | setTime t => exact h
  | setContentConfig blob => exact h
  | snapshot label => exact h

namespace PrfsStore

variable {s : PrfsStore} {id seed : UInt64} {n : Node} {op : Op}

theorem Sound.exec_seeded (hs : s.Sound) (h : s.liveView.Seeded id seed) (hf : s.Fits op) (hop : op.seeds ≠ some id) :
    (s.exec op).2.liveView.Seeded id seed := by
  obtain ⟨a, hi, -, hlive, hlive'⟩ := hs.exec_live hf
  rw [hlive] at h
  rw [hlive']
  exact hi.exec_seeded h hop

theorem mkfile_seeded (hs : s.Sound) (content : Bytes) (hf : s.Fits (.mkfile content)) :
    (s.exec (.mkfile content)).2.liveView.Seeded s.next 0 := by
  obtain ⟨a, -, hnext, -, hlive⟩ := hs.exec_live hf
  rw [hlive, hnext]
  exact ⟨a.newRec .REG content 0, by simp [FileSys.exec, FileSys.alloc, View.alloc], rfl, rfl⟩

theorem LiveFile.writeData_seeded (h : s.LiveFile n) (hs : s.Sound) (off : UInt64) (data : Bytes) :
    (writeData s n off data).liveView.Seeded n.id (mixSeed (s.attrs n).contentSeed off data) := by
  obtain ⟨r, hr, ht, hseed, -⟩ := h.record hs off data
  have hview : (writeData s n off data).liveView.node n.id = some r.bare := by simp [liveView, viewAt, hr]
  exact ⟨r.bare, hview, ht, hseed⟩

/-- The seed that a file shows is the one in its record, and its id where there is none. -/
theorem contentSeed_of_seeded {g : SnapId} (h : (viewAt s.kv (s.rr g)).Seeded id seed) (hd : isSnapDir id = false) :
    (s.attrs ⟨id, g⟩).contentSeed = if seed ≠ 0 then seed else id := by
  obtain ⟨r, hr, ht, rfl⟩ := h
  rw [attrs_eq hd, hr, Option.getD_some, Attrs.of]
  simp only [ht, true_and]

/-- What `contentSeed` tests before it reads the seed in the record and not the id. -/
def OwnSeed (s : PrfsStore) (n : Node) : Prop :=
  (s.readNode n.id n.snap).type = FType.REG.code ∧ (s.readNode n.id n.snap).spec ≠ 0

theorem ownSeed_of_seeded {g : SnapId} (h : (viewAt s.kv (s.rr g)).Seeded id seed) (hd : isSnapDir id = false)
    (hne : seed ≠ 0) : s.OwnSeed ⟨id, g⟩ := by
  obtain ⟨r, hr, ht, rfl⟩ := h
  obtain ⟨r', hload, rfl⟩ := Option.map_eq_some_iff.mp hr
  have hread : s.readNode id g = r' := by simp [readNode, hd, hload]
  rw [OwnSeed, hread]
  exact ⟨ht, hne⟩

/-- A snapshot is handed back by the operation that seals it. -/
theorem snapshot_of_snap {v : SnapId} (h : (s.exec op).1 = .snap v) : ∃ label, op = .snapshot label ∧ v = s.cur := by
  cases op with
  | snapshot label => exact ⟨label, rfl, (Res.snap.inj h).symm⟩
  | _ => cases h

end PrfsStore

/-- The seed of a file after these writes, made from its id one after the other. -/
def foldSeed (id : UInt64) (log : List (UInt64 × Bytes)) : UInt64 := log.foldl (fun seed w => mixSeed seed w.1 w.2) id

/-- The seed in the file's record then. -/
def heldSeed (id : UInt64) (log : List (UInt64 × Bytes)) : UInt64 := if log = [] then 0 else foldSeed id log

theorem foldSeed_snoc {id : UInt64} {log : List (UInt64 × Bytes)} (w : UInt64 × Bytes) :
    foldSeed id (log ++ [w]) = mixSeed (foldSeed id log) w.1 w.2 := by
  simp [foldSeed, List.foldl_append]

theorem foldSeed_ne_zero {id : UInt64} {log : List (UInt64 × Bytes)} (h : log ≠ []) : foldSeed id log ≠ 0 := by
  obtain ⟨log, w, rfl⟩ := (List.eq_nil_or_concat' log).resolve_left h
  rw [foldSeed_snoc]
  exact mixSeed_ne_zero _ _ _

theorem heldSeed_ne_zero {id : UInt64} {log : List (UInt64 × Bytes)} (h : log ≠ []) : heldSeed id log ≠ 0 := by
  rw [heldSeed, if_neg h]
  exact foldSeed_ne_zero h

theorem heldSeed_shown (id : UInt64) (log : List (UInt64 × Bytes)) :
    (if heldSeed id log ≠ 0 then heldSeed id log else id) = foldSeed id log := by
  by_cases h : log = []
  · subst h
    rfl
  · rw [if_pos (heldSeed_ne_zero h), heldSeed, if_neg h]

/-- A store, the writes made to a file, and those that had been made to it when each snapshot was sealed. -/
structure History where
  fs : PrfsStore
  log : List (UInt64 × Bytes) := []
  sealed : List (SnapId × List (UInt64 × Bytes)) := []

/-- A step in the life of a file: a WRITE to it, or an operation of the store. -/
inductive FileStep
  | write (q : WriteCall) (off : UInt64) (data : Bytes)
  | op (op : Op)

namespace History

variable {x : History} {id : UInt64}

def step (x : History) : FileStep → History
  | .write q off data => { x with fs := q.after x.fs, log := x.log ++ [(off, data)] }
  | .op op =>
    { x with
      fs := (x.fs.exec op).2
      sealed :=
        match (x.fs.exec op).1 with
        | .snap v => (v, x.log) :: x.sealed
        | _ => x.sealed }

/-- The WRITEs are to this file and answered OK, and no operation sets its seed past them. -/
def Takes (id : UInt64) (x : History) : FileStep → Prop
  | .write q off data => q.To x.fs ⟨id, LATEST⟩ off data ∧ q.Ok x.fs
  | .op op => x.fs.Fits op ∧ op.seeds ≠ some id

/-- The records of the file hold what was written, in the live view and in each sealed one. -/
structure Holds (id : UInt64) (x : History) : Prop where
  sound : x.fs.Sound
  live : x.fs.liveView.Seeded id (heldSeed id x.log)
  past : ∀ {N log}, (N, log) ∈ x.sealed → N < x.fs.cur ∧ (viewAt x.fs.kv N).Seeded id (heldSeed id log)

namespace Holds

theorem not_isSnapDir (h : x.Holds id) : isSnapDir id = false := by
  obtain ⟨r, hr, -⟩ := h.live
  exact h.sound.not_isSnapDir hr

theorem latest (h : x.Holds id) : (viewAt x.fs.kv (x.fs.rr LATEST)).Seeded id (heldSeed id x.log) := by
  rw [PrfsStore.viewAt_latest rfl]
  exact h.live

theorem contentSeed (h : x.Holds id) : (x.fs.attrs ⟨id, LATEST⟩).contentSeed = foldSeed id x.log := by
  rw [PrfsStore.contentSeed_of_seeded h.latest h.not_isSnapDir, heldSeed_shown]

/-- What was sealed stays sealed with what it holds. -/
theorem kept (h : x.Holds id) {t : PrfsStore} (hk : PrfsStore.Keeps x.fs t) {N : SnapId} {log : List (UInt64 × Bytes)}
    (hmem : (N, log) ∈ x.sealed) : N < t.cur ∧ (viewAt t.kv N).Seeded id (heldSeed id log) := by
  obtain ⟨hlt, hseed⟩ := h.past hmem
  rw [← hk.view hlt] at hseed
  exact ⟨lt_of_lt_of_le hlt hk.cur, hseed⟩

theorem op (h : x.Holds id) {op : Op} (hf : x.fs.Fits op) (hop : op.seeds ≠ some id) : (x.step (.op op)).Holds id := by
  have hk := PrfsStore.exec_keeps h.sound hf
  refine ⟨h.sound.exec hf, h.sound.exec_seeded h.live hf hop, fun {N log} hmem => ?_⟩
  cases hres : (x.fs.exec op).1 with
  | snap v =>
    simp only [step, hres] at hmem ⊢
    rcases List.mem_cons.mp hmem with hnew | hold
    · -- The new snapshot is the version that was the live one, with all of the log.
      obtain ⟨rfl, rfl⟩ := Prod.mk.inj hnew
      obtain ⟨label, rfl, rfl⟩ := PrfsStore.snapshot_of_snap hres
      exact ⟨PrfsStore.cur_lt_snapshot hf, h.live⟩
    · exact h.kept hk hold
  | _ =>
    simp only [step, hres] at hmem ⊢
    exact h.kept hk hmem

theorem write (h : x.Holds id) {q : WriteCall} {off : UInt64} {data : Bytes} (ht : q.To x.fs ⟨id, LATEST⟩ off data)
    (hok : q.Ok x.fs) : (x.step (.write q off data)).Holds id := by
  have hg : q.Granted ⟨id, LATEST⟩ := by
    by_contra hg
    exact (ht.not_granted hg).1 hok
  obtain ⟨-, hafter, -⟩ := ht.granted hg
  have hrun : PrfsStore.Run x.fs (writeData x.fs ⟨id, LATEST⟩ off data) :=
    (PrfsStore.Does.writeData (N := none) .refl ⟨id, LATEST⟩ off data).run
  have hnew := ht.liveFile.writeData_seeded h.sound off data
  rw [h.contentSeed, ← foldSeed_snoc (off, data)] at hnew
  simp only [step, hafter]
  refine ⟨h.sound.run hrun, ?_, h.kept (PrfsStore.run_keeps h.sound hrun)⟩
  rw [heldSeed, if_neg (by simp)]
  exact hnew

theorem step (h : x.Holds id) {e : FileStep} (he : x.Takes id e) : (x.step e).Holds id := by
  cases e with
  | write q off data => exact h.write he.1 he.2
  | op op => exact h.op he.1 he.2

theorem run {y : History} (h : x.Holds id) (hr : Reaches History.step (Takes id) x y) : y.Holds id :=
  Reaches.invariant (fun _ _ ht he => ht.step he) h hr

end Holds

end History

/-- The seed that a file shows is the fold of the writes made to it, by either version, whatever came between them; once there is
one it is in the file's record; and a snapshot shows the fold of those made before it was sealed. -/
theorem seed_is_fold {s t : PrfsStore} {n : Node} {content : Bytes} (hs : PrfsStore.Run .empty s)
    (hf : s.Fits (.mkfile content)) (hn : s.mkfile content = (n, t)) {x : History}
    (hx : Reaches History.step (History.Takes n.id) { fs := t } x) :
    (x.fs.attrs ⟨n.id, LATEST⟩).contentSeed = foldSeed n.id x.log ∧
      (x.log ≠ [] → x.fs.OwnSeed ⟨n.id, LATEST⟩) ∧
      ∀ N log, (N, log) ∈ x.sealed → (x.fs.attrs ⟨n.id, N⟩).contentSeed = foldSeed n.id log ∧
        (log ≠ [] → x.fs.OwnSeed ⟨n.id, N⟩) := by
  obtain rfl : n = ⟨s.next, LATEST⟩ := (congrArg Prod.fst hn).symm
  obtain rfl : t = (s.exec (.mkfile content)).2 := (congrArg Prod.snd hn).symm
  have hstart : History.Holds s.next { fs := (s.exec (.mkfile content)).2 } :=
    ⟨hs.sound.exec hf, PrfsStore.mkfile_seeded hs.sound content hf, by simp⟩
  have hx' := hstart.run hx
  refine ⟨hx'.contentSeed, fun hw => ?_, fun N log hmem => ?_⟩
  · exact PrfsStore.ownSeed_of_seeded hx'.latest hx'.not_isSnapDir (heldSeed_ne_zero hw)
  · obtain ⟨hlt, hpast⟩ := hx'.past hmem
    rw [← PrfsStore.rr_of_lt hlt] at hpast
    refine ⟨?_, fun hw => ?_⟩
    · rw [PrfsStore.contentSeed_of_seeded hpast hx'.not_isSnapDir, heldSeed_shown]
    · exact PrfsStore.ownSeed_of_seeded hpast hx'.not_isSnapDir (heldSeed_ne_zero hw)

/-- The arguments of a WRITE of version 4 under a special stateid. -/
def againArgs : Msg := ⟨((((((({} : Writer).u32 0).u64 0).u32 0).u64 0).u32 0).str [105]).v, fun _ => 0, by decide⟩

def writeAgain : WriteCall := .v4 { v := {}, fs := .empty, cfh := some ⟨2, LATEST⟩ } againArgs

/-- A byte written by version 3, a snapshot, and a byte written by version 4. -/
def twoWrites : History :=
  (({ fs := (PrfsStore.empty.mkfile []).2 : History }.step (.write WriteCall.writeFirst 0 [104])).step
    (.op (.snapshot []))).step (.write writeAgain 0 [105])

set_option maxRecDepth 20000 in
/-- The live file shows both bytes, and the snapshot the first. -/
theorem seed_is_fold_two :
    (twoWrites.fs.attrs ⟨2, LATEST⟩).contentSeed = foldSeed 2 [(0, [104]), (0, [105])] ∧
      (twoWrites.fs.attrs ⟨2, 1⟩).contentSeed = foldSeed 2 [(0, [104])] := by
  let x0 : History := { fs := (PrfsStore.empty.mkfile []).2 }
  let x1 := x0.step (.write WriteCall.writeFirst 0 [104])
  let x2 := x1.step (.op (.snapshot []))
  have hto1 : WriteCall.writeFirst.To x0.fs ⟨2, LATEST⟩ 0 [104] :=
    ⟨_, _, _, rfl, rfl, rfl, by decide, by decide, by decide⟩
  have hto2 : writeAgain.To x2.fs ⟨2, LATEST⟩ 0 [105] := by
    let r1 := ((NfsV4.readStateid againArgs {}).2.u64 againArgs).2
    exact ⟨r1, ((r1.u32 againArgs).2.str againArgs).2, Prod.ext (by decide) rfl, Prod.ext (by decide) rfl, rfl, by decide,
      by decide⟩
  have hspecial : NfsV4.refuses {} (NfsV4.readStateid againArgs {}).1 2 ACCESS_WRITE = none := by decide
  have hrun : Reaches History.step (History.Takes 2) x0 twoWrites :=
    ((Reaches.refl.tail ⟨hto1, (hto1.granted trivial).1⟩).tail ⟨by decide, by decide⟩).tail
      ⟨hto2, (hto2.granted hspecial).1⟩
  obtain ⟨hlive, -, hpast⟩ := @seed_is_fold _ _ ⟨2, LATEST⟩ [] .refl (by decide) rfl _ hrun
  exact ⟨hlive, (hpast 1 _ (.head _)).1⟩

end Prfs
