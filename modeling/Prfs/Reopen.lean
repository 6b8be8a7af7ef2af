import Prfs.FailedOps
import Prfs.LinkCounts

namespace Prfs

namespace PrfsStore

/-- Whether an operation reaches the `commit` of its transaction. -/
def commits (s : PrfsStore) (op : Op) : Bool :=
  match op with
  | .setAttr n _ => (loadNode s.kv n.id s.cur).isSome
  | _ => match (s.exec op).1 with
    | .err e => e = .OK
    | _ => true

/-- An operation over an engine that publishes the writes of a transaction at its `commit`
and drops those of a transaction that ends without one. -/
def execTxn (s : PrfsStore) (op : Op) : Res × PrfsStore :=
  let (res, t) := s.exec op
  (res, if s.commits op then t else { t with kv := s.kv })

def stepTxn (s : PrfsStore) (op : Op) : PrfsStore := (s.execTxn op).2

/-- What the operations answer, one after the other. -/
def answers : PrfsStore → List Op → List Res
  | _, [] => []
  | s, op :: ops => (s.execTxn op).1 :: answers (s.stepTxn op) ops

/-- The contents each transaction of the operations publishes. -/
def commitLog : PrfsStore → List Op → List Data
  | _, [] => []
  | s, op :: ops =>
    if s.commits op then (s.stepTxn op).kv :: commitLog (s.stepTxn op) ops else commitLog (s.stepTxn op) ops

/-- All transactions since the first start, which is the first of them. -/
def txns (ops : List Op) : List Data := empty.kv :: commitLog empty ops

end PrfsStore

/-- The node id or the snapshot id an operation hands out. -/
def Res.nodeId? : Res → Option UInt64
  | .node n => some n.id
  | _ => none

def Res.snapId? : Res → Option SnapId
  | .snap v => some v
  | _ => none

namespace PrfsStore

variable {s t : PrfsStore} {op : Op} {ops : List Op}

/-- On a sound store nothing is written by an operation that does not commit. -/
theorem execTxn_eq (h : s.Sound) (op : Op) : s.execTxn op = s.exec op := by
  have hkeep : s.commits op = false → (s.exec op).2 = s := by
    intro hc
    cases op with
    | setAttr n x =>
      refine setAttr_no_record ?_ x
      simpa [commits] using hc
    | link | unlink | move | setContent | setTarget | setRdev | setContentSeed =>
      exact exec_failed h rfl (by simpa [commits, exec, Res.ofErr] using hc)
    | _ => simp [commits, exec, Res.ofNode] at hc
  unfold execTxn
  cases hc : s.commits op with
  | true => rfl
  | false =>
    have hk := hkeep hc
    refine Prod.ext rfl ?_
    show { (s.exec op).2 with kv := s.kv } = (s.exec op).2
    rw [hk]

/-- The counters of the store are the ones in its meta records. -/
structure Synced (s : PrfsStore) : Prop where
  root : getMeta s.kv metaRoot = some s.root
  next : getMeta s.kv metaNextNode = some s.next
  cur : getMeta s.kv metaCurSnap = some s.cur
  clock : getMeta s.kv metaClock = some s.clock

/-- A store over the contents of a synced one takes up its counters and writes nothing. -/
theorem Synced.reopen (h : s.Synced) : mk' s.kv = s := by
  simp only [mk', h.root, h.next, h.cur, h.clock, Option.getD_some]

theorem getMeta_congr {kv kv' : Data} (h : kv'.metaKv = kv.metaKv) (key : Bytes) : getMeta kv' key = getMeta kv key := by
  unfold getMeta
  rw [h]

theorem Synced.of_metaKv (h : s.Synced) {kv : Data} (hm : kv.metaKv = s.kv.metaKv) : Synced { s with kv } :=
  ⟨(getMeta_congr hm _).trans h.root, (getMeta_congr hm _).trans h.next, (getMeta_congr hm _).trans h.cur,
    (getMeta_congr hm _).trans h.clock⟩

theorem getMeta_putMeta (kv : Data) (key key' : Bytes) (x : UInt64) :
    getMeta (putMeta kv key x) key' = if key' = key then some x else getMeta kv key' := by
  unfold getMeta putMeta
  dsimp only
  rw [OrdMap.get_put]
  split_ifs
  · have := u64Field_append x []
    rw [List.append_nil] at this
    simp [this]
  · rfl

theorem Synced.alloc (h : s.Synced) (t : FType) (blob : Bytes) (spec : UInt64) : (s.alloc t blob spec).2.Synced := by
  have hm : ∀ key, getMeta (s.alloc t blob spec).2.kv key =
      if key = metaNextNode then some (s.next + 1) else getMeta s.kv key :=
    fun key => getMeta_putMeta s.kv metaNextNode key (s.next + 1)
  exact ⟨(hm metaRoot).trans h.root, hm metaNextNode, (hm metaCurSnap).trans h.cur, (hm metaClock).trans h.clock⟩

theorem Synced.guardedSet (h : s.Synced) (id : UInt64) (want : UInt32 → Bool) (f : NodeRec → NodeRec) :
    (s.guardedSet id want f).2.Synced := by
  unfold PrfsStore.guardedSet
  split
  · exact h
  · split_ifs
    · exact h.of_metaKv rfl
    · exact h

theorem Synced.move (h : s.Synced) (hs : s.Sound) (sdir ddir : Node) (sn dn : Bytes) :
    (s.move sdir sn ddir dn).2.Synced := by
  by_cases hok : (s.move sdir sn ddir dn).1 = .OK
  · unfold PrfsStore.move at hok ⊢
    cases hsr : loadNode s.kv sdir.id s.cur with
    | none => exact h
    | some sr =>
      simp only [hsr] at hok ⊢
      cases hg : s.kv.downLinks.get (be sdir.id ++ be sr.dnLinkVer ++ sn) with
      | none =>
        simp only [hg] at hok
        cases hok
      | some c =>
        have hc := hs.consistent s.cur
        obtain ⟨he, -, hup⟩ := linkT_spec hs.base hc ddir.id dn (rdbe c)
        simp only [hg] at hok ⊢
        rcases hl : linkT s.cur s.kv ddir.id dn (rdbe c) with ⟨e, kv'⟩
        rw [hl] at he hup hok
        cases e with
        | OK =>
          have hu := hup rfl
          have hc' := (View.Change.sound (.link he.symm) hc (hs.acyclic s.cur)).1
          dsimp only at hu
          rw [← hu.live] at hc'
          have hu' := (unlinkT_spec hu.base hc' sdir.id sn).2.2
          exact h.of_metaKv (hu'.frame.metaKv.trans hu.frame.metaKv)
        | _ => cases hok
  · rw [move_failed hs hok]
    exact h

theorem Synced.exec (h : s.Synced) (hs : s.Sound) (op : Op) : (s.exec op).2.Synced := by
  have hc := hs.consistent s.cur
  cases op with
  | mkdir => exact h.alloc ..
  | mkfile c => exact h.alloc ..
  | symlink t => exact h.alloc ..
  | mkfifo => exact h.alloc ..
  | mksock => exact h.alloc ..
  | mknod t maj min => exact h.alloc ..
  | link dir name child => exact h.of_metaKv (linkT_updates hs.base hc dir.id name child.id).frame.metaKv
  | unlink dir name => exact h.of_metaKv (unlinkT_spec hs.base hc dir.id name).2.2.frame.metaKv
  | move sdir sn ddir dn => exact h.move hs sdir ddir sn dn
  | setContent reg c => exact h.guardedSet ..
  | setTarget lnk t => exact h.guardedSet ..
  | setRdev dev maj min => exact h.guardedSet ..
  | setContentSeed reg seed => exact h.guardedSet ..
  | setAttr n x =>
    show (s.mutateNode n.id _).Synced
    unfold mutateNode
    split
    · exact h
    · exact h.of_metaKv rfl
  | setTime t =>
    have hm := getMeta_putMeta s.kv metaClock
    exact ⟨(hm metaRoot t).trans h.root, (hm metaNextNode t).trans h.next, (hm metaCurSnap t).trans h.cur,
      hm metaClock t⟩
  | setContentConfig blob =>
    have hm : ∀ key, key ≠ metaContentConfig →
        getMeta { s.kv with metaKv := s.kv.metaKv.put metaContentConfig blob } key = getMeta s.kv key := by
      intro key hk
      simp [getMeta, OrdMap.get_put, hk]
    exact ⟨(hm metaRoot (by decide)).trans h.root, (hm metaNextNode (by decide)).trans h.next,
      (hm metaCurSnap (by decide)).trans h.cur, (hm metaClock (by decide)).trans h.clock⟩
  | snapshot label =>
    have hm := getMeta_putMeta s.kv metaCurSnap
    exact ⟨(hm metaRoot (s.cur + 1)).trans h.root, (hm metaNextNode (s.cur + 1)).trans h.next,
      hm metaCurSnap (s.cur + 1), (hm metaClock (s.cur + 1)).trans h.clock⟩

theorem Synced.empty : PrfsStore.empty.Synced := ⟨by decide, by decide, by decide, by decide⟩

theorem stepTxn_eq (h : s.Sound) (op : Op) : s.stepTxn op = (s.exec op).2 := by rw [stepTxn, execTxn_eq h]

/-- The store keeps its invariants and its meta records over a transactional engine. -/
theorem stepTxn_keeps (h : s.Sound ∧ s.Synced) (hf : s.Fits op) : (s.stepTxn op).Sound ∧ (s.stepTxn op).Synced := by
  rw [stepTxn_eq h.1]
  exact ⟨h.1.exec hf, h.2.exec h.1 op⟩

theorem foldl_stepTxn_keeps (h : s.Sound ∧ s.Synced) (ha : Allowed stepTxn Fits s ops) :
    (ops.foldl stepTxn s).Sound ∧ (ops.foldl stepTxn s).Synced :=
  Reaches.invariant (P := fun s => s.Sound ∧ s.Synced) (fun _ _ hs hf => stepTxn_keeps hs hf) h
    (Reaches.of_allowed ha)

/-- The last contents published are those the store works on. -/
theorem commitLog_getLast (h : s.Sound ∧ s.Synced) (ha : Allowed stepTxn Fits s ops) :
    (s.kv :: commitLog s ops).getLast? = some (ops.foldl stepTxn s).kv := by
  induction ops generalizing s with
  | nil => rfl
  | cons op ops ih =>
    have hl := ih (stepTxn_keeps h ha.1) ha.2
    rw [commitLog, List.foldl_cons]
    cases hc : s.commits op with
    | true =>
      rw [if_pos rfl, List.getLast?_cons_cons]
      exact hl
    | false =>
      have hkv : (s.stepTxn op).kv = s.kv := by
        simp [stepTxn, execTxn, hc]
      rw [hkv] at hl
      exact hl

/-- A prefix of the transactions is what some first operations have committed. -/
theorem prefix_commitLog {pre : List Data} (hp : pre <+: commitLog s ops) :
    ∃ ops₁, ops₁ <+: ops ∧ commitLog s ops₁ = pre := by
  induction ops generalizing s pre with
  | nil => exact ⟨[], List.prefix_rfl, (List.prefix_nil.mp hp).symm⟩
  | cons op ops ih =>
    rw [commitLog] at hp
    split_ifs at hp with hc
    · cases pre with
      | nil => exact ⟨[], List.nil_prefix, rfl⟩
      | cons kv pre =>
        obtain ⟨rfl, htl⟩ := List.cons_prefix_cons.mp hp
        obtain ⟨ops₁, hpre, rfl⟩ := ih htl
        exact ⟨op :: ops₁, List.cons_prefix_cons.mpr ⟨rfl, hpre⟩, by rw [commitLog, if_pos hc]⟩
    · obtain ⟨ops₁, hpre, rfl⟩ := ih hp
      exact ⟨op :: ops₁, List.cons_prefix_cons.mpr ⟨rfl, hpre⟩, by rw [commitLog, if_neg hc]⟩

theorem guardedSet_counters (id : UInt64) (want : UInt32 → Bool) (f : NodeRec → NodeRec) :
    (s.guardedSet id want f).2.next = s.next ∧ (s.guardedSet id want f).2.cur = s.cur := by
  unfold guardedSet
  split
  · exact ⟨rfl, rfl⟩
  · split_ifs <;> exact ⟨rfl, rfl⟩

theorem move_counters (sdir ddir : Node) (sn dn : Bytes) :
    (s.move sdir sn ddir dn).2.next = s.next ∧ (s.move sdir sn ddir dn).2.cur = s.cur := by
  unfold move
  split
  · exact ⟨rfl, rfl⟩
  · split
    · exact ⟨rfl, rfl⟩
    · split <;> exact ⟨rfl, rfl⟩

theorem mutateNode_counters (id : UInt64) (f : NodeRec → NodeRec) :
    (s.mutateNode id f).next = s.next ∧ (s.mutateNode id f).cur = s.cur := by
  unfold mutateNode
  split <;> exact ⟨rfl, rfl⟩

/-- An operation hands out the number a counter stands at and moves the counter on, or
leaves it. -/
def Counts (pick : Res → Option UInt64) (ctr : PrfsStore → UInt64) : Prop :=
  ∀ s op, Fits s op → (pick (s.exec op).1 = none ∧ ctr (s.exec op).2 = ctr s) ∨
    (pick (s.exec op).1 = some (ctr s) ∧ ctr (s.exec op).2 = ctr s + 1 ∧ ctr s < LATEST)

theorem counts_next : Counts Res.nodeId? next := by
  intro s op hf
  have hnew : s.next < SNAP_BIT → s.next < LATEST := fun h => lt_trans h (by decide)
  cases op with
  | mkdir | mkfile | symlink | mkfifo | mksock | mknod => exact Or.inr ⟨rfl, rfl, hnew hf⟩
  | move sdir sn ddir dn => exact Or.inl ⟨rfl, (move_counters sdir ddir sn dn).1⟩
  | setContent | setTarget | setRdev | setContentSeed => exact Or.inl ⟨rfl, (guardedSet_counters ..).1⟩
  | setAttr => exact Or.inl ⟨rfl, (mutateNode_counters ..).1⟩
  | link | unlink | setTime | setContentConfig | snapshot => exact Or.inl ⟨rfl, rfl⟩

theorem counts_cur : Counts Res.snapId? cur := by
  intro s op hf
  cases op with
  | snapshot => exact Or.inr ⟨rfl, rfl, lt_trans hf (by decide)⟩
  | move sdir sn ddir dn => exact Or.inl ⟨rfl, (move_counters sdir ddir sn dn).2⟩
  | setContent | setTarget | setRdev | setContentSeed => exact Or.inl ⟨rfl, (guardedSet_counters ..).2⟩
  | setAttr => exact Or.inl ⟨rfl, (mutateNode_counters ..).2⟩
  | mkdir | mkfile | symlink | mkfifo | mksock | mknod | link | unlink | setTime | setContentConfig =>
    exact Or.inl ⟨rfl, rfl⟩

/-- Along a run a counter hands out ascending numbers, from where it stood on. -/
theorem Counts.ascending {pick : Res → Option UInt64} {ctr : PrfsStore → UInt64} (hcount : Counts pick ctr)
    (h : s.Sound ∧ s.Synced) (ha : Allowed stepTxn Fits s ops) :
    ((answers s ops).filterMap pick).Pairwise (· < ·) ∧ ctr s ≤ ctr (ops.foldl stepTxn s) ∧
      ∀ i ∈ (answers s ops).filterMap pick, ctr s ≤ i ∧ i < ctr (ops.foldl stepTxn s) := by
  induction ops generalizing s with
  | nil => simp [answers]
  | cons op ops ih =>
    obtain ⟨hsorted, hle, hin⟩ := ih (stepTxn_keeps h ha.1) ha.2
    simp only [answers, List.foldl_cons, execTxn_eq h.1]
    rcases hcount s op ha.1 with ⟨hnone, hctr⟩ | ⟨hsome, hctr, hlt⟩
    · rw [← stepTxn_eq h.1] at hctr
      rw [hctr] at hle hin
      rw [List.filterMap_cons_none hnone]
      exact ⟨hsorted, hle, hin⟩
    · rw [← stepTxn_eq h.1] at hctr
      have hup : ctr s < ctr (s.stepTxn op) := by
        rw [hctr]
        simp only [LATEST] at hlt
        grind
      rw [List.filterMap_cons_some hsome]
      refine ⟨List.pairwise_cons.mpr ⟨fun i hi => lt_of_lt_of_le hup (hin i hi).1, hsorted⟩,
        le_trans (le_of_lt hup) hle, fun i hi => ?_⟩
      rcases List.mem_cons.mp hi with rfl | hi
      · exact ⟨le_rfl, lt_of_lt_of_le hup hle⟩
      · exact ⟨le_trans (le_of_lt hup) (hin i hi).1, (hin i hi).2⟩

theorem Counts.nodup_across {pick : Res → Option UInt64} {ctr : PrfsStore → UInt64} (hcount : Counts pick ctr)
    (h : s.Sound ∧ s.Synced) (ha : Allowed stepTxn Fits s ops) {ops' : List Op}
    (ha' : Allowed stepTxn Fits (ops.foldl stepTxn s) ops') :
    ((answers s ops ++ answers (ops.foldl stepTxn s) ops').filterMap pick).Nodup := by
  obtain ⟨h1, -, hin1⟩ := hcount.ascending h ha
  obtain ⟨h2, -, hin2⟩ := hcount.ascending (foldl_stepTxn_keeps h ha) ha'
  rw [List.filterMap_append]
  have hsorted : (((answers s ops).filterMap pick) ++
      (answers (ops.foldl stepTxn s) ops').filterMap pick).Pairwise (· < ·) :=
    List.pairwise_append.mpr ⟨h1, h2, fun a ha b hb => lt_of_lt_of_le (hin1 a ha).2 (hin2 b hb).1⟩
  exact hsorted.imp fun hab => ne_of_lt hab

theorem Allowed.of_prefix {ops₁ : List Op} (ha : Allowed stepTxn Fits s ops) (hp : ops₁ <+: ops) :
    Allowed stepTxn Fits s ops₁ := by
  induction ops₁ generalizing s ops with
  | nil => trivial
  | cons op ops₁ ih =>
    obtain ⟨ops₂, rfl⟩ := hp
    exact ⟨ha.1, ih ha.2 (List.prefix_append ..)⟩

/-- A store opened over what any first transactions have left takes up where the store
that made them was: it writes nothing, has its counters and its consistent views, and no
run tells the two apart or hands an id out again. -/
theorem reopen_recovers (ha : Allowed stepTxn Fits empty ops) {pre : List Data} (hne : pre ≠ [])
    (hp : pre <+: txns ops) :
    (∃ ops₁, ops₁ <+: ops ∧ txns ops₁ = pre) ∧
    ∀ ops₁, ops₁ <+: ops → txns ops₁ = pre →
      (mk' (pre.getLast hne)).kv = pre.getLast hne ∧ mk' (pre.getLast hne) = ops₁.foldl stepTxn empty ∧
      (∀ g, (viewAt (pre.getLast hne) g).Consistent ∧ (viewAt (pre.getLast hne) g).Acyclic) ∧
      (FewLinksRun empty (mk' (pre.getLast hne)) → ∀ g, (viewAt (pre.getLast hne) g).Counted 1) ∧
      ∀ ops', Allowed stepTxn Fits (mk' (pre.getLast hne)) ops' →
        answers (mk' (pre.getLast hne)) ops' = answers (ops₁.foldl stepTxn empty) ops' ∧
        ((answers empty ops₁ ++ answers (mk' (pre.getLast hne)) ops').filterMap Res.nodeId?).Nodup ∧
        ((answers empty ops₁ ++ answers (mk' (pre.getLast hne)) ops').filterMap Res.snapId?).Nodup := by
  have h0 : PrfsStore.empty.Sound ∧ PrfsStore.empty.Synced := ⟨.empty, .empty⟩
  constructor
  · obtain ⟨kv, pre, rfl⟩ := List.exists_cons_of_ne_nil hne
    obtain ⟨rfl, htl⟩ := List.cons_prefix_cons.mp hp
    obtain ⟨ops₁, hpre, rfl⟩ := prefix_commitLog htl
    exact ⟨ops₁, hpre, rfl⟩
  · rintro ops₁ hpre rfl
    have ha₁ := Allowed.of_prefix ha hpre
    obtain ⟨hs, hm⟩ := foldl_stepTxn_keeps h0 ha₁
    have hlast : (txns ops₁).getLast hne = (ops₁.foldl stepTxn empty).kv := by
      have hl := commitLog_getLast h0 ha₁
      exact Option.some.inj ((List.getLast?_eq_some_getLast hne).symm.trans hl)
    rw [hlast, hm.reopen]
    refine ⟨rfl, rfl, fun g => ⟨hs.consistent g, hs.acyclic g⟩, fun hfew g => ?_, fun ops' ha' => ⟨rfl, ?_, ?_⟩⟩
    · obtain ⟨a, hr, -, hcnt⟩ := hfew.counted
      rw [hr.viewAt_eq]
      exact hcnt g
    · exact counts_next.nodup_across h0 ha₁ ha'
    · exact counts_cur.nodup_across h0 ha₁ ha'

/-- A link that fails between two that commit, and a snapshot. -/
def crashRun : List Op :=
  [.mkfile [], .link ⟨1, LATEST⟩ [97] ⟨2, LATEST⟩, .link ⟨1, LATEST⟩ [97] ⟨2, LATEST⟩, .snapshot [], .mkdir]

theorem crashRun_take_ne : (txns crashRun).take 4 ≠ [] := by decide

theorem reopen_recovers_before_last :
    mk' (((txns crashRun).take 4).getLast crashRun_take_ne) = (crashRun.take 4).foldl stepTxn empty ∧
      ((crashRun.take 4).foldl stepTxn empty).next = 3 := by
  have h := (@reopen_recovers crashRun (by decide) _ crashRun_take_ne (List.take_prefix ..)).2
    (crashRun.take 4) (List.take_prefix ..) (by decide)
  exact ⟨h.2.1, by decide⟩

end PrfsStore

end Prfs
