import Prfs.ByteLocks
import Prfs.StateIds

namespace Prfs

/-- The byte is held with this type. -/
def LockState.Holds (l : LockState) (x : UInt64) (type : UInt32) : Prop :=
  ∃ rg ∈ l.ranges, rg.type = type ∧ rg.Covers x

/-- Byte `x` is among the `len` bytes from `off` on. -/
abbrev Spans (off len x : UInt64) : Prop := LockRange.Covers ⟨off, len, 0⟩ x

namespace NfsV4

variable {v : NfsV4} {l : LockState} {off len : UInt64}

section Locku

end Locku

section Lock

variable {pos : WalkOrder} {hash : Bytes → UInt64} {h : UInt64 × Bytes × UInt64} {locktype : UInt32} {locker : Locker}
  {fileId : UInt64}

/-- Whose lock on the file a LOCK is about: a confirmed client's, or that of the stateid. -/
def lockHolder (v : NfsV4) (fileId : UInt64) : Locker → Option (UInt64 × Bytes × UInt64)
  | .new _ clientid owner => if v.clientConfirmed clientid then some (clientid, owner, fileId) else none
  | .existing sid => (v.locks.get sid.id).map (fun l => (l.clientid, l.owner, fileId))

theorem opLock_eq (hh : v.lockHolder fileId locker = some h) :
    v.opLock pos locktype off len locker (some fileId) = v.lockFile pos (writes locktype) off len h.1 h.2.1 h.2.2 := by
  cases locker with
  | new openSid clientid owner =>
    simp only [lockHolder, Option.ite_none_right_eq_some, Option.some.injEq] at hh
    obtain ⟨hconf, rfl⟩ := hh
    simp [opLock, hconf]
  | existing sid =>
    obtain ⟨l, hl, rfl⟩ := Option.map_eq_some_iff.mp hh
    simp [opLock, hl]

/-- A LOCK that is answered OK names a file and the holder of a lock. -/
theorem lock_ok {file : Option UInt64} (hok : (v.exec hash pos (.lock locktype off len locker file)).1.status = .ok) :
    ∃ fileId h, file = some fileId ∧ v.lockHolder fileId locker = some h ∧
      v.findConflict pos (writes locktype) off len h.1 h.2.1 h.2.2 = none := by
  obtain ⟨fileId, h, rfl, hh⟩ : ∃ fileId h, file = some fileId ∧ v.lockHolder fileId locker = some h := by
    cases locker with
    | new openSid clientid owner =>
      simp only [exec, opLock] at hok
      split_ifs at hok with hconf
      cases file with
      | none => cases hok
      | some fileId => exact ⟨fileId, (clientid, owner, fileId), rfl, by simpa [lockHolder] using hconf⟩
    | existing sid =>
      cases file with
      | none => cases hok
      | some fileId =>
        simp only [exec, opLock] at hok
        cases hl : v.locks.get sid.id with
        | none =>
          rw [hl] at hok
          cases hok
        | some l => exact ⟨fileId, (l.clientid, l.owner, fileId), rfl, by simp [lockHolder, hl]⟩
  refine ⟨fileId, h, rfl, hh, ?_⟩
  simp only [exec, opLock_eq hh, lockFile] at hok
  split at hok
  · cases hok
  · assumption

/-- The locks that a LOCK for this holder leaves as they are: its own new one takes the place of what is under the
next key, which is nothing as long as the counter has not come round. -/
def locksLeft (pos : WalkOrder) (v : NfsV4) (h : UInt64 × Bytes × UInt64) : OrdMap UInt64 LockState :=
  if firstKey pos v.locks (fun l => l.holder = h) = 0 then v.locks.del v.nextState else v.locks

theorem get_locksLeft {k : UInt64} (hl : (v.locksLeft pos h).get k = some l) : v.locks.get k = some l := by
  unfold locksLeft at hl
  split_ifs at hl
  · rw [OrdMap.get_del] at hl
    split_ifs at hl
    exact hl
  · exact hl

theorem lockFile_granted (write : Bool) (hn : v.findConflict pos write off len h.1 h.2.1 h.2.2 = none) :
    ∃ k l, l.holder = h ∧
      ((v.locksLeft pos h).get k = some l ∨ (v.locksLeft pos h).get k = none ∧ l.ranges = []) ∧
      (v.lockFile pos write off len h.1 h.2.1 h.2.2).2.locks = (v.locksLeft pos h).put k { l with
        ranges := l.ranges ++ [{ off, len, type := grantedType write }], seqid := l.seqid + 1 } := by
  obtain ⟨clientid, owner, fileId⟩ := h
  simp only [lockFile, hn, ownLock, ← LockState.holder_eq, locksLeft]
  by_cases hk : firstKey pos v.locks (fun l => l.holder = (clientid, owner, fileId)) = 0
  · simp only [hk, if_pos, ne_eq, not_true, if_false, OrdMap.get_put, Option.getD_some, OrdMap.put_put]
    refine ⟨v.nextState, { clientid, owner, fileId }, rfl, Or.inr ⟨by simp, rfl⟩, ?_⟩
    rw [OrdMap.put_del]
  · obtain ⟨l, hl, hp⟩ := firstKey_spec hk
    simp only [ne_eq, hk, not_false_eq_true, if_true, if_false, hl, Option.getD_some]
    exact ⟨_, l, by simpa using hp, Or.inl hl, rfl⟩

/-- The byte is held with this type on the holder's file. -/
def HeldBy (m : OrdMap UInt64 LockState) (h : UInt64 × Bytes × UInt64) (x : UInt64) (type : UInt32) : Prop :=
  ∃ k l, m.get k = some l ∧ l.holder = h ∧ l.Holds x type

/-- A range added to one of the holder's locks. -/
theorem heldBy_put {m : OrdMap UInt64 LockState} {k x : UInt64} {type seqid : UInt32} {rg : LockRange}
    (hl : l.holder = h) (hk : m.get k = some l ∨ m.get k = none ∧ l.ranges = []) :
    HeldBy (m.put k { l with ranges := l.ranges ++ [rg], seqid }) h x type ↔
      rg.type = type ∧ rg.Covers x ∨ HeldBy m h x type := by
  have hput : (m.put k { l with ranges := l.ranges ++ [rg], seqid }).get k =
      some { l with ranges := l.ranges ++ [rg], seqid } := by rw [OrdMap.get_put, if_pos rfl]
  constructor
  · rintro ⟨j, l', hl', hh, rg', hrg', hx⟩
    rw [OrdMap.get_put] at hl'
    split_ifs at hl' with hj
    · cases hl'
      rcases List.mem_append.mp hrg' with hrg' | hrg'
      · rcases hk with hk | ⟨-, hk⟩
        · exact Or.inr ⟨k, l, hk, hl, rg', hrg', hx⟩
        · rw [hk] at hrg'
          cases hrg'
      · cases List.mem_singleton.mp hrg'
        exact Or.inl hx
    · exact Or.inr ⟨j, l', hl', hh, rg', hrg', hx⟩
  · rintro (hx | ⟨j, l', hl', hh, rg', hrg', hx⟩)
    · exact ⟨k, _, hput, hl, rg, by simp, hx⟩
    · by_cases hj : j = k
      · subst hj
        rcases hk with hk | ⟨hk, -⟩
        · cases hk.symm.trans hl'
          exact ⟨j, _, hput, hl, rg', by simp [hrg'], hx⟩
        · rw [hk] at hl'
          cases hl'
      · exact ⟨j, l', by rw [OrdMap.get_put, if_neg hj, hl'], hh, rg', hrg', hx⟩

/-- A LOCK gives the bytes asked for this type and no other, and leaves what the holder has outside them. -/
def SetsType (v w : NfsV4) (h : UInt64 × Bytes × UInt64) (off len : UInt64) (type : UInt32) : Prop :=
  (∀ x t, Spans off len x → (HeldBy w.locks h x t ↔ t = type)) ∧
    ∀ x t, ¬ Spans off len x → (HeldBy w.locks h x t ↔ HeldBy v.locks h x t)

/-- In the locks that stay none of the bytes asked for has another type, and all bytes outside them are there. -/
def OneType (pos : WalkOrder) (v : NfsV4) (h : UInt64 × Bytes × UInt64) (off len : UInt64) (type : UInt32) : Prop :=
  (∀ x t, Spans off len x → HeldBy (v.locksLeft pos h) h x t → t = type) ∧
    ∀ x t, ¬ Spans off len x → HeldBy v.locks h x t → HeldBy (v.locksLeft pos h) h x t

theorem heldBy_locksLeft {x : UInt64} {type : UInt32} (hx : HeldBy (v.locksLeft pos h) h x type) :
    HeldBy v.locks h x type := by
  obtain ⟨k, l, hl, hx⟩ := hx
  exact ⟨k, l, get_locksLeft hl, hx⟩

/-- A granted LOCK sets the type of exactly the bytes asked for where its owner has none of them with the other type. -/
theorem lock_sets_type_iff {file : Option UInt64}
    (hok : (v.exec hash pos (.lock locktype off len locker file)).1.status = .ok) :
    ∃ fileId h, file = some fileId ∧ v.lockHolder fileId locker = some h ∧
      (SetsType v (v.exec hash pos (.lock locktype off len locker file)).2 h off len (grantedType (writes locktype)) ↔
        OneType pos v h off len (grantedType (writes locktype))) := by
  obtain ⟨fileId, h, rfl, hh, hn⟩ := lock_ok hok
  refine ⟨fileId, h, rfl, hh, ?_⟩
  obtain ⟨k, l, hl, hk, hlocks⟩ := lockFile_granted (writes locktype) hn
  have hheld : ∀ x t, HeldBy (v.exec hash pos (.lock locktype off len locker (some fileId))).2.locks h x t ↔
      grantedType (writes locktype) = t ∧ Spans off len x ∨ HeldBy (v.locksLeft pos h) h x t := by
    intro x t
    rw [exec, opLock_eq hh, hlocks]
    exact heldBy_put hl hk
  simp only [SetsType, OneType, hheld]
  refine and_congr ⟨fun hset x t hx hleft => ?_, fun hone x t hx => ⟨?_, fun ht => Or.inl ⟨ht.symm, hx⟩⟩⟩
    ⟨fun hset x t hx hheld => ?_, fun hone x t hx => ⟨?_, fun hheld => Or.inr (hone x t hx hheld)⟩⟩
  · exact (hset x t hx).mp (Or.inr hleft)
  · rintro (⟨ht, -⟩ | hleft)
    · exact ht.symm
    · exact hone x t hx hleft
  · exact ((hset x t hx).mpr hheld).resolve_left fun h => hx h.2
  · rintro (⟨-, hspan⟩ | hleft)
    · exact absurd hspan hx
    · exact heldBy_locksLeft hleft

/-- The owner of the read lock takes the bytes behind it too. -/
theorem lock_sets_type_iff_next :
    ∃ fileId h, some 2 = some fileId ∧ opened.lockHolder fileId (.existing ⟨2, 2, 1⟩) = some h ∧
      (SetsType opened (opened.exec (fun _ => 0) (fun _ => 0) (.lock READ_LT 10 10 (.existing ⟨2, 2, 1⟩) (some 2))).2 h
          10 10 (grantedType (writes READ_LT)) ↔
        OneType (fun _ => 0) opened h 10 10 (grantedType (writes READ_LT))) :=
  lock_sets_type_iff (by decide)

/-- A write lock on a file. -/
def writeLocked : NfsV4 := booted.step (fun _ => 0) (fun _ => 0, .lock WRITE_LT 0 10 (.new ⟨1, 1, 0⟩ 1 [65]) (some 2))

/-- A write lock that its owner takes again as a read lock is still a write lock. -/
theorem relocked_still_writes :
    let w := (writeLocked.exec (fun _ => 0) (fun _ => 0) (.lock READ_LT 0 10 (.existing ⟨2, 1, 1⟩) (some 2)))
    StateRun (fun _ => 0) {} writeLocked ∧ w.1.status = .ok ∧
      ¬ SetsType writeLocked w.2 (1, [65], 2) 0 10 READ_LT ∧
      (w.2.opLockt (fun _ => 0) READ_LT 0 10 1 [66] (some 2)).status = .denied := by
  dsimp only
  have hrun : StateRun (fun _ => 0) {} writeLocked := stateRun_booted.tail (by decide)
  refine ⟨hrun, by decide, fun h => ?_, by decide⟩
  have hlock : (writeLocked.exec (fun _ => 0) (fun _ => 0)
      (.lock READ_LT 0 10 (.existing ⟨2, 1, 1⟩) (some 2))).2.locks.get 1 =
      some { clientid := 1, owner := [65], fileId := 2, seqid := 3,
             ranges := [⟨0, 10, WRITE_LT⟩, ⟨0, 10, READ_LT⟩] } := by decide
  have hheld : HeldBy (writeLocked.exec (fun _ => 0) (fun _ => 0)
      (.lock READ_LT 0 10 (.existing ⟨2, 1, 1⟩) (some 2))).2.locks (1, [65], 2) 0 WRITE_LT :=
    ⟨1, _, hlock, rfl, ⟨0, 10, WRITE_LT⟩, by simp, rfl, by simp [LockRange.Covers]⟩
  have hread := (h.1 0 WRITE_LT (by simp [Spans, LockRange.Covers])).mp hheld
  exact absurd hread (by decide)

end Lock

end NfsV4

end Prfs
