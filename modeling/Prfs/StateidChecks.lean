import Prfs.StateIds

namespace Prfs

namespace NfsV4

variable {v w : NfsV4} {pos : WalkOrder} {hash : Bytes → UInt64}

/-- The stateid that an operation on the tables is given, and whether it is to be that of an open. -/
def Req.stateid : Req → Option (Bool × Stateid)
  | .close sid | .openConfirm sid | .openDowngrade sid _ _ | .lock _ _ _ (.new sid _ _) _ => some (true, sid)
  | .lock _ _ _ (.existing sid) _ | .locku sid _ _ => some (false, sid)
  | _ => none

/-- The stateid is that of a live open, or of a live lock; its tag tells which it is. -/
def Names (v : NfsV4) : Bool → Stateid → Prop
  | true, sid => sid.tag = 0 ∧ v.opens.get sid.id ≠ none
  | false, sid => sid.tag ≠ 0 ∧ v.locks.get sid.id ≠ none

/-- The answer is BAD_STATEID, and the tables stay as they are. -/
def Rejects (hash : Bytes → UInt64) (pos : WalkOrder) (v : NfsV4) (q : Req) : Prop :=
  (v.exec hash pos q).1.status = .badStateid ∧ (v.exec hash pos q).2.opens = v.opens ∧
    (v.exec hash pos q).2.locks = v.locks ∧ (v.exec hash pos q).2.confirmedOwners = v.confirmedOwners

/-- The operation looks its stateid up, and the id is no key of the table it looks in. -/
def Missed (v : NfsV4) : Req → Prop
  | .close sid | .openDowngrade sid _ _ => v.opens.get sid.id = none
  | .locku sid _ _ => v.locks.get sid.id = none
  | .lock _ _ _ (.existing sid) file => file ≠ none ∧ v.locks.get sid.id = none
  | _ => False

theorem lockFile_not_badStateid {write : Bool} {off len clientid : UInt64} {owner : Bytes} {fileId : UInt64} :
    (v.lockFile pos write off len clientid owner fileId).1.status ≠ .badStateid := by
  unfold lockFile
  split <;> simp

/-- The answer is BAD_STATEID where a look-up finds nothing. -/
theorem badStateid_iff {q : Req} {opens : Bool} {sid : Stateid} (hq : q.stateid = some (opens, sid))
    (hsp : sid.special = false) : (v.exec hash pos q).1.status = .badStateid ↔ v.Missed q := by
  cases q with
  | close s =>
    simp only [Req.stateid, Option.some.injEq, Prod.mk.injEq] at hq
    obtain ⟨rfl, rfl⟩ := hq
    cases ho : v.opens.get s.id <;> simp [Missed, exec, opClose, hsp, ho]
  | openConfirm s =>
    refine iff_of_false (fun hst => ?_) id
    simp only [exec, opOpenConfirm] at hst
    split at hst <;> cases hst
  | openDowngrade s access deny =>
    cases ho : v.opens.get s.id <;> simp [Missed, exec, opOpenDowngrade, ho]
  | locku s off len =>
    cases hl : v.locks.get s.id <;> simp [Missed, exec, opLocku, hl]
  | lock locktype off len locker file =>
    cases locker with
    | new s clientid owner =>
      refine iff_of_false (fun hst => ?_) id
      simp only [exec, opLock] at hst
      split_ifs at hst
      split at hst
      · cases hst
      · exact lockFile_not_badStateid hst
    | existing s =>
      cases file with
      | none => simp [Missed, exec, opLock]
      | some fileId =>
        cases hl : v.locks.get s.id with
        | none => simp [Missed, exec, opLock, hl]
        | some l => simp [Missed, exec, opLock, hl, lockFile_not_badStateid]
  | _ => simp [Req.stateid] at hq

/-- A look-up that finds nothing leaves the tables as they are. -/
theorem exec_of_missed {q : Req} (h : v.Missed q) : (v.exec hash pos q).2 = v := by
  cases q with
  | close s =>
    have ho : v.opens.get s.id = none := h
    simp only [exec, opClose, ho]
    split_ifs <;> rfl
  | openDowngrade s access deny =>
    have ho : v.opens.get s.id = none := h
    simp only [exec, opOpenDowngrade, ho]
  | locku s off len =>
    have hl : v.locks.get s.id = none := h
    simp only [exec, opLocku, hl]
  | lock locktype off len locker file =>
    cases locker with
    | new s clientid owner => exact h.elim
    | existing s =>
      obtain ⟨hfile, hl⟩ : file ≠ none ∧ v.locks.get s.id = none := h
      obtain ⟨fileId, rfl⟩ := Option.ne_none_iff_exists'.mp hfile
      simp only [exec, opLock, hl]
  | _ => exact h.elim

/-- A dead stateid is refused exactly where the operation looks it up and finds no state under its id. -/
theorem dead_rejected_iff (hash : Bytes → UInt64) (pos : WalkOrder) (v : NfsV4) {q : Req} {opens : Bool} {sid : Stateid}
    (hq : q.stateid = some (opens, sid)) (hsp : sid.special = false) (_ : ¬ v.Names opens sid) :
    Rejects hash pos v q ↔ v.Missed q := by
  constructor
  · intro h
    exact (badStateid_iff hq hsp).mp h.1
  · intro h
    have hv : (v.exec hash pos q).2 = v := exec_of_missed h
    exact ⟨(badStateid_iff hq hsp).mpr h, by rw [hv], by rw [hv], by rw [hv]⟩

/-- A closed open: CLOSE refuses its stateid. -/
theorem dead_rejected_iff_close :
    Rejects (fun _ => 0) (fun _ => 0) closed (.close ⟨1, 1, 0⟩) ↔ closed.Missed (.close ⟨1, 1, 0⟩) :=
  dead_rejected_iff _ _ closed rfl (by decide) (by simp only [Names]; decide)

/-- The stateid of the closed open still gets a lock for a new lock-owner. -/
theorem lock_from_closed_open :
    StateRun (fun _ => 0) {} closed ∧ ¬ closed.Names true ⟨1, 1, 0⟩ ∧
      ¬ Rejects (fun _ => 0) (fun _ => 0) closed (.lock WRITE_LT 0 10 (.new ⟨1, 1, 0⟩ 1 [66]) (some 3)) := by
  refine ⟨stateRun_opened.trans stateRun_closed, by simp only [Names]; decide, fun h => ?_⟩
  have hst : (closed.exec (fun _ => 0) (fun _ => 0)
      (.lock WRITE_LT 0 10 (.new ⟨1, 1, 0⟩ 1 [66]) (some 3))).1.status = .ok := by decide
  cases hst.symm.trans h.1

end NfsV4

end Prfs
