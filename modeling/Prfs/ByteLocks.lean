import Prfs.Nfs4Effects

namespace Prfs

/-- Byte `x` is in the range, its end taken in exact integers. -/
def LockRange.Covers (rg : LockRange) (x : UInt64) : Prop :=
  rg.off ≤ x ∧ (rg.len = 0xffffffffffffffff ∨ x.toNat < rg.off.toNat + rg.len.toNat)

/-- The range ends below `2^64`, or runs to the end of the file from below the last byte. -/
def InBounds (off len : UInt64) : Prop :=
  off.toNat + len.toNat < 2 ^ 64 ∨ len = 0xffffffffffffffff ∧ off < 0xffffffffffffffff

instance InBounds.decidable (off len : UInt64) : Decidable (InBounds off len) :=
  inferInstanceAs (Decidable (_ ∨ _))

theorem rangeEnd_toNat {off len : UInt64} (h : InBounds off len) :
    (rangeEnd off len).toNat = if len = 0xffffffffffffffff then 2 ^ 64 - 1 else off.toNat + len.toNat := by
  unfold rangeEnd
  split_ifs with hl
  · rfl
  · obtain h | ⟨h, -⟩ := h
    · rw [UInt64.toNat_add, Nat.mod_eq_of_lt h]
    · exact absurd h hl

theorem lt_rangeEnd {a b : LockRange} {x : UInt64} (ha : InBounds a.off a.len) (hb : InBounds b.off b.len)
    (hax : a.Covers x) (hbx : b.Covers x) : a.off < rangeEnd b.off b.len := by
  have hle : a.off.toNat ≤ x.toNat := UInt64.le_iff_toNat_le.mp hax.1
  rw [UInt64.lt_iff_toNat_lt, rangeEnd_toNat hb]
  split_ifs with hl
  · obtain h | ⟨-, h⟩ := ha
    · obtain hlen | hlt := hax.2
      · rw [hlen] at h
        simp at h
        omega
      · omega
    · exact UInt64.lt_iff_toNat_lt.mp h
  · exact lt_of_le_of_lt hle (hbx.2.resolve_left hl)

theorem overlaps_of_covers {a b : LockRange} {x : UInt64} (ha : InBounds a.off a.len) (hb : InBounds b.off b.len)
    (hax : a.Covers x) (hbx : b.Covers x) : overlaps a.off a.len b.off b.len = true := by
  simp only [overlaps, Bool.and_eq_true, decide_eq_true_eq]
  exact ⟨lt_rangeEnd ha hb hax hbx, lt_rangeEnd hb ha hbx hax⟩

/-- Ranges of two lock-owners, one of them a WRITE range, have no byte in common. -/
def LockRange.Apart (a b : LockRange) : Prop :=
  a.type = WRITE_LT ∨ b.type = WRITE_LT → ∀ x, ¬ (a.Covers x ∧ b.Covers x)

theorem LockRange.Apart.symm {a b : LockRange} (h : a.Apart b) : b.Apart a :=
  fun hw x hx => h hw.symm x hx.symm

/-- The two locks are on one file and of different lock-owners. -/
def LockState.Rival (l l' : LockState) : Prop :=
  l.fileId = l'.fileId ∧ ¬ (l.clientid = l'.clientid ∧ l.owner = l'.owner)

theorem LockState.Rival.symm {l l' : LockState} (h : l.Rival l') : l'.Rival l :=
  ⟨h.1.symm, fun ho => h.2 ⟨ho.1.symm, ho.2.symm⟩⟩

namespace NfsV4

variable {v : NfsV4} {m m' : OrdMap UInt64 LockState} {k : UInt64} {l l' : LockState}

/-- The locks of a server whose ranges are all in bounds. -/
structure LocksHold (m : OrdMap UInt64 LockState) : Prop where
  bounds : ∀ {k l}, m.get k = some l → ∀ rg ∈ l.ranges, InBounds rg.off rg.len
  apart : ∀ {k k' l l'}, m.get k = some l → m.get k' = some l' → l.Rival l' →
    ∀ rg ∈ l.ranges, ∀ rg' ∈ l'.ranges, rg.Apart rg'

theorem locksHold_empty : LocksHold OrdMap.empty :=
  ⟨fun hl => absurd hl (by simp), fun hl => absurd hl (by simp)⟩

theorem LocksHold.mono (h : LocksHold m) (hsub : ∀ k l, m'.get k = some l → m.get k = some l) : LocksHold m' :=
  ⟨fun hl => h.bounds (hsub _ _ hl), fun hl hl' => h.apart (hsub _ _ hl) (hsub _ _ hl')⟩

theorem LocksHold.put (h : LocksHold m) (hb : ∀ rg ∈ l.ranges, InBounds rg.off rg.len)
    (ha : ∀ k' l', m.get k' = some l' → l.Rival l' → ∀ rg ∈ l.ranges, ∀ rg' ∈ l'.ranges, rg.Apart rg') :
    LocksHold (m.put k l) := by
  refine ⟨fun {j p} hp => ?_, fun {i j p q} hp hq hr => ?_⟩
  · rw [OrdMap.get_put] at hp
    split_ifs at hp
    · cases hp
      exact hb
    · exact h.bounds hp
  · rw [OrdMap.get_put] at hp hq
    split_ifs at hp hq
    · cases hp
      cases hq
      exact absurd ⟨rfl, rfl⟩ hr.2
    · cases hp
      exact ha j q hq hr
    · cases hq
      exact fun rg hrg rg' hrg' => (ha i p hp hr.symm rg' hrg' rg hrg).symm
    · exact h.apart hp hq hr

theorem findConflict_none {pos : WalkOrder} {write : Bool} {off len clientid : UInt64} {owner : Bytes}
    {fileId : UInt64} (h : v.findConflict pos write off len clientid owner fileId = none)
    (hl : v.locks.get k = some l) (hf : l.fileId = fileId) (ho : ¬ (l.clientid = clientid ∧ l.owner = owner))
    {rg : LockRange} (hrg : rg ∈ l.ranges) (hw : write = true ∨ rg.type = WRITE_LT) :
    overlaps off len rg.off rg.len = false := by
  have he := List.findSome?_eq_none_iff.mp h (k, l) (mem_walk.mpr hl)
  have hne : (decide (l.fileId ≠ fileId) || (decide (l.clientid = clientid) && decide (l.owner = owner))) = false := by
    simpa [hf] using ho
  rw [hne] at he
  have hn := List.find?_eq_none.mp (Option.map_eq_none_iff.mp he) rg hrg
  rcases hw with rfl | hw
  · simpa using hn
  · simpa [hw] using hn

theorem grantedType_eq_write {write : Bool} (h : grantedType write = WRITE_LT) : write = true := by
  cases write with
  | true => rfl
  | false => exact absurd h (by decide)

/-- The range a granted request adds is apart from those of the other lock-owners. -/
theorem apart_of_no_conflict (h : LocksHold v.locks) {pos : WalkOrder} {write : Bool} {off len clientid : UInt64}
    {owner : Bytes} {fileId : UInt64} (hn : v.findConflict pos write off len clientid owner fileId = none)
    (hin : InBounds off len) (hl' : v.locks.get k = some l') (hf : l'.fileId = fileId)
    (ho : ¬ (l'.clientid = clientid ∧ l'.owner = owner)) {rg' : LockRange} (hrg' : rg' ∈ l'.ranges) :
    LockRange.Apart { off, len, type := grantedType write } rg' := by
  rintro hw x ⟨hx, hx'⟩
  have hov := overlaps_of_covers hin (h.bounds hl' rg' hrg') hx hx'
  have hwrite : write = true ∨ rg'.type = WRITE_LT := hw.imp_left grantedType_eq_write
  rw [findConflict_none hn hl' hf ho hrg' hwrite] at hov
  exact absurd hov (by decide)

/-- Adding a range to a lock of the requesting owner, held already or made for it. -/
theorem LocksHold.grant (h : LocksHold m) (hl : m.get k = some l) (rg : LockRange) (hin : InBounds rg.off rg.len)
    (ha : ∀ k' l', m.get k' = some l' → l.Rival l' → ∀ rg' ∈ l'.ranges, rg.Apart rg') (seqid : UInt32) :
    LocksHold (m.put k { l with ranges := l.ranges ++ [rg], seqid }) := by
  refine h.put (fun a hmem => ?_) (fun k' l' hl' hr a hmem => ?_)
  · rcases List.mem_append.mp hmem with hmem | hmem
    · exact h.bounds hl a hmem
    · obtain rfl := List.mem_singleton.mp hmem
      exact hin
  · rcases List.mem_append.mp hmem with hmem | hmem
    · exact h.apart hl hl' hr a hmem
    · obtain rfl := List.mem_singleton.mp hmem
      exact ha k' l' hl' hr

/-- The lock found or made is the owner's, and no other owner's lock on the file changes. -/
theorem ownLock_spec (h : LocksHold v.locks) {pos : WalkOrder} {clientid : UInt64} {owner : Bytes}
    {fileId lid : UInt64} {w : NfsV4} (hw : v.ownLock pos clientid owner fileId = (lid, w)) :
    LocksHold w.locks ∧ ∃ l, w.locks.get lid = some l ∧ l.fileId = fileId ∧ l.clientid = clientid ∧
      l.owner = owner ∧ ∀ k' l', w.locks.get k' = some l' → l.Rival l' → v.locks.get k' = some l' := by
  unfold ownLock at hw
  dsimp only at hw
  split_ifs at hw with hheld
  · cases hw
    obtain ⟨l, hl, hp⟩ := firstKey_spec hheld
    obtain ⟨⟨hf, hc⟩, ho⟩ : (l.fileId = fileId ∧ l.clientid = clientid) ∧ l.owner = owner := by simpa using hp
    exact ⟨h, l, hl, hf, hc, ho, fun _ _ hl' _ => hl'⟩
  · cases hw
    refine ⟨h.put (by simp) (by simp), _, by rw [OrdMap.get_put, if_pos rfl], rfl, rfl, rfl, ?_⟩
    intro k' l' hl' hr
    rw [OrdMap.get_put] at hl'
    split_ifs at hl'
    · cases hl'
      exact absurd ⟨rfl, rfl⟩ hr.2
    · exact hl'

theorem lockFile_locks (h : LocksHold v.locks) {pos : WalkOrder} {write : Bool} {off len clientid : UInt64}
    {owner : Bytes} {fileId : UInt64} (hin : InBounds off len) :
    LocksHold (v.lockFile pos write off len clientid owner fileId).2.locks := by
  unfold lockFile
  split
  · exact h
  · next hn =>
    obtain ⟨⟨lid, w⟩, hw⟩ : ∃ r, v.ownLock pos clientid owner fileId = r := ⟨_, rfl⟩
    obtain ⟨hh, l, hl, rfl, rfl, rfl, hkeep⟩ := ownLock_spec h hw
    simp only [hw, hl, Option.getD_some]
    refine hh.grant hl { off, len, type := grantedType write } hin (fun k' l' hl' hr rg' hrg' => ?_) _
    exact apart_of_no_conflict h hn hin (hkeep k' l' hl' hr) hr.symm.1 hr.symm.2 hrg'

theorem openFile_locks {pos : WalkOrder} {access deny : UInt32} {clientid : UInt64} {owner : Bytes}
    {fileId : UInt64} : (v.openFile pos access deny clientid owner fileId).2.locks = v.locks := by
  unfold openFile
  dsimp only
  split_ifs <;> rfl

def LockInBounds : Req → Prop
  | .lock _ off len _ _ => InBounds off len
  | _ => True

instance LockInBounds.decidable (r : Req) : Decidable (LockInBounds r) := by
  unfold LockInBounds
  split <;> infer_instance

/-- What each request does to the locks. -/
theorem exec_locks (hash : Bytes → UInt64) (pos : WalkOrder) {r : Req} (h : LocksHold v.locks)
    (hin : LockInBounds r) : LocksHold (v.exec hash pos r).2.locks := by
  cases r with
  | setClientid verifier id cbProgram cbNetid cbAddr cbIdent =>
    simp only [exec, opSetClientid]
    split_ifs <;> exact h
  | setClientidConfirm clientid confirm =>
    rcases opSetClientidConfirm_cases pos v clientid confirm with hv | ⟨r, -, -, -, hv⟩
    · rwa [exec, hv]
    · rw [exec, hv]
      exact h.mono fun _ _ hl => (dropLeases_locks_iff.mp hl).1
  | openFile access deny clientid owner file =>
    rcases opOpen_cases pos v access deny clientid owner file with hv | ⟨fileId, -, -, hv⟩
    · rwa [exec, hv]
    · rwa [exec, hv, openFile_locks]
  | openConfirm sid =>
    simp only [exec, opOpenConfirm]
    split <;> exact h
  | openDowngrade sid access deny =>
    simp only [exec, opOpenDowngrade]
    split <;> exact h
  | close sid =>
    rcases opClose_cases v sid with hv | hv
    · rwa [exec, hv]
    · rwa [exec, hv]
  | lock locktype off len locker file =>
    rcases opLock_cases pos v locktype off len locker file with hv | ⟨clientid, owner, fileId, -, hv⟩
    · rwa [exec, hv]
    · rw [exec, hv]
      exact lockFile_locks h hin
  | locku sid off len =>
    simp only [exec, opLocku]
    split
    · exact h
    · next l hl =>
      refine h.put (fun rg hrg => h.bounds hl rg (List.mem_of_mem_filter hrg)) ?_
      exact fun k' l' hl' hr rg hrg => h.apart hl hl' hr rg (List.mem_of_mem_filter hrg)
  | releaseLockowner clientid owner => exact h.mono (fun _ _ hl => (OrdMap.get_filter.mp hl).1)
  | renew | lockt | read | write => exact h

/-- Along every run whose LOCK requests ask for ranges in bounds, no byte is in a WRITE
range of one lock-owner and in a range of another. -/
theorem byte_locks_exclusive {hash : Bytes → UInt64} {v : NfsV4}
    (h : Reaches (step hash) (fun _ i => LockInBounds i.2) {} v) {k k' : UInt64} {l l' : LockState}
    (hl : v.locks.get k = some l) (hl' : v.locks.get k' = some l') (hf : l.fileId = l'.fileId)
    (ho : ¬ (l.clientid = l'.clientid ∧ l.owner = l'.owner)) {rg rg' : LockRange} (hrg : rg ∈ l.ranges)
    (hrg' : rg' ∈ l'.ranges) (hw : rg.type = WRITE_LT) (x : UInt64) : ¬ (rg.Covers x ∧ rg'.Covers x) := by
  have hinv : LocksHold v.locks :=
    h.invariant (P := fun v => LocksHold v.locks) (fun v i hv hin => exec_locks hash i.1 hv hin)
      locksHold_empty
  exact hinv.apart hl hl' ⟨hf, ho⟩ rg hrg rg' hrg' (Or.inl hw) x

/-- Two lock-owners of one client ask for WRITE locks on a file. -/
def lockRun (off len off' len' : UInt64) : List (WalkOrder × Req) :=
  [.setClientid 7 [99] 0 [] [] 0, .setClientidConfirm 1 (viewFileid (1 ^^^ 7) 0),
    .lock WRITE_LT off len (.new {} 1 [65]) (some 2), .lock WRITE_LT off' len' (.new {} 1 [66]) (some 2)].map
    (fun r => (fun _ => 0, r))

theorem byte_locks_exclusive_neighbours :
    let v := (lockRun 0 10 10 0xffffffffffffffff).foldl (step (fun _ => 0)) {}
    ∃ l l', v.locks.get 1 = some l ∧ v.locks.get 2 = some l' ∧ ⟨0, 10, WRITE_LT⟩ ∈ l.ranges ∧
      ⟨10, 0xffffffffffffffff, WRITE_LT⟩ ∈ l'.ranges ∧
      ¬ (LockRange.Covers ⟨0, 10, WRITE_LT⟩ 10 ∧ LockRange.Covers ⟨10, 0xffffffffffffffff, WRITE_LT⟩ 10) :=
  ⟨{ clientid := 1, owner := [65], fileId := 2, seqid := 2, ranges := [⟨0, 10, WRITE_LT⟩] },
    { clientid := 1, owner := [66], fileId := 2, seqid := 2, ranges := [⟨10, 0xffffffffffffffff, WRITE_LT⟩] },
    by decide, by decide, by simp, by simp,
    @byte_locks_exclusive _ ((lockRun 0 10 10 0xffffffffffffffff).foldl (step (fun _ => 0)) {})
      (Reaches.of_allowed (by decide)) 1 2
      { clientid := 1, owner := [65], fileId := 2, seqid := 2, ranges := [⟨0, 10, WRITE_LT⟩] }
      { clientid := 1, owner := [66], fileId := 2, seqid := 2, ranges := [⟨10, 0xffffffffffffffff, WRITE_LT⟩] }
      (by decide) (by decide) rfl (by simp) _ _ (by simp) (by simp) rfl 10⟩

/-- The end of the first range wraps to 5, and byte 20 is write-locked twice. -/
theorem wrapped_range_shares_byte :
    let v := (lockRun 10 0xfffffffffffffffb 20 5).foldl (step (fun _ => 0)) {}
    Reaches (step (fun _ => 0)) (fun _ _ => True) {} v ∧
      ∃ l l', v.locks.get 1 = some l ∧ v.locks.get 2 = some l' ∧ l.fileId = l'.fileId ∧ l.owner ≠ l'.owner ∧
        ∃ rg ∈ l.ranges, ∃ rg' ∈ l'.ranges, rg.type = WRITE_LT ∧ rg.Covers 20 ∧ rg'.Covers 20 :=
  ⟨Reaches.of_allowed (by decide),
    { clientid := 1, owner := [65], fileId := 2, seqid := 2, ranges := [⟨10, 0xfffffffffffffffb, WRITE_LT⟩] },
    { clientid := 1, owner := [66], fileId := 2, seqid := 2, ranges := [⟨20, 5, WRITE_LT⟩] }, by decide,
    by decide, rfl, by decide, _, List.mem_singleton.mpr rfl, _, List.mem_singleton.mpr rfl, rfl,
    by simp [LockRange.Covers], by simp [LockRange.Covers]⟩

end NfsV4

end Prfs
