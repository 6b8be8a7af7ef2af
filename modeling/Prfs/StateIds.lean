import Prfs.ClientRegistry

namespace Prfs

namespace NfsV4

section Keyed

variable {V : Type} {m m' : OrdMap UInt64 V} {n k : UInt64} {x : V}

/-- The keys come from a counter that stands at `n`. -/
def Keyed (n : UInt64) (m : OrdMap UInt64 V) : Prop := ∀ k x, m.get k = some x → k ≠ 0 ∧ k < n

theorem Keyed.zero (h : Keyed n m) : m.get 0 = none := by
  cases hx : m.get 0 with
  | none => rfl
  | some x => exact absurd rfl (h 0 x hx).1

theorem Keyed.fresh (h : Keyed n m) : m.get n = none := by
  cases hx : m.get n with
  | none => rfl
  | some x => exact absurd (h n x hx).2 (lt_irrefl n)

theorem Keyed.next (h : Keyed n m) (hn : n + 1 ≠ 0) : Keyed (n + 1) m := by
  intro k x hx
  obtain ⟨h0, hlt⟩ := h k x hx
  exact ⟨h0, lt_trans hlt (lt_next hn)⟩

theorem Keyed.put_next (h : Keyed n m) (h0 : n ≠ 0) (hn : n + 1 ≠ 0) : Keyed (n + 1) (m.put n x) := by
  intro k y hy
  rw [OrdMap.get_put] at hy
  split_ifs at hy with hk
  · rw [hk]
    exact ⟨h0, lt_next hn⟩
  · exact h.next hn k y hy

end Keyed

variable {v w : NfsV4} {pos : WalkOrder} {k : UInt64} {hash : Bytes → UInt64}

/-- The open and the lock table: one counter for the keys of both, one entry a holder in each. -/
structure StateTables (v : NfsV4) : Prop where
  openKeys : Keyed v.nextState v.opens
  lockKeys : Keyed v.nextState v.locks
  apart : ∀ {k o}, v.opens.get k = some o → v.locks.get k = none
  opens : v.opens.UniqueOn (fun _ => True) OpenState.holder
  locks : v.locks.UniqueOn (fun _ => True) LockState.holder

theorem stateTables_empty : ({} : NfsV4).StateTables :=
  ⟨fun _ _ hx => absurd hx (by simp), fun _ _ hx => absurd hx (by simp), fun ho => absurd ho (by simp),
    OrdMap.uniqueOn_empty, OrdMap.uniqueOn_empty⟩

/-- No key is new, and what is left under a key has the holder it had. -/
structure Settled (v w : NfsV4) : Prop where
  next : w.nextState = v.nextState
  opens : ∀ k o, w.opens.get k = some o → ∃ o', v.opens.get k = some o' ∧ o'.holder = o.holder
  locks : ∀ k l, w.locks.get k = some l → ∃ l', v.locks.get k = some l' ∧ l'.holder = l.holder

theorem Settled.congr (ho : w.opens = v.opens) (hl : w.locks = v.locks) (hn : w.nextState = v.nextState) :
    Settled v w :=
  ⟨hn, fun _ o h => ⟨o, ho ▸ h, rfl⟩, fun _ l h => ⟨l, hl ▸ h, rfl⟩⟩

/-- What a request does to the two tables: nothing new, or an entry under the next key in one of them. -/
theorem Effect.states (h : Effect pos v w) : Settled v w ∨
    (∃ o, firstKey pos v.opens (fun o' => o'.holder = o.holder) = 0 ∧
      w = { v with opens := v.opens.put v.nextState o, nextState := v.nextState + 1 }) ∨
    ∃ l, firstKey pos v.locks (fun l' => l'.holder = l.holder) = 0 ∧
      w = { v with locks := v.locks.put v.nextState l, nextState := v.nextState + 1 } := by
  cases h with
  | openNew hno => exact .inr (.inl ⟨_, hno, rfl⟩)
  | lockNew hno => exact .inr (.inr ⟨_, hno, rfl⟩)
  | idle | refresh | mint => exact .inl (.congr rfl rfl rfl)
  | confirm =>
    refine .inl ⟨dropLeases_counters.2, fun k o ho => ⟨o, ?_, rfl⟩, fun k l hl => ⟨l, ?_, rfl⟩⟩
    · exact (dropLeases_opens_iff.mp ho).1
    · exact (dropLeases_locks_iff.mp hl).1
  | reopen ho hsame =>
    refine .inl ⟨rfl, fun j p hp => ?_, fun _ l hl => ⟨l, hl, rfl⟩⟩
    rw [OrdMap.get_put] at hp
    split_ifs at hp with hj
    · cases hp
      rw [hj]
      exact ⟨_, ho, hsame.symm⟩
    · exact ⟨p, hp, rfl⟩
  | relock hl hsame =>
    refine .inl ⟨rfl, fun _ o ho => ⟨o, ho, rfl⟩, fun j p hp => ?_⟩
    rw [OrdMap.get_put] at hp
    split_ifs at hp with hj
    · cases hp
      rw [hj]
      exact ⟨_, hl, hsame.symm⟩
    · exact ⟨p, hp, rfl⟩
  | close =>
    refine .inl ⟨rfl, fun j p hp => ⟨p, ?_, rfl⟩, fun _ l hl => ⟨l, hl, rfl⟩⟩
    rw [OrdMap.get_del] at hp
    split_ifs at hp
    exact hp
  | release => exact .inl ⟨rfl, fun _ o ho => ⟨o, ho, rfl⟩, fun _ l hl => ⟨l, (OrdMap.get_filter.mp hl).1, rfl⟩⟩

theorem StateTables.settled (h : v.StateTables) (hs : Settled v w) : w.StateTables := by
  refine ⟨fun k o ho => ?_, fun k l hl => ?_, fun {k o} ho => ?_, h.opens.mono fun k o ho _ => ?_,
    h.locks.mono fun k l hl _ => ?_⟩
  · obtain ⟨o', ho', -⟩ := hs.opens k o ho
    rw [hs.next]
    exact h.openKeys k o' ho'
  · obtain ⟨l', hl', -⟩ := hs.locks k l hl
    rw [hs.next]
    exact h.lockKeys k l' hl'
  · obtain ⟨o', ho', -⟩ := hs.opens k o ho
    cases hl : w.locks.get k with
    | none => rfl
    | some l =>
      obtain ⟨l', hl', -⟩ := hs.locks k l hl
      rw [h.apart ho'] at hl'
      cases hl'
  · obtain ⟨o', ho', hsame⟩ := hs.opens k o ho
    exact ⟨o', ho', trivial, hsame⟩
  · obtain ⟨l', hl', hsame⟩ := hs.locks k l hl
    exact ⟨l', hl', trivial, hsame⟩

theorem StateTables.openNew {o : OpenState} (h : v.StateTables)
    (hno : firstKey pos v.opens (fun o' => o'.holder = o.holder) = 0) (h0 : v.nextState ≠ 0) (hn : v.nextState + 1 ≠ 0) :
    ({ v with opens := v.opens.put v.nextState o, nextState := v.nextState + 1 } : NfsV4).StateTables := by
  refine ⟨h.openKeys.put_next h0 hn, h.lockKeys.next hn, fun {k p} hp => ?_, h.opens.put fun _ k p hp _ hsame => ?_,
    h.locks⟩
  · rw [OrdMap.get_put] at hp
    split_ifs at hp with hk
    · rw [hk]
      exact h.lockKeys.fresh
    · exact h.apart hp
  · have hp' := firstKey_zero h.openKeys.zero hno hp
    simp [hsame] at hp'

theorem StateTables.lockNew {l : LockState} (h : v.StateTables)
    (hno : firstKey pos v.locks (fun l' => l'.holder = l.holder) = 0) (h0 : v.nextState ≠ 0) (hn : v.nextState + 1 ≠ 0) :
    ({ v with locks := v.locks.put v.nextState l, nextState := v.nextState + 1 } : NfsV4).StateTables := by
  refine ⟨h.openKeys.next hn, h.lockKeys.put_next h0 hn, fun {k p} hp => ?_, h.opens,
    h.locks.put fun _ k p hp _ hsame => ?_⟩
  · have hne : k ≠ v.nextState := by
      rintro rfl
      rw [h.openKeys.fresh] at hp
      cases hp
    rw [OrdMap.get_put, if_neg hne]
    exact h.apart hp
  · have hp' := firstKey_zero h.lockKeys.zero hno hp
    simp [hsame] at hp'

theorem Effect.stateTables (h : Effect pos v w) (hv : v.StateTables) (h0 : v.nextState ≠ 0) (hw : w.nextState ≠ 0) :
    w.StateTables := by
  rcases h.states with hs | ⟨o, hno, rfl⟩ | ⟨l, hno, rfl⟩
  · exact hv.settled hs
  · exact hv.openNew hno h0 hw
  · exact hv.lockNew hno h0 hw

/-- An id that has been given out and names no open. -/
def NoOpen (k : UInt64) (v : NfsV4) : Prop := k < v.nextState ∧ v.opens.get k = none

/-- An id that has been given out and names no lock. -/
def NoLock (k : UInt64) (v : NfsV4) : Prop := k < v.nextState ∧ v.locks.get k = none

theorem Effect.noOpen (h : Effect pos v w) (hw : w.nextState ≠ 0) (hk : NoOpen k v) : NoOpen k w := by
  obtain ⟨hlt, ho⟩ := hk
  rcases h.states with hs | ⟨o, -, rfl⟩ | ⟨l, -, rfl⟩
  · refine ⟨by rwa [hs.next], ?_⟩
    cases hget : w.opens.get k with
    | none => rfl
    | some o =>
      obtain ⟨o', ho', -⟩ := hs.opens k o hget
      rw [ho] at ho'
      cases ho'
  · refine ⟨lt_trans hlt (lt_next hw), ?_⟩
    rw [OrdMap.get_put, if_neg (ne_of_lt hlt)]
    exact ho
  · exact ⟨lt_trans hlt (lt_next hw), ho⟩

theorem Effect.noLock (h : Effect pos v w) (hw : w.nextState ≠ 0) (hk : NoLock k v) : NoLock k w := by
  obtain ⟨hlt, hl⟩ := hk
  rcases h.states with hs | ⟨o, -, rfl⟩ | ⟨l, -, rfl⟩
  · refine ⟨by rwa [hs.next], ?_⟩
    cases hget : w.locks.get k with
    | none => rfl
    | some l =>
      obtain ⟨l', hl', -⟩ := hs.locks k l hget
      rw [hl] at hl'
      cases hl'
  · exact ⟨lt_trans hlt (lt_next hw), hl⟩
  · refine ⟨lt_trans hlt (lt_next hw), ?_⟩
    rw [OrdMap.get_put, if_neg (ne_of_lt hlt)]
    exact hl

theorem Effect.nextState_le (h : Effect pos v w) (hw : w.nextState ≠ 0) : v.nextState ≤ w.nextState := by
  rcases h.states with hs | ⟨o, -, rfl⟩ | ⟨l, -, rfl⟩
  · exact le_of_eq hs.next.symm
  · exact le_of_lt (lt_next hw)
  · exact le_of_lt (lt_next hw)

/-- A run along which the counter of state ids has not come round. -/
def StateRun (hash : Bytes → UInt64) : NfsV4 → NfsV4 → Prop :=
  Reaches (step hash) (fun v i => (v.step hash i).nextState ≠ 0)

theorem StateRun.tables (h : StateRun hash {} v) : v.StateTables := by
  have hinv : v.StateTables ∧ v.nextState ≠ 0 :=
    Reaches.invariant (P := fun v : NfsV4 => v.StateTables ∧ v.nextState ≠ 0)
      (fun v i hv hw => ⟨(exec_effect hash i.1 v i.2).stateTables hv.1 hv.2 hw, hw⟩) ⟨stateTables_empty, by decide⟩ h
  exact hinv.1

theorem StateRun.noOpen (h : StateRun hash v w) (hk : NoOpen k v) : NoOpen k w :=
  Reaches.invariant (P := NoOpen k) (fun v i hk hw => (exec_effect hash i.1 v i.2).noOpen hw hk) hk h

theorem StateRun.noLock (h : StateRun hash v w) (hk : NoLock k v) : NoLock k w :=
  Reaches.invariant (P := NoLock k) (fun v i hk hw => (exec_effect hash i.1 v i.2).noLock hw hk) hk h

theorem StateRun.nextState_le (h : StateRun hash v w) : v.nextState ≤ w.nextState :=
  Reaches.invariant (P := fun w => v.nextState ≤ w.nextState)
    (fun u i hle hw => le_trans hle ((exec_effect hash i.1 u i.2).nextState_le hw)) le_rfl h

theorem StateTables.noLock {o : OpenState} (h : v.StateTables) (ho : v.opens.get k = some o) : NoLock k v :=
  ⟨(h.openKeys k o ho).2, h.apart ho⟩

theorem StateTables.noOpen {l : LockState} (h : v.StateTables) (hl : v.locks.get k = some l) : NoOpen k v := by
  refine ⟨(h.lockKeys k l hl).2, ?_⟩
  cases ho : v.opens.get k with
  | none => rfl
  | some o =>
    rw [h.apart ho] at hl
    cases hl

/-- Along every run in which the counter has not come round, the tables have keys of their own and one entry a
holder, and an id taken out of its table never names an open or a lock again. -/
theorem state_tables (h : StateRun hash {} v) :
    v.StateTables ∧
    ∀ k u w, StateRun hash v u → StateRun hash u w →
      v.opens.get k ≠ none ∧ u.opens.get k = none ∨ v.locks.get k ≠ none ∧ u.locks.get k = none →
      w.opens.get k = none ∧ w.locks.get k = none := by
  refine ⟨h.tables, fun k u w hvu huw hk => ?_⟩
  rcases hk with ⟨hk, hgone⟩ | ⟨hk, hgone⟩
  · obtain ⟨o, ho⟩ := Option.ne_none_iff_exists'.mp hk
    have hlock := h.tables.noLock ho
    have hopen : NoOpen k u := ⟨lt_of_lt_of_le hlock.1 hvu.nextState_le, hgone⟩
    exact ⟨(huw.noOpen hopen).2, (huw.noLock (hvu.noLock hlock)).2⟩
  · obtain ⟨l, hl⟩ := Option.ne_none_iff_exists'.mp hk
    have hopen := h.tables.noOpen hl
    have hlock : NoLock k u := ⟨lt_of_lt_of_le hopen.1 hvu.nextState_le, hgone⟩
    exact ⟨(huw.noOpen (hvu.noOpen hopen)).2, (huw.noLock hlock).2⟩

/-- A file is opened, locked, and closed. -/
def opened : NfsV4 :=
  ([.openFile ACCESS_READ 0 1 [65] (.ok 2), .lock READ_LT 0 10 (.new ⟨1, 1, 0⟩ 1 [65]) (some 2)].map
    (fun r => ((fun _ => 0 : WalkOrder), r))).foldl (step (fun _ => 0)) booted

def closed : NfsV4 := opened.step (fun _ => 0) (fun _ => 0, .close ⟨1, 1, 0⟩)

theorem stateRun_booted : StateRun (fun _ => 0) {} booted := Reaches.of_allowed (by decide)

theorem stateRun_opened : StateRun (fun _ => 0) {} opened :=
  stateRun_booted.trans (Reaches.of_allowed (by decide))

theorem stateRun_closed : StateRun (fun _ => 0) opened closed := Reaches.refl.tail (by decide)

/-- The lock on the file, with its key. -/
theorem opened_lock : opened.locks.get 2 =
    some { clientid := 1, owner := [65], fileId := 2, seqid := 2, ranges := [⟨0, 10, READ_LT⟩] } := by decide

theorem state_tables_closed :
    opened.opens.get 1 ≠ none ∧ opened.locks.get 2 ≠ none ∧ closed.opens.get 1 = none ∧ opened.StateTables ∧
      ∀ w, StateRun (fun _ => 0) closed w → w.opens.get 1 = none ∧ w.locks.get 1 = none := by
  have hthere : opened.opens.get 1 ≠ none := by decide
  have hgone : closed.opens.get 1 = none := by decide
  obtain ⟨htables, hnever⟩ := state_tables stateRun_opened
  refine ⟨hthere, by simp [opened_lock], hgone, htables, fun w hw => ?_⟩
  exact hnever 1 closed w stateRun_closed hw (Or.inl ⟨hthere, hgone⟩)

/-- A file is opened and closed `n` times. -/
def openings (n : Nat) : List (WalkOrder × Req) :=
  (List.range n).flatMap (fun i =>
    [(fun _ => 0, .openFile ACCESS_READ 0 1 [65] (.ok 2)), (fun _ => 0, .close ⟨1, UInt64.ofNat (i + 1), 0⟩)])

theorem openings_state (n : Nat) :
    let v := (openings n).foldl (step (fun _ => 0)) booted
    v.opens = .empty ∧ v.nextState = UInt64.ofNat (n + 1) ∧ v.clientConfirmed 1 = true := by
  induction n with
  | zero => exact ⟨rfl, rfl, by decide⟩
  | succ n ih =>
    obtain ⟨hopens, hnext, hconf⟩ := ih
    dsimp only at hopens hnext hconf ⊢
    rw [openings, List.range_succ, List.flatMap_append, List.foldl_append]
    rw [openings] at hopens hnext hconf
    generalize List.foldl (step (fun _ => 0)) booted _ = v at hopens hnext hconf ⊢
    have hopen : v.exec (fun _ => 0) (fun _ => 0) (.openFile ACCESS_READ 0 1 [65] (.ok 2)) =
        (⟨.ok, .opened ⟨1, v.nextState, 0⟩ (v.rflags 1 [65])⟩,
          { v with opens := OrdMap.empty.put v.nextState ⟨1, [65], 2, ACCESS_READ, 0, 1⟩, nextState := v.nextState + 1 }) := by
      simp only [exec, opOpen, hconf, Bool.not_true, Bool.false_eq_true, if_false, openFile, hopens]
      rfl
    have hspecial : (⟨1, v.nextState, 0⟩ : Stateid).special = false := by
      simp [Stateid.special]
    have hempty : (OrdMap.empty.put v.nextState (⟨1, [65], 2, ACCESS_READ, 0, 1⟩ : OpenState)).del v.nextState =
        .empty := by
      refine OrdMap.ext_get fun k => ?_
      rw [OrdMap.get_del, OrdMap.get_put]
      split_ifs <;> rfl
    simp only [List.flatMap_cons, List.flatMap_nil, List.append_nil, List.foldl_cons, List.foldl_nil, step, hopen]
    rw [← hnext]
    simp only [exec, opClose, hspecial, Bool.false_eq_true, if_false, OrdMap.get_put, if_true, hempty, true_and]
    refine ⟨?_, hconf⟩
    rw [hnext, ← UInt64.ofNat_one, ← UInt64.ofNat_add]

/-- Once the counter is zero, the next open is kept under the key that means none. -/
theorem openings_zero_key {n : Nat} (hn : UInt64.ofNat (n + 1) = 0) :
    ¬ (((openings n).foldl (step (fun _ => 0)) booted).step (fun _ => 0)
      (fun _ => 0, .openFile ACCESS_READ 0 1 [65] (.ok 2))).StateTables := by
  obtain ⟨hopens, hnext, hconf⟩ := openings_state n
  generalize List.foldl (step (fun _ => 0)) booted _ = v at hopens hnext hconf ⊢
  intro h
  have hzero := h.openKeys.zero
  simp only [step, exec, opOpen, hconf, Bool.not_true, Bool.false_eq_true, if_false, openFile, hopens, hnext, hn] at hzero
  simp [firstKey, walk, OrdMap.empty] at hzero

theorem tables_end_with_counter :
    ¬ (((openings (2 ^ 64 - 1)).foldl (step (fun _ => 0)) booted).step (fun _ => 0)
      (fun _ => 0, .openFile ACCESS_READ 0 1 [65] (.ok 2))).StateTables :=
  openings_zero_key (by decide)

end NfsV4

end Prfs
