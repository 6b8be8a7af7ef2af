import Prfs.Nfs4Cases

namespace Prfs

/-- The words of two values differ where the values do. -/
theorem word_injective : Function.Injective word := by
  intro x y h
  simp only [word, List.cons.injEq, and_true, ← UInt8.toNat_inj, UInt32.toNat_toUInt8, UInt32.toNat_shiftRight,
    UInt32.reduceToNat, Nat.reduceMod, Nat.shiftRight_eq_div_pow, Nat.reducePow] at h
  have hx := x.toNat_lt
  have hy := y.toNat_lt
  rw [← UInt32.toNat_inj]
  omega

theorem Nfsstat4.code_ok {st : Nfsstat4} : st.code = Nfsstat4.ok.code ↔ st = .ok := by cases st <;> decide

namespace NfsV4

/-- One operation that a COMPOUND executes: its number, the call with its arguments ahead, the status it
returns and the call after it. -/
structure Step4 where
  op : UInt32
  before : Call4
  st : Nfsstat4
  after : Call4

namespace Step4

/-- The bytes that the operation adds to the result array. -/
def result (t : Step4) : Bytes := t.after.w.v.drop t.before.w.v.length

end Step4

/-- The status of a result stands behind the number of its operation. -/
def statusWord (result : Bytes) : Bytes := (result.drop 4).take 4

namespace Call4

/-- The next operation of the message, whose number the reader is at. -/
def execOp (h : Host) (hash : Bytes → UInt64) (p : WalkOrder) (m : Msg) (c : Call4) : Step4 :=
  let (op, r) := c.r.u32 m
  let x := { c with r }.doOp hash p m h op
  ⟨op, { c with r }, x.1, x.2⟩

/-- The operations that the loop executes, in turn. -/
def trace (h : Host) (hash : Bytes → UInt64) (pos : Nat → WalkOrder) (m : Msg) : Nat → Nat → Call4 → List Step4
  | 0, _, _ => []
  | left + 1, done, c =>
    if c.r.ok = false then []
    else
      let t := execOp h hash (pos done) m c
      t :: (if t.st = .ok then trace h hash pos m left (done + 1) t.after else [])

section Trace

variable {h : Host} {hash : Bytes → UInt64} {pos : Nat → WalkOrder} {m : Msg} {left done : Nat} {c : Call4}

theorem opsLoop_succ {last : Nfsstat4} (hok : c.r.ok = true) :
    opsLoop h hash pos m (left + 1) done last c =
      let t := execOp h hash (pos done) m c
      if t.st = .ok then opsLoop h hash pos m left (done + 1) .ok t.after else (t.st, done + 1, t.after) := by
  rw [opsLoop, hok]
  simp only [Bool.not_true, Bool.false_eq_true, ite_false, execOp]
  split
  · next c' he => simp [he]
  · next st c' hne he => simp [he, show st ≠ .ok by simpa using hne]

theorem trace_cut (hok : c.r.ok = false) : trace h hash pos m left done c = [] := by
  cases left with
  | zero => rfl
  | succ left => rw [trace, if_pos hok]

theorem trace_succ (hok : c.r.ok = true) :
    trace h hash pos m (left + 1) done c =
      let t := execOp h hash (pos done) m c
      t :: (if t.st = .ok then trace h hash pos m left (done + 1) t.after else []) := by
  rw [trace, if_neg (by simp [hok])]

/-- The loop ends as the last operation of the trace does. -/
theorem opsLoop_eq_trace {last : Nfsstat4} :
    opsLoop h hash pos m left done last c =
      ((((trace h hash pos m left done c).getLast?.map Step4.st).getD last),
        done + (trace h hash pos m left done c).length,
        ((trace h hash pos m left done c).getLast?.map Step4.after).getD c) := by
  induction left generalizing done last c with
  | zero => rfl
  | succ left ih =>
    by_cases hok : c.r.ok = true
    · rw [opsLoop_succ hok, trace_succ hok]
      dsimp only
      split
      · next hst =>
        rw [ih]
        cases hl : (trace h hash pos m left (done + 1) (execOp h hash (pos done) m c).after).getLast? with
        | none => simp [List.getLast?_eq_none_iff.mp hl, hst]
        | some t =>
          simp [List.getLast?_cons, hl]
          omega
      · simp
    · rw [Bool.not_eq_true] at hok
      rw [trace_cut hok, opsLoop, hok]
      rfl

/-- What holds of every operation that is executed, whatever call it starts in, holds along the trace. -/
theorem forall_trace {P : Step4 → Prop} (hp : ∀ p c, c.r.ok = true → P (execOp h hash p m c)) {t : Step4}
    (ht : t ∈ trace h hash pos m left done c) : P t := by
  induction left generalizing done c with
  | zero => simp [trace] at ht
  | succ left ih =>
    by_cases hok : c.r.ok = true
    · rw [trace_succ hok] at ht
      rcases List.mem_cons.mp ht with rfl | ht
      · exact hp _ _ hok
      · split_ifs at ht
        · exact ih ht
        · simp at ht
    · rw [Bool.not_eq_true] at hok
      simp [trace_cut hok] at ht

/-- An operation with another behind it has returned OK, with the reader still in the message. -/
theorem trace_dropLast {t : Step4} (ht : t ∈ (trace h hash pos m left done c).dropLast) :
    t.st = .ok ∧ t.after.r.ok = true := by
  induction left generalizing done c with
  | zero => simp [trace] at ht
  | succ left ih =>
    by_cases hok : c.r.ok = true
    · rw [trace_succ hok] at ht
      dsimp only at ht
      split_ifs at ht with hst
      · by_cases hafter : (execOp h hash (pos done) m c).after.r.ok = true
        · cases hl : trace h hash pos m left (done + 1) (execOp h hash (pos done) m c).after with
          | nil => simp [hl] at ht
          | cons t' ts =>
            rw [hl, List.dropLast_cons_cons] at ht
            rcases List.mem_cons.mp ht with rfl | ht
            · exact ⟨hst, hafter⟩
            · rw [← hl] at ht
              exact ih ht
        · rw [Bool.not_eq_true] at hafter
          simp [trace_cut hafter] at ht
      · simp at ht
    · rw [Bool.not_eq_true] at hok
      simp [trace_cut hok] at ht

theorem trace_length_le : (trace h hash pos m left done c).length ≤ left := by
  induction left generalizing done c with
  | zero => simp [trace]
  | succ left ih =>
    by_cases hok : c.r.ok = true
    · rw [trace_succ hok]
      dsimp only
      split_ifs
      · simpa using ih
      · simp
    · rw [Bool.not_eq_true] at hok
      simp [trace_cut hok]

/-- The loop stops early at an operation that fails or that runs out of bytes. -/
theorem trace_stops (hok : c.r.ok = true) (hlt : (trace h hash pos m left done c).length < left) :
    ∃ t, (trace h hash pos m left done c).getLast? = some t ∧ (t.st ≠ .ok ∨ t.after.r.ok = false) := by
  induction left generalizing done c with
  | zero => simp at hlt
  | succ left ih =>
    rw [trace_succ hok] at hlt ⊢
    dsimp only at hlt ⊢
    split_ifs at hlt ⊢ with hst
    · by_cases hafter : (execOp h hash (pos done) m c).after.r.ok = true
      · obtain ⟨t, ht, hend⟩ := ih hafter (by simpa using hlt)
        exact ⟨t, by simp [List.getLast?_cons, ht], hend⟩
      · rw [Bool.not_eq_true] at hafter
        exact ⟨_, by simp [trace_cut hafter], .inr hafter⟩
    · exact ⟨_, by simp, .inl hst⟩

theorem execOp_result {p : WalkOrder} :
    ∃ body, (execOp h hash p m c).after.w.v =
      c.w.v ++ (word (execOp h hash p m c).op ++ word (execOp h hash p m c).st.code ++ body) :=
  @doOp_result { c with r := (c.r.u32 m).2 } m hash p h (c.r.u32 m).1

theorem trace_status {t : Step4} (ht : t ∈ trace h hash pos m left done c) :
    statusWord t.result = word t.st.code := by
  refine forall_trace (P := fun t => statusWord t.result = word t.st.code) (fun p c _ => ?_) ht
  obtain ⟨body, hb⟩ := @execOp_result h hash m c p
  rw [Step4.result, hb]
  have hw : (execOp h hash p m c).before.w = c.w := rfl
  rw [hw, List.drop_left']
  · simp [statusWord, word]
  · rfl

/-- The result array is what the operations add to it, one behind the other. -/
theorem trace_results :
    (((trace h hash pos m left done c).getLast?.map Step4.after).getD c).w.v =
      c.w.v ++ ((trace h hash pos m left done c).map Step4.result).flatten := by
  induction left generalizing done c with
  | zero => simp [trace]
  | succ left ih =>
    by_cases hok : c.r.ok = true
    · rw [trace_succ hok]
      have hone : (execOp h hash (pos done) m c).after.w.v = c.w.v ++ (execOp h hash (pos done) m c).result := by
        obtain ⟨body, hb⟩ := @execOp_result h hash m c (pos done)
        have hw : (execOp h hash (pos done) m c).before.w = c.w := rfl
        rw [Step4.result, hb, hw, List.drop_left' rfl]
      dsimp only
      split_ifs
      · have ih' := @ih (done + 1) (execOp h hash (pos done) m c).after
        rw [List.map_cons, List.flatten_cons, ← List.append_assoc, ← hone, ← ih']
        cases hl : (trace h hash pos m left (done + 1) (execOp h hash (pos done) m c).after).getLast? with
        | none => simp [List.getLast?_cons, hl]
        | some t => simp [List.getLast?_cons, hl]
      · simpa using hone
    · rw [Bool.not_eq_true] at hok
      simp [trace_cut hok]

end Trace

end Call4

/-- The operations that a COMPOUND executes. -/
def executed (h : Host) (hash : Bytes → UInt64) (pos : Nat → WalkOrder) (m : Msg) (s : Server4) (r : Reader) :
    List Step4 :=
  let (nops, _, r) := readCompound m r
  if !r.ok || 4096 < nops then []
  else Call4.trace h hash pos m nops.toNat 0 { v := s.v, fs := s.fs, ckName := s.ckName, r }

end NfsV4

end Prfs
