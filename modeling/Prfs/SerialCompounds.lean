import Prfs.Interleavings
import Prfs.Nfs4Run

namespace Prfs

namespace Server

open NfsV4 (Call4 Server4)

variable {h : Host} {hash : Bytes → UInt64} {s t : Server} {k : Nat} {x y : Running} {m : Msg}

/-- What the version 4 service keeps between calls. -/
def server4 (s : Server) : Server4 := { v := s.v, fs := s.fs, ckName := s.ckName }

/-- The COMPOUND `x` of a connection is through in `t`, as `y`, with what the loop makes of it and nothing else changed. -/
structure Ends (h : Host) (hash : Bytes → UInt64) (pos : Nat → WalkOrder) (k : Nat) (s t : Server) (x y : Running) :
    Prop where
  running : t.running k = some y
  more : y.more = false
  m : y.m = x.m
  xid : y.xid = x.xid
  tag : y.tag = x.tag
  loop : Call4.opsLoop h hash pos x.m x.left x.done x.last (s.callOf x) = (y.last, y.done, t.callOf y)
  names : t.names = s.names
  others : ∀ j, j ≠ k → t.running j = s.running j

/-- The turns of the operations of a connection. -/
def operations (k : Nat) (pos : Nat → WalkOrder) (start n : Nat) : List Turn :=
  (List.range n).map (fun i => .operation k (pos (start + i)))

theorem operations_succ (k : Nat) (pos : Nat → WalkOrder) (start n : Nat) :
    operations k pos start (n + 1) = .operation k (pos start) :: operations k pos (start + 1) n := by
  rw [operations, List.range_succ_eq_map, List.map_cons, List.map_map, operations]
  refine congrArg (List.cons _) (List.map_congr_left fun i _ => ?_)
  show Turn.operation k (pos (start + (i + 1))) = Turn.operation k (pos (start + 1 + i))
  rw [Nat.add_right_comm, Nat.add_assoc]

theorem loop_of_not_more {pos : Nat → WalkOrder} (hmore : x.more = false) :
    Call4.opsLoop h hash pos x.m x.left x.done x.last (s.callOf x) = (x.last, x.done, s.callOf x) := by
  cases hleft : x.left with
  | zero => rfl
  | succ left =>
    have hok : x.r.ok = false := by simpa [Running.more, hleft] using hmore
    have hr : (s.callOf x).r.ok = false := hok
    rw [Call4.opsLoop, hr]
    rfl

theorem step_operation (hx : s.running k = some x) (hmore : x.more = true) (pos : WalkOrder) :
    s.step h hash (.operation k pos) = s.operate h hash k pos x := by
  rw [step, hx]
  exact if_pos hmore

@[simp] theorem operate_running (pos : WalkOrder) :
    (s.operate h hash k pos x).running k = some (ran x (Call4.execOp h hash pos x.m (s.callOf x))) := by
  simp [operate, setRunning]

theorem operate_others (pos : WalkOrder) {j : Nat} (hj : j ≠ k) :
    (s.operate h hash k pos x).running j = s.running j := by
  simp [operate, setRunning, Function.update_of_ne hj]

/-- The next operation of the connection works on what this one leaves. -/
theorem operate_callOf (pos : WalkOrder) : let e := Call4.execOp h hash pos x.m (s.callOf x)
    (s.operate h hash k pos x).callOf (ran x e) = e.after := rfl

/-- On its own, a connection runs its COMPOUND as the loop does. -/
theorem operations_end (pos : Nat → WalkOrder) (hx : s.running k = some x) :
    ∃ n y, Ends h hash pos k s (s.after h hash (operations k pos x.done n)) x y := by
  induction hn : x.left generalizing s x with
  | zero =>
    have hmore : x.more = false := by simp [Running.more, hn]
    exact ⟨0, x, hx, hmore, rfl, rfl, rfl, loop_of_not_more hmore, rfl, fun _ _ => rfl⟩
  | succ left ih =>
    cases hmore : x.more with
    | false => exact ⟨0, x, hx, hmore, rfl, rfl, rfl, loop_of_not_more hmore, rfl, fun _ _ => rfl⟩
    | true =>
      have hok : (s.callOf x).r.ok = true := by
        have hand : x.left ≠ 0 ∧ x.r.ok = true := by simpa [Running.more] using hmore
        exact hand.2
      have hstep := @step_operation h hash s k x hx hmore (pos x.done)
      have hrun := @operate_running h hash s k x (pos x.done)
      have hcall := @operate_callOf h hash s k x (pos x.done)
      have hloop := @Call4.opsLoop_succ h hash pos x.m left x.done (s.callOf x) x.last hok
      have hothers : ∀ j, j ≠ k → (s.operate h hash k (pos x.done) x).running j = s.running j :=
        fun j hj => operate_others _ hj
      dsimp only at hcall hloop
      generalize Call4.execOp h hash (pos x.done) x.m (s.callOf x) = e at hrun hcall hloop
      by_cases hst : e.st = .ok
      · have hleft : (ran x e).left = left := by
          show (if e.st = .ok then x.left - 1 else 0) = left
          rw [if_pos hst, hn, Nat.add_sub_cancel]
        obtain ⟨n, y, hy⟩ := ih hrun hleft
        refine ⟨n + 1, y, ?_⟩
        rw [operations_succ, after, List.foldl_cons, hstep]
        refine ⟨hy.running, hy.more, hy.m, hy.xid, hy.tag, ?_, hy.names, fun j hj => (hy.others j hj).trans (hothers j hj)⟩
        have hlast : (ran x e).last = .ok := hst
        have hrest := hy.loop
        rw [hcall, hleft, hlast] at hrest
        rw [hn, hloop, if_pos hst]
        exact hrest
      · have hnone : (ran x e).more = false := by simp [Running.more, ran, hst]
        refine ⟨1, ran x e, ?_⟩
        rw [operations_succ, after, List.foldl_cons, hstep]
        refine ⟨hrun, hnone, rfl, rfl, rfl, ?_, rfl, hothers⟩
        rw [hn, hloop, if_neg hst]
        exact congrArg (fun c => (e.st, x.done + 1, c)) hcall.symm

/-- A call that is no COMPOUND to run changes nothing; one that is runs the loop from where it starts. -/
theorem reply_cases (h : Host) (hash : Bytes → UInt64) (pos : Nat → WalkOrder) (m : Msg) (u : Server4) :
    (Running.start m = none ∧ (NfsV4.reply h hash pos m u).2 = u) ∨
    ∃ xid tag left r, Running.start m = some { m, xid, tag, left, r } ∧ ∀ last done c,
      Call4.opsLoop h hash pos m left 0 .ok { v := u.v, fs := u.fs, ckName := u.ckName, r } = (last, done, c) →
      NfsV4.reply h hash pos m u = (Running.frame { m, xid, tag, left := 0, done, last, r := c.r, w := c.w },
        { v := c.v, fs := c.fs, ckName := c.ckName }) := by
  unfold NfsV4.reply Running.start
  rcases ({} : Reader).u32 m with ⟨xid, r1⟩
  dsimp only
  generalize (((r1.u32 m).2.u32 m).2.u32 m).1 = prog
  generalize ((((r1.u32 m).2.u32 m).2.u32 m).2.u32 m).1 = vers
  generalize ((((r1.u32 m).2.u32 m).2.u32 m).2.u32 m).2 = r5
  generalize (r5.u32 m).1 = proc
  generalize ((r5.u32 m).2.skipAuth m).skipAuth m = r6
  by_cases hprog : prog ≠ PROG_NFS ∨ vers ≠ NfsV4.NFS_V4
  · left
    rw [if_pos hprog, if_pos (by tauto)]
    exact ⟨rfl, rfl⟩
  rw [if_neg hprog]
  by_cases hproc : proc = 1
  · have hhead : ¬ (prog ≠ PROG_NFS ∨ vers ≠ NfsV4.NFS_V4 ∨ proc ≠ 1) := by tauto
    have hnull : ¬ proc = 0 := by
      rw [hproc]
      decide
    rw [if_neg hhead, if_neg hnull, if_pos hproc]
    unfold NfsV4.compound
    rcases NfsV4.readCompound m r6 with ⟨nops, tag, r⟩
    dsimp only
    by_cases hres : (!r.ok || decide (4096 < nops)) = true
    · left
      rw [if_pos hres, if_pos hres]
      exact ⟨rfl, rfl⟩
    · right
      rw [if_neg hres, if_neg hres]
      refine ⟨xid, tag, nops.toNat, r, rfl, fun last done c hloop => ?_⟩
      rw [hloop]
      rfl
  · left
    rw [if_pos (.inr (.inr hproc))]
    split_ifs
    · exact ⟨rfl, rfl⟩
    · exact ⟨rfl, rfl⟩

/-- A connection that is left alone with its call answers it as the sequential service does, and leaves what that leaves,
with every other connection where it was. -/
theorem serial_compound (pos : Nat → WalkOrder) (hidle : s.running k = none) (m : Msg) :
    match Running.start m with
    | none => s.step h hash (.call k m) = s ∧ (NfsV4.reply h hash pos m s.server4).2 = s.server4
    | some _ => ∃ n y, let t := s.after h hash (.call k m :: operations k pos 0 n)
      t.running k = some y ∧ y.more = false ∧ NfsV4.reply h hash pos m s.server4 = (y.frame, t.server4) ∧
        t.names = s.names ∧ ∀ j, j ≠ k → t.running j = s.running j := by
  have hcall : s.step h hash (.call k m) = s.setRunning k (Running.start m) := by
    rw [step, hidle]
    rfl
  have hcases := reply_cases h hash pos m s.server4
  cases hstarts : Running.start m with
  | none =>
    have hkeep : (NfsV4.reply h hash pos m s.server4).2 = s.server4 := by
      rcases hcases with hx | ⟨xid, tag, left, r, hsome, -⟩
      · exact hx.2
      · rw [hstarts] at hsome
        cases hsome
    refine ⟨?_, hkeep⟩
    rw [hcall, hstarts]
    show { s with running := Function.update s.running k none } = s
    rw [← hidle, Function.update_eq_self]
  | some x =>
    obtain ⟨xid, tag, left, r, hsome, hreply⟩ := hcases.resolve_left fun hx => by
      rw [hstarts] at hx
      cases hx.1
    have hstart : (s.setRunning k (Running.start m)).running k = some { m, xid, tag, left, r } := by
      rw [hsome]
      simp [setRunning]
    obtain ⟨n, y, hy⟩ := @operations_end h hash _ k _ pos hstart
    refine ⟨n, y, ?_⟩
    rw [after, List.foldl_cons, hcall]
    refine ⟨hy.running, hy.more, ?_, hy.names, fun j hj => ?_⟩
    · have hloop := hy.loop
      dsimp only [callOf, setRunning, server4] at hloop hreply ⊢
      rw [hreply y.last y.done _ hloop]
      refine Prod.ext ?_ rfl
      unfold Running.frame
      rw [hy.xid, hy.tag]
    · refine (hy.others j hj).trans ?_
      simp [setRunning, Function.update_of_ne hj]

set_option maxRecDepth 20000 in
/-- The COMPOUND that makes a directory is run, and answered, as the sequential service does it. -/
theorem serial_compound_create : ∃ n y,
    let t := ({ fs := .empty } : Server).after {} (fun _ => 0) (.call 0 createB :: operations 0 (fun _ _ => 0) 0 n)
    t.running 0 = some y ∧
      NfsV4.reply {} (fun _ => 0) (fun _ _ => 0) createB { fs := .empty } = (y.frame, t.server4) := by
  have hidle : ({ fs := .empty } : Server).running 0 = none := rfl
  have hserial := @serial_compound {} (fun _ => 0) { fs := .empty } 0 (fun _ _ => 0) hidle createB
  obtain ⟨x, hx⟩ : ∃ x, Running.start createB = some x := ⟨_, rfl⟩
  rw [hx] at hserial
  obtain ⟨n, y, hy, -, hreply, -⟩ := hserial
  exact ⟨n, y, hy, hreply⟩

end Server

end Prfs
