import Prfs.Nfs4Ops
import Prfs.Nfs4Run
import Prfs.SealedReads

namespace Prfs

/-- A COMPOUND between two of its operations: its message, the operations ahead and done, the last status, the
filehandles, and where it reads and writes. -/
structure Running where
  m : Msg
  xid : UInt32
  tag : Bytes
  left : Nat
  done : Nat := 0
  last : Nfsstat4 := .ok
  cfh : Option Node := none
  sfh : Option Node := none
  r : Reader
  w : Writer := {}

namespace Running

/-- The next operation is still to be executed. -/
def more (x : Running) : Bool := x.left ≠ 0 && x.r.ok

/-- The record-marked reply of a COMPOUND that is through. -/
def frame (x : Running) : Bytes :=
  let last := if !x.r.ok then .inval else x.last
  let body := (((({} : Writer).u32 last.code).str x.tag).u32 (UInt32.ofNat x.done)).append x.w.v
  let w : Writer := (((((({} : Writer).u32 x.xid).u32 RPC_REPLY).u32 MSG_ACCEPTED).u32 0).u32 0).u32
    AcceptStat.success.code
  let rep := w.v ++ body.v
  word (0x80000000 ||| UInt32.ofNat rep.length) ++ rep

/-- The COMPOUND of a message; none where it is answered at once. -/
def start (m : Msg) : Option Running :=
  let (xid, r) := ({} : Reader).u32 m
  let (_, r) := r.u32 m
  let (_, r) := r.u32 m
  let (prog, r) := r.u32 m
  let (vers, r) := r.u32 m
  let (proc, r) := r.u32 m
  let r := (r.skipAuth m).skipAuth m
  if prog ≠ PROG_NFS ∨ vers ≠ NfsV4.NFS_V4 ∨ proc ≠ 1 then none
  else
    let (nops, tag, r) := NfsV4.readCompound m r
    if !r.ok || 4096 < nops then none else some { m, xid, tag, left := nops.toNat, r }

end Running

/-- The store and the tables behind the locks of the process, and the COMPOUND that each connection is in. -/
structure Server where
  fs : PrfsStore
  names : OrdMap UInt64 Bytes := .empty
  v : NfsV4 := {}
  ckName : OrdMap UInt64 Bytes := .empty
  running : Nat → Option Running := fun _ => none

/-- What takes the store lock once, and what a connection does between: a record of the version 3 service, a call of
the version 4 service, one operation of its COMPOUND, its reply, and an operation of the store from within the process. -/
inductive Turn
  | record (m : Msg)
  | call (conn : Nat) (m : Msg)
  | operation (conn : Nat) (pos : WalkOrder)
  | answer (conn : Nat)
  | direct (op : Op)

namespace Server

open NfsV4 (Call4 Step4)

variable (h : Host) (hash : Bytes → UInt64)

/-- The call that an operation of a running COMPOUND works on. -/
def callOf (s : Server) (x : Running) : Call4 :=
  { v := s.v, fs := s.fs, ckName := s.ckName, cfh := x.cfh, sfh := x.sfh, r := x.r, w := x.w }

/-- The COMPOUND after an operation, which ends it by failing. -/
def ran (x : Running) (t : Step4) : Running :=
  { x with
    left := if t.st = .ok then x.left - 1 else 0
    done := x.done + 1
    last := t.st
    cfh := t.after.cfh
    sfh := t.after.sfh
    r := t.after.r
    w := t.after.w }

def setRunning (s : Server) (k : Nat) (x : Option Running) : Server :=
  { s with running := Function.update s.running k x }

def operate (s : Server) (k : Nat) (pos : WalkOrder) (x : Running) : Server :=
  let t := Call4.execOp h hash pos x.m (s.callOf x)
  { s with fs := t.after.fs, v := t.after.v, ckName := t.after.ckName }.setRunning k (some (ran x t))

def step (s : Server) : Turn → Server
  | .record m =>
    let v := NfsV3.serve h ⟨s.fs, s.names⟩ m
    { s with fs := v.fs, names := v.ckName }
  | .call k m => if (s.running k).isSome then s else s.setRunning k (Running.start m)
  | .operation k pos =>
    match s.running k with
    | some x => if x.more then s.operate h hash k pos x else s
    | none => s
  | .answer k => if (s.running k).any (fun x => !x.more) then s.setRunning k none else s
  | .direct op => { s with fs := (s.fs.exec op).2 }

/-- There are ids left for what the turn may make. -/
def Fits (s : Server) : Turn → Prop
  | .record _ | .operation _ _ => s.fs.next < SNAP_BIT
  | .direct op => s.fs.Fits op
  | .call _ _ | .answer _ => True

/-- `t` is reached from `s` by turns of any connections, in any order. -/
def Traffic (s t : Server) : Prop := Reaches (step h hash) Fits s t

/-- The name that a turn may make an entry of. -/
def boundName (s : Server) : Turn → Option Bytes
  | .record m => NfsV3.recordName m
  | .operation k _ =>
    (s.running k).bind fun x =>
      let (op, r) := x.r.u32 x.m
      (Op4.ofCode op).bind (NfsV4.boundName x.m r)
  | .direct op => op.binds
  | .call _ _ | .answer _ => none

section Steps

variable {h : Host} {hash : Bytes → UInt64} {s t : Server} {turn : Turn}

@[simp] theorem setRunning_fs (s : Server) (k : Nat) (x : Option Running) : (s.setRunning k x).fs = s.fs := rfl

@[simp] theorem setRunning_v (s : Server) (k : Nat) (x : Option Running) : (s.setRunning k x).v = s.v := rfl

/-- A turn runs public operations of the store, and makes entries of its name only. -/
theorem step_does (hf : s.Fits turn) : PrfsStore.Does (s.boundName turn) s.fs (s.step h hash turn).fs := by
  cases turn with
  | record m => exact NfsV3.serve_does (v := ⟨s.fs, s.names⟩) hf m
  | call k m =>
    rw [step]
    split_ifs
    · exact .refl
    · exact .refl
  | operation k pos =>
    rw [step, boundName]
    cases s.running k with
    | none => exact .refl
    | some x =>
      dsimp only [Option.bind_some]
      split_ifs
      · exact Call4.doOp_does (c := { s.callOf x with r := (x.r.u32 x.m).2 }) hf h hash _
      · exact .refl
  | answer k =>
    rw [step]
    split_ifs
    · exact .refl
    · exact .refl
  | direct op => exact PrfsStore.Does.op .refl op hf (.inr rfl)

theorem Traffic.fs_run (ht : Traffic h hash s t) : PrfsStore.Run s.fs t.fs := by
  unfold Traffic at ht
  induction ht with
  | refl => exact .refl
  | tail _ hf ih => exact Reaches.trans ih (step_does hf).run

/-- A turn acts on the tables as one request does, whose file is there afterwards. -/
theorem step_request (s : Server) (turn : Turn) : ∃ i : WalkOrder × NfsV4.Req, (s.step h hash turn).v = s.v.step hash i ∧
    (s.fs.Sound → s.Fits turn → ∀ f, i.2.file = some f → (s.step h hash turn).fs.Given f) := by
  have hidle : ∀ {t : Server}, t.v = s.v → ∃ i : WalkOrder × NfsV4.Req, t.v = s.v.step hash i ∧
      (s.fs.Sound → s.Fits turn → ∀ f, i.2.file = some f → t.fs.Given f) :=
    fun hv => ⟨(fun _ => 0, .idle), hv, fun _ _ f hf => by cases hf⟩
  cases turn with
  | record m => exact hidle rfl
  | call k m =>
    refine hidle ?_
    rw [step]
    split_ifs
    · rfl
    · rfl
  | operation k pos =>
    rw [step]
    cases s.running k with
    | none => exact hidle rfl
    | some x =>
      dsimp only
      split_ifs
      · obtain ⟨q, hv, hfile⟩ := @Call4.doOp_request { s.callOf x with r := (x.r.u32 x.m).2 } x.m pos h hash (x.r.u32 x.m).1
        exact ⟨(pos, q), hv, hfile⟩
      · exact hidle rfl
  | answer k =>
    refine hidle ?_
    rw [step]
    split_ifs
    · rfl
    · rfl
  | direct op => exact hidle rfl

end Steps

end Server

end Prfs
