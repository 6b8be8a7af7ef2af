import Prfs.Nfs4Idle
import Prfs.Nfs4Snapshots
import Prfs.OpInval
import Prfs.StoreSetters

namespace Prfs

namespace NfsV4

/-- The setters that the attributes of the bits stand for, up to the first that cannot be set. -/
def fattrSetters (m : Msg) (now : UInt64) : List Nat → Reader → List Setter
  | [], _ => []
  | b :: bs, r =>
    match readFattr m now r b with
    | none => []
    | some (as, r) => as ++ fattrSetters m now bs r

theorem setAttrs_now {s : PrfsStore} {n : Node} {as : List Setter} : (s.setAttrs n as).now = s.now := by
  unfold PrfsStore.setAttrs
  induction as generalizing s with
  | nil => rfl
  | cons a as ih =>
    rw [List.foldl_cons, ih]
    unfold PrfsStore.setAttr PrfsStore.mutateNode
    split <;> rfl

theorem fattrLoop_setAttrs {m : Msg} {n : Node} {bs : List Nat} {r : Reader} {fs : PrfsStore} :
    (fattrLoop m n bs r fs).2.2 = fs.setAttrs n (fattrSetters m fs.now bs r) := by
  induction bs generalizing r fs with
  | nil => rfl
  | cons b bs ih =>
    rw [fattrLoop, fattrSetters]
    cases readFattr m fs.now r b with
    | none => rfl
    | some x =>
      obtain ⟨as, r'⟩ := x
      dsimp only
      have hnow := @setAttrs_now fs n as
      unfold PrfsStore.setAttrs at hnow ⊢
      rw [ih, hnow, PrfsStore.setAttrs, List.foldl_append]

/-- The setters of a `fattr4`. -/
def fattr4Setters (m : Msg) (now : UInt64) (r : Reader) : List Setter :=
  fattrSetters m now (bitsOf (r.bitmap m).1) ((r.bitmap m).2.u32 m).2

theorem applyFattr4_setAttrs {m : Msg} {n : Node} {r : Reader} {fs : PrfsStore} :
    (applyFattr4 m r n fs).2.2 = fs.setAttrs n (fattr4Setters m fs.now r) := by
  rw [fattr4Setters, ← fattrLoop_setAttrs]
  unfold applyFattr4
  dsimp only
  split <;> simp [*]

namespace Call4

section Stores

variable {c : Call4} {m : Msg}

theorem isSnapDir_of_type {fs : PrfsStore} {n : Node} (ht : (fs.attrs n).type ≠ .DIR) : isSnapDir n.id = false := by
  by_contra hd
  rw [Bool.not_eq_false] at hd
  apply ht
  simp only [PrfsStore.attrs, PrfsStore.readNode, hd, ite_true]
  rfl

end Stores

section Ops

variable {c : Call4} {m : Msg} {pos : WalkOrder} {hash : Bytes → UInt64} {h : Host} {isLive : UInt64 → Bool}

end Ops

end Call4

end NfsV4

end Prfs
