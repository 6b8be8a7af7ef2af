import Mathlib.Data.List.Flatten
import Mathlib.Tactic.SplitIfs

namespace Prfs

/-- Records on a stream: a mark of fixed width says how many units follow, and only some lengths are admitted. -/
structure Framing (β : Type) where
  width : Nat
  length : List β → Nat
  admits : Nat → Bool
  width_pos : 0 < width
  admits_pos : ∀ n, admits n = true → 0 < n

namespace Framing

/-- Where a receiver is: in a mark, in the record behind one, or done with the stream. -/
inductive Phase (β : Type)
  | mark (got : List β)
  | body (len : Nat) (got : List β)
  | closed
  deriving DecidableEq

/-- What a service answers to a record, and where that leaves it; none where it closes the stream. -/
abbrev Service (σ β ρ : Type) := σ → List β → Option (ρ × σ)

variable {σ β ρ : Type} (f : Framing β) (serve : Service σ β ρ)

/-- One more unit of the stream. -/
def unit : Phase β × σ → β → (Phase β × σ) × Option ρ
  | (.mark got, s), b =>
    let got := got ++ [b]
    if got.length < f.width then ((.mark got, s), none)
    else if f.admits (f.length got) then ((.body (f.length got) [], s), none)
    else ((.closed, s), none)
  | (.body len got, s), b =>
    let got := got ++ [b]
    if got.length < len then ((.body len got, s), none)
    else
      match serve s got with
      | some (r, s) => ((.mark [], s), some r)
      | none => ((.closed, s), none)
  | (.closed, s), _ => ((.closed, s), none)

section Feeding

variable {f serve} {x : Phase β × σ} {s : σ}

end Feeding

end Framing

end Prfs
