import Mathlib.Data.List.Infix

namespace Prfs

/-- States reached from `s` by inputs each allowed in the state that takes it. -/
inductive Reaches {σ ι : Type} (step : σ → ι → σ) (ok : σ → ι → Prop) (s : σ) : σ → Prop
  | refl : Reaches step ok s s
  | tail {t : σ} {i : ι} : Reaches step ok s t → ok t i → Reaches step ok s (step t i)

namespace Reaches

variable {σ ι : Type} {step : σ → ι → σ} {ok ok' : σ → ι → Prop} {s t u : σ}

theorem trans (h : Reaches step ok s t) (h' : Reaches step ok t u) : Reaches step ok s u := by
  induction h' with
  | refl => exact h
  | tail _ hi ih => exact ih.tail hi

/-- What holds at the start and survives each allowed step holds throughout. -/
theorem invariant {P : σ → Prop} (hstep : ∀ t i, P t → ok t i → P (step t i)) (hs : P s)
    (h : Reaches step ok s t) : P t := by
  induction h with
  | refl => exact hs
  | tail _ hi ih => exact hstep _ _ ih hi

theorem weaken (hok : ∀ t i, ok t i → ok' t i) (h : Reaches step ok s t) : Reaches step ok' s t := by
  induction h with
  | refl => exact refl
  | tail _ hi ih => exact ih.tail (hok _ _ hi)

end Reaches

/-- Each input of the list is allowed in the state that takes it. -/
def Allowed {σ ι : Type} (step : σ → ι → σ) (ok : σ → ι → Prop) : σ → List ι → Prop
  | _, [] => True
  | s, i :: is => ok s i ∧ Allowed step ok (step s i) is

instance Allowed.decidable {σ ι : Type} (step : σ → ι → σ) (ok : σ → ι → Prop) [∀ s i, Decidable (ok s i)] :
    (s : σ) → (is : List ι) → Decidable (Allowed step ok s is)
  | _, [] => inferInstanceAs (Decidable True)
  | s, i :: is =>
    have := Allowed.decidable step ok (step s i) is
    inferInstanceAs (Decidable (ok s i ∧ Allowed step ok (step s i) is))

theorem Reaches.of_allowed {σ ι : Type} {step : σ → ι → σ} {ok : σ → ι → Prop} {s : σ} {is : List ι}
    (h : Allowed step ok s is) : Reaches step ok s (is.foldl step s) := by
  induction is generalizing s with
  | nil => exact .refl
  | cons i is ih => exact (Reaches.refl.tail h.1).trans (ih h.2)

/-- A property held along a whole run exactly when each of its steps is allowed. -/
theorem Allowed.iff_throughout {σ ι : Type} {step : σ → ι → σ} {ok : σ → ι → Prop} {P : σ → Prop}
    (hstep : ∀ t i, P t → (P (step t i) ↔ ok t i)) {s : σ} (hs : P s) (is : List ι) :
    (∀ pre, pre <+: is → P (pre.foldl step s)) ↔ Allowed step ok s is := by
  induction is generalizing s with
  | nil =>
    refine iff_of_true (fun pre hpre => ?_) trivial
    rw [List.prefix_nil.mp hpre]
    exact hs
  | cons i is ih =>
    constructor
    · intro h
      have hi : P (step s i) := h [i] (by simp)
      refine ⟨(hstep s i hs).mp hi, (ih hi).mp fun pre hpre => ?_⟩
      exact h (i :: pre) (List.cons_prefix_cons.mpr ⟨rfl, hpre⟩)
    · rintro ⟨hi, his⟩ pre hpre
      cases pre with
      | nil => exact hs
      | cons j pre =>
        obtain ⟨rfl, htail⟩ := List.cons_prefix_cons.mp hpre
        exact (ih ((hstep s _ hs).mpr hi)).mpr his pre htail

end Prfs
