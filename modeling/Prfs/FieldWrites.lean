import Mathlib.Data.List.Nodup

namespace Prfs

/-- A state with fields, and writes that are each of one field. -/
structure FieldWrites (σ ι ω β : Type) where
  field : ω → ι
  get : ι → σ → β
  put : σ → ω → σ
  other : ∀ s w i, i ≠ field w → get i (put s w) = get i s
  same : ∀ s w, get (field w) (put s w) = get (field w) s → put s w = s

namespace FieldWrites

variable {σ ι ω β : Type} (F : FieldWrites σ ι ω β) {s : σ} {ws : List ω} {i : ι}

/-- A field that none of the writes is of keeps its value. -/
theorem get_foldl (h : i ∉ ws.map F.field) : F.get i (ws.foldl F.put s) = F.get i s := by
  induction ws generalizing s with
  | nil => rfl
  | cons w ws ih =>
    rw [List.map_cons, List.mem_cons, not_or] at h
    rw [List.foldl_cons, ih h.2, F.other s w i h.1]

theorem foldl_eq_self (h : ∀ w ∈ ws, F.put s w = s) : ws.foldl F.put s = s := by
  induction ws with
  | nil => rfl
  | cons w ws ih =>
    rw [List.foldl_cons, h w List.mem_cons_self]
    exact ih fun x hx => h x (List.mem_cons_of_mem w hx)

/-- Writes of different fields leave every field as it was exactly when each writes what is there. -/
theorem get_foldl_iff (hd : (ws.map F.field).Nodup) :
    (∀ i, F.get i (ws.foldl F.put s) = F.get i s) ↔ ∀ w ∈ ws, F.put s w = s := by
  constructor
  · induction ws with
    | nil => exact fun _ _ hw => absurd hw List.not_mem_nil
    | cons w ws ih =>
      intro h
      rw [List.map_cons, List.nodup_cons] at hd
      have hw : F.put s w = s := by
        refine F.same s w ?_
        rw [← h (F.field w), List.foldl_cons, F.get_foldl hd.1]
      rw [List.foldl_cons, hw] at h
      exact List.forall_mem_cons.mpr ⟨hw, ih hd.2 h⟩
  · intro h i
    rw [F.foldl_eq_self h]

end FieldWrites

end Prfs
