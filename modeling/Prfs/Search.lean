import Mathlib.Logic.Relation
import Mathlib.Data.List.Basic
import Mathlib.Tactic.Linarith

namespace Prfs

variable {α : Type} [DecidableEq α]

/-- Depth-first search for `goal` with an explicit stack (top first) and a list of
nodes already expanded. Out of fuel it answers nothing. -/
def search (succ : α → List α) (goal : α) : Nat → List α → List α → Option Bool
  | 0, _, _ => none
  | _ + 1, [], _ => some false
  | fuel + 1, n :: st, seen =>
    if n = goal then some true
    else if n ∈ seen then search succ goal fuel st seen
    else search succ goal fuel ((succ n).reverse ++ st) (n :: seen)

theorem search_sound {succ : α → List α} {goal : α} {fuel : Nat} {st seen : List α}
    (h : search succ goal fuel st seen = some true) :
    ∃ n ∈ st, Relation.ReflTransGen (fun a b => b ∈ succ a) n goal := by
  induction fuel generalizing st seen with
  | zero => simp [search] at h
  | succ fuel ih =>
    cases st with
    | nil => simp [search] at h
    | cons n st =>
      unfold search at h
      split_ifs at h with hg hs
      · exact ⟨n, by simp, hg ▸ Relation.ReflTransGen.refl⟩
      · obtain ⟨m, hm, hr⟩ := ih h
        exact ⟨m, List.mem_cons_of_mem n hm, hr⟩
      · obtain ⟨m, hm, hr⟩ := ih h
        rcases List.mem_append.mp hm with hm | hm
        · exact ⟨n, by simp, Relation.ReflTransGen.head (List.mem_reverse.mp hm) hr⟩
        · exact ⟨m, List.mem_cons_of_mem n hm, hr⟩

/-- What an exhausted search has established: the expanded nodes exclude the goal
and every successor of theirs is expanded or still on the stack. -/
def Closed (succ : α → List α) (goal : α) (st seen : List α) : Prop :=
  goal ∉ seen ∧ ∀ a ∈ seen, ∀ b ∈ succ a, b ∈ seen ∨ b ∈ st

theorem search_closed {succ : α → List α} {goal : α} {fuel : Nat} {st seen : List α}
    (hc : Closed succ goal st seen) (h : search succ goal fuel st seen = some false) :
    ∃ final, Closed succ goal [] final ∧ (∀ a ∈ seen, a ∈ final) ∧ ∀ a ∈ st, a ∈ final := by
  induction fuel generalizing st seen with
  | zero => simp [search] at h
  | succ fuel ih =>
    cases st with
    | nil => exact ⟨seen, hc, fun _ ha => ha, by simp⟩
    | cons n st =>
      unfold search at h
      split_ifs at h with hg hs
      · simp at h
      · have hc' : Closed succ goal st seen := by
          refine ⟨hc.1, fun a ha b hb => ?_⟩
          rcases hc.2 a ha b hb with hb' | hb'
          · exact Or.inl hb'
          · rcases List.mem_cons.mp hb' with rfl | hb'
            · exact Or.inl hs
            · exact Or.inr hb'
        obtain ⟨final, hf, hseen, hst⟩ := ih hc' h
        refine ⟨final, hf, hseen, fun a ha => ?_⟩
        rcases List.mem_cons.mp ha with rfl | ha
        · exact hseen a hs
        · exact hst a ha
      · have hc' : Closed succ goal ((succ n).reverse ++ st) (n :: seen) := by
          refine ⟨by simpa [hc.1] using Ne.symm hg, fun a ha b hb => ?_⟩
          rcases List.mem_cons.mp ha with rfl | ha
          · exact Or.inr (List.mem_append_left _ (List.mem_reverse.mpr hb))
          · rcases hc.2 a ha b hb with hb' | hb'
            · exact Or.inl (List.mem_cons_of_mem n hb')
            · rcases List.mem_cons.mp hb' with rfl | hb'
              · exact Or.inl (by simp)
              · exact Or.inr (List.mem_append_right _ hb')
        obtain ⟨final, hf, hseen, hst⟩ := ih hc' h
        refine ⟨final, hf, fun a ha => hseen a (List.mem_cons_of_mem n ha), fun a ha => ?_⟩
        rcases List.mem_cons.mp ha with rfl | ha
        · exact hseen a (by simp)
        · exact hst a (List.mem_append_right _ ha)

theorem search_complete {succ : α → List α} {goal start : α} {fuel : Nat}
    (h : search succ goal fuel [start] [] = some false) :
    ¬ Relation.ReflTransGen (fun a b => b ∈ succ a) start goal := by
  obtain ⟨final, hc, _, hst⟩ := search_closed (by simp [Closed]) h
  have hmem : ∀ {x}, Relation.ReflTransGen (fun a b => b ∈ succ a) start x → x ∈ final := by
    intro x hr
    induction hr with
    | refl => exact hst start (by simp)
    | tail _ hb ih => exact (hc.2 _ ih _ hb).resolve_right (by simp)
  exact fun hr => hc.1 (hmem hr)

/-- Each round pops one node, and a node is expanded once: with `weight` bounding
the successors of the nodes not yet expanded, the fuel below is never used up. -/
theorem search_terminates {succ : α → List α} {goal : α} (weight : List α → Nat)
    (hw : ∀ n seen, n ∉ seen → (succ n).length + weight (n :: seen) ≤ weight seen)
    {fuel : Nat} {st seen : List α} (hf : st.length + weight seen < fuel) :
    ∃ b, search succ goal fuel st seen = some b := by
  induction fuel generalizing st seen with
  | zero => omega
  | succ fuel ih =>
    cases st with
    | nil => exact ⟨false, rfl⟩
    | cons n st =>
      unfold search
      simp only [List.length_cons] at hf
      split_ifs with hg hs
      · exact ⟨true, rfl⟩
      · exact ih (by omega)
      · refine ih ?_
        have hn := hw n seen hs
        simp only [List.length_append, List.length_reverse]
        omega

section Acyclic

variable {β : Type} {r s : β → β → Prop} {x y a b : β}

/-- Paths of a relation with one edge added either avoid the edge or pass through it. -/
theorem transGen_insert_edge (hs : ∀ a b, s a b → r a b ∨ a = x ∧ b = y) (h : Relation.TransGen s a b) :
    Relation.TransGen r a b ∨ Relation.ReflTransGen r a x ∧ Relation.ReflTransGen r y b := by
  induction h with
  | single hab =>
    rcases hs _ _ hab with hr | ⟨rfl, rfl⟩
    · exact Or.inl (Relation.TransGen.single hr)
    · exact Or.inr ⟨Relation.ReflTransGen.refl, Relation.ReflTransGen.refl⟩
  | tail _ hbc ih =>
    rcases hs _ _ hbc with hr | ⟨rfl, rfl⟩
    · rcases ih with ih | ⟨h1, h2⟩
      · exact Or.inl (ih.tail hr)
      · exact Or.inr ⟨h1, h2.tail hr⟩
    · rcases ih with ih | ⟨h1, _⟩
      · exact Or.inr ⟨ih.to_reflTransGen, Relation.ReflTransGen.refl⟩
      · exact Or.inr ⟨h1, Relation.ReflTransGen.refl⟩

theorem reflTransGen_insert_edge (hs : ∀ a b, s a b → r a b ∨ a = x ∧ b = y) (h : Relation.ReflTransGen s a b) :
    Relation.ReflTransGen r a b ∨ Relation.ReflTransGen r a x ∧ Relation.ReflTransGen r y b := by
  rcases Relation.reflTransGen_iff_eq_or_transGen.mp h with rfl | h
  · exact Or.inl .refl
  · exact (transGen_insert_edge hs h).imp_left Relation.TransGen.to_reflTransGen

/-- Without an edge everything that was reached still is, its target apart, exactly when its source was not reached or
all that follows its target still is. -/
theorem reached_without_edge_iff (hrs : ∀ a b, r a b → s a b) (hs : ∀ a b, s a b → r a b ∨ a = x ∧ b = y) (hxy : s x y)
    (hloop : ¬ s y y) : (∀ b, Relation.ReflTransGen s a b → b ≠ y → Relation.ReflTransGen r a b) ↔
      (Relation.ReflTransGen s a x → ∀ z, r y z → Relation.ReflTransGen r a z) := by
  constructor
  · intro h hx z hz
    refine h z ((hx.tail hxy).tail (hrs y z hz)) ?_
    rintro rfl
    exact hloop (hrs z z hz)
  · intro h b hb hne
    rcases reflTransGen_insert_edge hs hb with hr | ⟨hax, hyb⟩
    · exact hr
    · rcases Relation.ReflTransGen.cases_head hyb with rfl | ⟨z, hyz, hzb⟩
      · exact absurd rfl hne
      · exact (h (Relation.ReflTransGen.mono hrs _ _ hax) z hyz).trans hzb

theorem acyclic_insert_edge (hr : ∀ a, ¬ Relation.TransGen r a a)
    (hs : ∀ a b, s a b → r a b ∨ a = x ∧ b = y) (hyx : ¬ Relation.ReflTransGen r y x) :
    ∀ a, ¬ Relation.TransGen s a a := by
  intro a h
  rcases transGen_insert_edge hs h with h | ⟨h1, h2⟩
  · exact hr a h
  · exact hyx (h2.trans h1)

theorem acyclic_of_imp (hr : ∀ a, ¬ Relation.TransGen r a a) (hs : ∀ a b, s a b → r a b) :
    ∀ a, ¬ Relation.TransGen s a a :=
  fun a h => hr a (Relation.TransGen.mono hs a a h)

end Acyclic

end Prfs
