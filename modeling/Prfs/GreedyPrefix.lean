import Mathlib.Algebra.BigOperators.Group.List.Basic
import Mathlib.Algebra.GroupWithZero.Nat

namespace Prfs

variable {α : Type} {size : α → Nat} {max budget : Nat} {es : List α}

/-- Elements from the front while their sizes, on top of what is spent, stay within the limit. -/
def greedy (size : α → Nat) (max : Nat) : Nat → List α → List α
  | _, [] => []
  | budget, e :: es => if budget + size e ≤ max then e :: greedy size max (budget + size e) es else []

theorem greedy_prefix (size : α → Nat) (max budget : Nat) (es : List α) : greedy size max budget es <+: es := by
  induction es generalizing budget with
  | nil => exact List.prefix_refl _
  | cons e es ih =>
    rw [greedy]
    split_ifs
    · exact List.cons_prefix_cons.mpr ⟨rfl, ih _⟩
    · exact List.nil_prefix

/-- What is taken stays within the limit, if anything is. -/
theorem greedy_sum_le (h : greedy size max budget es ≠ []) :
    budget + ((greedy size max budget es).map size).sum ≤ max := by
  induction es generalizing budget with
  | nil => exact absurd rfl h
  | cons e es ih =>
    rw [greedy] at h ⊢
    split_ifs at h ⊢ with hfit
    · by_cases hrest : greedy size max (budget + size e) es = []
      · rw [hrest]
        simpa using hfit
      · have hsum := ih hrest
        rw [List.map_cons, List.sum_cons]
        omega
    · exact absurd rfl h

theorem greedy_nil_iff : greedy size max budget es = [] ↔ ∀ e, es.head? = some e → max < budget + size e := by
  cases es with
  | nil => simp [greedy]
  | cons e es =>
    rw [greedy]
    split_ifs with hfit
    · simpa using hfit
    · simpa using hfit

/-- Something is taken or there is nothing to take exactly when the first element fits. -/
theorem greedy_progress_iff : (greedy size max budget es = es ∨ greedy size max budget es ≠ []) ↔
    ∀ e, es.head? = some e → budget + size e ≤ max := by
  cases es with
  | nil => simp [greedy]
  | cons e es =>
    rw [ne_eq, greedy_nil_iff]
    constructor
    · rintro (hall | hfirst) x hx
      · obtain rfl : e = x := by simpa using hx
        by_contra hno
        rw [greedy, if_neg hno] at hall
        cases hall
      · rw [not_forall] at hfirst
        obtain ⟨y, hy⟩ := hfirst
        obtain ⟨hhead, hfit⟩ := Classical.not_imp.mp hy
        rw [hx] at hhead
        obtain rfl : x = y := Option.some.inj hhead
        exact Nat.not_lt.mp hfit
    · intro h
      refine Or.inr fun hno => ?_
      have hlt := hno e rfl
      have hle := h e rfl
      omega

theorem greedy_cons_of_fits (es : List α) {e : α} (h : budget + size e ≤ max) :
    greedy size max budget (e :: es) = e :: greedy size max (budget + size e) es := if_pos h

theorem greedy_cons_of_not_fits (es : List α) {e : α} (h : ¬ budget + size e ≤ max) :
    greedy size max budget (e :: es) = [] := if_neg h

/-- What holds of the last element taken, told by whether any is taken after the first. -/
theorem greedy_last_cons {e : α} {P : α → Prop} (hfit : budget + size e ≤ max)
    (hmore : ∀ y, (greedy size max (budget + size e) es).getLast? = some y → P y)
    (honly : greedy size max (budget + size e) es = [] → P e) :
    ∀ y, (greedy size max budget (e :: es)).getLast? = some y → P y := by
  intro y hy
  rw [greedy_cons_of_fits _ hfit, List.getLast?_cons] at hy
  cases hrest : (greedy size max (budget + size e) es).getLast? with
  | none =>
    rw [hrest] at hy
    obtain rfl := Option.some.inj hy
    exact honly (List.getLast?_eq_none_iff.mp hrest)
  | some z =>
    rw [hrest] at hy
    obtain rfl := Option.some.inj hy
    exact hmore _ hrest

theorem greedy_fits {e : α} (h : e ∈ greedy size max budget es) : budget + size e ≤ max := by
  induction es generalizing budget with
  | nil => cases h
  | cons x es ih =>
    rw [greedy] at h
    split_ifs at h with hfit
    · rcases List.mem_cons.mp h with rfl | h
      · exact hfit
      · have hrest := ih h
        omega
    · cases h

/-- The pages got one after the other, from the place the first one is asked for at to the end flag. -/
inductive Complete {σ : Type} (page : σ → Bool → List α → σ → Prop) : σ → List α → Prop
  | last {x y : σ} {es : List α} : page x true es y → Complete page x es
  | next {x y : σ} {es rest : List α} : page x false es y → Complete page y rest → Complete page x (es ++ rest)

/-- Each page is filled with what fits of the elements left at its place, and hands out the place of the rest. -/
structure Fills {σ : Type} (size : α → Nat) (max budget : Nat) (page : σ → Bool → List α → σ → Prop) (ok : σ → Prop)
    (todo : σ → List α) : Prop where
  ex : ∀ {x}, ok x → ∃ eof es y, page x eof es y
  ents : ∀ {x eof es y}, ok x → page x eof es y → es = greedy size max budget (todo x)
  eof : ∀ {x eof es y}, ok x → page x eof es y → (eof = true ↔ es = todo x)
  rest : ∀ {x eof es y}, ok x → page x eof es y → ok y ∧ todo x = es ++ todo y

/-- The pages come to an end exactly when every element left fits a page on its own, and then they hold all of these. -/
theorem Fills.complete_iff {σ : Type} {page : σ → Bool → List α → σ → Prop} {ok : σ → Prop} {todo : σ → List α}
    (h : Fills size max budget page ok todo) {x : σ} (hx : ok x) :
    Complete page x es ↔ es = todo x ∧ ∀ e ∈ todo x, budget + size e ≤ max := by
  constructor
  · intro hc
    induction hc with
    | last hp =>
      have hall := (h.eof hx hp).mp rfl
      refine ⟨hall, fun e he => ?_⟩
      rw [← hall, h.ents hx hp] at he
      exact greedy_fits he
    | next hp _ ih =>
      obtain ⟨hy, hrest⟩ := h.rest hx hp
      obtain ⟨rfl, hfit⟩ := ih hy
      refine ⟨hrest.symm, fun e he => ?_⟩
      rw [hrest, h.ents hx hp] at he
      rcases List.mem_append.mp he with he | he
      · exact greedy_fits he
      · exact hfit e he
  · rintro ⟨rfl, hfit⟩
    -- each page that is not the last takes something
    induction hn : (todo x).length using Nat.strongRecOn generalizing x with
    | _ n ih =>
      obtain ⟨eof, es, y, hp⟩ := h.ex hx
      obtain ⟨hy, hrest⟩ := h.rest hx hp
      cases eof with
      | true =>
        rw [← (h.eof hx hp).mp rfl]
        exact .last hp
      | false =>
        have hmore : es ≠ todo x := fun heq => absurd ((h.eof hx hp).mpr heq) Bool.false_ne_true
        have hprog := greedy_progress_iff.mpr fun e he => hfit e (List.mem_of_mem_head? he)
        rw [← h.ents hx hp] at hprog
        have hlen := List.length_pos_iff.mpr (hprog.resolve_left hmore)
        have hsum := congrArg List.length hrest
        rw [List.length_append] at hsum
        have hfit' : ∀ e ∈ todo y, budget + size e ≤ max := fun e he =>
          hfit e (hrest ▸ List.mem_append_right _ he)
        rw [hrest]
        exact .next hp (ih _ (by omega) hy hfit' rfl)

/-- From a place on, a page ends the elements left or holds one, and the pages come to an end, exactly when the first
of these, or every one of them, fits. -/
structure Progress {σ : Type} (page : σ → Bool → List α → σ → Prop) (x : σ) (left : List α) (fits : α → Prop) : Prop where
  ex : ∃ eof es y, page x eof es y
  moves : ∀ eof es y, page x eof es y → ((eof = true ∨ es ≠ []) ↔ ∀ e, left.head? = some e → fits e)
  ends : (∃ es, Complete page x es) ↔ ∀ e ∈ left, fits e

theorem Fills.progress {σ : Type} {page : σ → Bool → List α → σ → Prop} {ok : σ → Prop} {todo : σ → List α}
    (h : Fills size max budget page ok todo) {x : σ} (hx : ok x) :
    Progress page x (todo x) (fun e => budget + size e ≤ max) where
  ex := h.ex hx
  moves := by
    intro eof es y hp
    rw [h.eof hx hp, h.ents hx hp]
    exact greedy_progress_iff
  ends := by
    constructor
    · rintro ⟨es, hes⟩
      exact ((h.complete_iff hx).mp hes).2
    · intro hfit
      exact ⟨_, (h.complete_iff hx).mpr ⟨rfl, hfit⟩⟩

end Prfs
