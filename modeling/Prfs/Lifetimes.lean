import Mathlib.Data.List.Basic

namespace Prfs

/-- What happens to resources and to the services that work on them. A resource that is lent is somebody else's to release; a call
uses a service without leaving it running. -/
inductive Lifetime (R S : Type)
  | lend (r : R)
  | acquire (r : R)
  | release (r : R)
  | start (s : S)
  | call (s : S)
  | stop (s : S)
  deriving DecidableEq

/-- The resources that are held and the services that run, the youngest first. -/
structure Ledger (R S : Type) where
  held : List R := []
  lent : List R := []
  running : List S := []

namespace Ledger

variable {R S : Type} [DecidableEq R] [DecidableEq S] (needs : S → R)

/-- The resource is there to be used. -/
def Has (l : Ledger R S) (r : R) : Prop := r ∈ l.held ∨ r ∈ l.lent

instance (l : Ledger R S) (r : R) : Decidable (l.Has r) := inferInstanceAs (Decidable (_ ∨ _))

/-- Resources are released and services stopped in the reverse of their order, a resource only when nothing runs that needs it, and
nothing is used that is not there. -/
def step (l : Ledger R S) : Lifetime R S → Option (Ledger R S)
  | .lend r => if l.Has r then none else some { l with lent := r :: l.lent }
  | .acquire r => if l.Has r then none else some { l with held := r :: l.held }
  | .release r =>
    if l.held.head? = some r ∧ ∀ s ∈ l.running, needs s ≠ r then some { l with held := l.held.tail } else none
  | .start s => if l.Has (needs s) then some { l with running := s :: l.running } else none
  | .call s => if l.Has (needs s) then some l else none
  | .stop s => if l.running.head? = some s ∧ l.Has (needs s) then some { l with running := l.running.tail } else none

def run (l : Ledger R S) (events : List (Lifetime R S)) : Option (Ledger R S) := events.foldlM (step needs) l

variable {needs} {l m : Ledger R S} {e : Lifetime R S} {es fs : List (Lifetime R S)}

theorem run_nil : run needs l [] = some l := rfl

theorem run_cons : run needs l (e :: es) = (step needs l e).bind fun m => run needs m es := rfl

theorem run_append (h : run needs l es = some m) : run needs l (es ++ fs) = run needs m fs := by
  unfold run at h ⊢
  rw [List.foldlM_append, h]
  rfl

theorem run_acquire {r : R} (h : ¬ l.Has r) : run needs l (.acquire r :: es) = run needs { l with held := r :: l.held } es := by
  rw [run_cons, step, if_neg h, Option.bind_some]

theorem run_lend {r : R} (h : ¬ l.Has r) : run needs l (.lend r :: es) = run needs { l with lent := r :: l.lent } es := by
  rw [run_cons, step, if_neg h, Option.bind_some]

theorem run_release {r : R} {rs : List R} (hl : l.held = r :: rs) (hs : ∀ s ∈ l.running, needs s ≠ r) :
    run needs l (.release r :: es) = run needs { l with held := rs } es := by
  have hhead : l.held.head? = some r := by rw [hl]; rfl
  have htail : l.held.tail = rs := by rw [hl]; rfl
  rw [run_cons, step, if_pos ⟨hhead, hs⟩, Option.bind_some, htail]

/-- Starting services in turn, where only some of them come up. -/
theorem run_starts {ss : List S} (ok : S → Bool) (h : ∀ s ∈ ss, l.Has (needs s)) :
    run needs l (ss.map fun s => if ok s then .start s else .call s) =
      some { l with running := (ss.filter ok).reverse ++ l.running } := by
  induction ss generalizing l with
  | nil => rfl
  | cons s ss ih =>
    have hs := h s List.mem_cons_self
    have hss : ∀ x ∈ ss, l.Has (needs x) := fun x hx => h x (List.mem_cons_of_mem s hx)
    rw [List.map_cons, run_cons]
    cases hok : ok s with
    | true =>
      rw [if_pos rfl, step, if_pos hs, Option.bind_some, @ih { l with running := s :: l.running } hss, List.filter_cons_of_pos hok,
        List.reverse_cons, List.append_assoc]
      rfl
    | false =>
      rw [if_neg Bool.false_ne_true, step, if_pos hs, Option.bind_some, ih hss, List.filter_cons_of_neg (by rw [hok]; decide)]

/-- Everything that runs is stopped, the youngest first. -/
theorem run_stops (h : ∀ s ∈ l.running, l.Has (needs s)) :
    run needs l (l.running.map .stop) = some { l with running := [] } := by
  obtain ⟨held, lent, running⟩ := l
  induction running with
  | nil => rfl
  | cons s ss ih =>
    have hs : (⟨held, lent, s :: ss⟩ : Ledger R S).Has (needs s) := h s List.mem_cons_self
    rw [List.map_cons, run_cons, step, if_pos ⟨rfl, hs⟩, Option.bind_some]
    exact ih fun x hx => h x (List.mem_cons_of_mem s hx)

/-- Every resource that is acquired is released as often, or held at the end, and the same of the services that run. -/
theorem run_count (h : run needs l es = some m) :
    (∀ r, es.count (.acquire r) + l.held.count r = es.count (.release r) + m.held.count r) ∧
    (∀ s, es.count (.start s) + l.running.count s = es.count (.stop s) + m.running.count s) := by
  induction es generalizing l with
  | nil =>
    cases h
    exact ⟨fun _ => rfl, fun _ => rfl⟩
  | cons e es ih =>
    rw [run_cons] at h
    obtain ⟨k, hk, h⟩ := Option.bind_eq_some_iff.mp h
    obtain ⟨hheld, hrun⟩ := ih h
    cases e with
    | lend r =>
      rw [step] at hk
      split_ifs at hk
      cases hk
      simpa using ⟨hheld, hrun⟩
    | acquire r =>
      rw [step] at hk
      split_ifs at hk
      cases hk
      refine ⟨fun x => ?_, fun s => by simpa using hrun s⟩
      have hx := hheld x
      rw [List.count_cons] at hx
      by_cases hxr : r = x
      · subst hxr
        simp only [beq_self_eq_true, if_true, List.count_cons, reduceCtorEq, beq_iff_eq, if_false] at hx ⊢
        omega
      · simp only [List.count_cons, beq_iff_eq, hxr, if_false, Lifetime.acquire.injEq, reduceCtorEq] at hx ⊢
        omega
    | release r =>
      rw [step] at hk
      split_ifs at hk with hhead
      cases hk
      refine ⟨fun x => ?_, fun s => by simpa using hrun s⟩
      have hx := hheld x
      obtain ⟨rs, hrs⟩ := List.head?_eq_some_iff.mp hhead.1
      rw [hrs] at hx ⊢
      simp only [List.tail_cons, List.count_cons, beq_iff_eq, reduceCtorEq, if_false, Lifetime.release.injEq] at hx ⊢
      omega
    | start s =>
      rw [step] at hk
      split_ifs at hk
      cases hk
      refine ⟨fun x => by simpa using hheld x, fun x => ?_⟩
      have hx := hrun x
      simp only [List.count_cons, beq_iff_eq, reduceCtorEq, if_false, Lifetime.start.injEq] at hx ⊢
      omega
    | call s =>
      rw [step] at hk
      split_ifs at hk
      cases hk
      simpa using ⟨hheld, hrun⟩
    | stop s =>
      rw [step] at hk
      split_ifs at hk with hhead
      cases hk
      refine ⟨fun x => by simpa using hheld x, fun x => ?_⟩
      have hx := hrun x
      obtain ⟨ss, hss⟩ := List.head?_eq_some_iff.mp hhead.1
      rw [hss] at hx ⊢
      simp only [List.tail_cons, List.count_cons, beq_iff_eq, reduceCtorEq, if_false, Lifetime.stop.injEq] at hx ⊢
      omega

end Ledger

end Prfs
