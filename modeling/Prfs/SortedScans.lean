import Mathlib.Data.List.Sort
import Mathlib.Order.WithBot

namespace Prfs

section SortedScan

variable {α κ : Type} [LinearOrder κ] {key : α → κ}

/-- The elements of a list that come after the cursor. -/
def toCome (key : α → κ) (cur : WithBot κ) (l : List α) : List α := l.filter (fun a => cur < key a)

theorem mem_toCome {cur : WithBot κ} {l : List α} {a : α} : a ∈ toCome key cur l ↔ a ∈ l ∧ cur < key a := by
  simp [toCome]

@[simp] theorem toCome_bot (l : List α) : toCome key ⊥ l = l := by
  rw [toCome, List.filter_eq_self]
  simp

theorem toCome_cons_of_le {cur : WithBot κ} {l : List α} {a : α} (h : key a ≤ cur) :
    toCome key cur (a :: l) = toCome key cur l := by
  rw [toCome, List.filter_cons_of_neg (by simpa using h)]
  rfl

theorem toCome_eq_self {cur : WithBot κ} {l : List α} (h : ∀ a ∈ l, cur < key a) : toCome key cur l = l := by
  rw [toCome, List.filter_eq_self]
  simpa using h

theorem toCome_map {β : Type} {f : β → α} {p : β → Bool} {cur : WithBot κ} {l : List β}
    (h : ∀ b, p b = true ↔ cur < key (f b)) : toCome key cur (l.map f) = (l.filter p).map f := by
  rw [toCome, List.filter_map]
  refine congrArg _ (List.filter_congr fun b _ => ?_)
  rw [Bool.eq_iff_iff, h]
  simp

/-- One call of a scan: the list it reads and what it gets of it. -/
structure Visit (α : Type) where
  list : List α
  got : List α

/-- What a scan has got. -/
def gathered (visits : List (Visit α)) : List α := visits.flatMap Visit.got

/-- Each visit finds a sorted list, gets what comes first after the cursor, and leaves the cursor at the last of it. -/
inductive Scanned (key : α → κ) : WithBot κ → List (Visit α) → Prop
  | start : Scanned key ⊥ []
  | visit {cur : WithBot κ} {visits : List (Visit α)} {list got rest : List α} {last : α} : Scanned key cur visits →
      list.Pairwise (fun a b => key a < key b) → toCome key cur list = got ++ rest →
      got.getLast? = some last → Scanned key (key last) (visits ++ [⟨list, got⟩])

variable {cur : WithBot κ} {visits : List (Visit α)} {list got rest : List α} {a last : α}

theorem getLast_greatest (hs : got.Pairwise (fun a b => key a < key b)) (hlast : got.getLast? = some last)
    (ha : a ∈ got) : key a ≤ key last := by
  obtain ⟨init, rfl⟩ := List.getLast?_eq_some_iff.mp hlast
  rcases List.mem_append.mp ha with ha | ha
  · exact le_of_lt ((List.pairwise_append.mp hs).2.2 a ha last (by simp))
  · rw [List.mem_singleton.mp ha]

theorem gathered_append (visits : List (Visit α)) (list got : List α) :
    gathered (visits ++ [⟨list, got⟩]) = gathered visits ++ got := by
  simp [gathered]

/-- What the next visit gets comes after everything so far. -/
theorem Scanned.append_sorted (hs : (gathered visits).Pairwise (fun a b => key a < key b))
    (hle : ∀ a ∈ gathered visits, (key a : WithBot κ) ≤ cur) (hl : list.Pairwise (fun a b => key a < key b))
    (hsplit : toCome key cur list = got ++ rest) :
    (gathered visits ++ got).Pairwise (fun a b => key a < key b) := by
  have hsorted : (toCome key cur list).Pairwise (fun a b => key a < key b) := hl.filter _
  rw [hsplit] at hsorted
  refine List.pairwise_append.mpr ⟨hs, (List.pairwise_append.mp hsorted).1, fun a ha b hb => ?_⟩
  have hb' : b ∈ toCome key cur list := by
    rw [hsplit]
    exact List.mem_append_left _ hb
  exact WithBot.coe_lt_coe.mp (lt_of_le_of_lt (hle a ha) (mem_toCome.mp hb').2)

theorem Scanned.sorted (h : Scanned key cur visits) :
    (gathered visits).Pairwise (fun a b => key a < key b) ∧ ∀ a ∈ gathered visits, (key a : WithBot κ) ≤ cur := by
  induction h with
  | start => simp [gathered]
  | @visit cur visits list got rest last _ hl hsplit hlast ih =>
    obtain ⟨hs, hle⟩ := ih
    have hsorted := Scanned.append_sorted hs hle hl hsplit
    rw [gathered_append]
    refine ⟨hsorted, fun a ha => ?_⟩
    rw [WithBot.coe_le_coe]
    refine getLast_greatest hsorted ?_ ha
    rw [List.getLast?_append, hlast]
    rfl

/-- An element found with `p` by every visit has been got once the cursor is at its key. -/
theorem Scanned.meets {p : α → Prop} {k : κ} (h : Scanned key cur visits) (hk : (k : WithBot κ) ≤ cur)
    (hp : ∀ visit ∈ visits, ∃ a ∈ visit.list, key a = k ∧ p a) : ∃ a ∈ gathered visits, key a = k ∧ p a := by
  induction h with
  | start => simp at hk
  | @visit cur visits list got rest last _ hl hsplit hlast ih =>
    rw [gathered_append]
    rcases le_or_gt (k : WithBot κ) cur with hle | hgt
    · obtain ⟨a, ha, hpa⟩ := ih hle fun visit hv => hp visit (List.mem_append_left _ hv)
      exact ⟨a, List.mem_append_left _ ha, hpa⟩
    · obtain ⟨a, ha, rfl, hpa⟩ := hp ⟨list, got⟩ (by simp)
      have hmem : a ∈ got ++ rest := by
        rw [← hsplit]
        exact mem_toCome.mpr ⟨ha, hgt⟩
      refine ⟨a, List.mem_append_right _ ((List.mem_append.mp hmem).resolve_right fun hrest => ?_), rfl, hpa⟩
      have hsorted : (toCome key cur list).Pairwise (fun a b => key a < key b) := hl.filter _
      rw [hsplit] at hsorted
      have hlt := (List.pairwise_append.mp hsorted).2.2 last (List.mem_of_getLast? hlast) a hrest
      exact absurd (WithBot.coe_le_coe.mp hk) (not_le.mpr hlt)

theorem Scanned.got_mem (h : Scanned key cur visits) : ∀ visit ∈ visits, ∀ a ∈ visit.got, a ∈ visit.list := by
  induction h with
  | start => simp
  | @visit cur visits list got rest last _ hl hsplit hlast ih =>
    intro visit hv a ha
    rcases List.mem_append.mp hv with hv | hv
    · exact ih visit hv a ha
    · cases List.mem_singleton.mp hv
      have hmem : a ∈ toCome key cur list := by
        rw [hsplit]
        exact List.mem_append_left _ ha
      exact (mem_toCome.mp hmem).1

/-- The least key of a sorted list is that of its head. -/
theorem head_least {l : List α} {k : κ} (hs : l.Pairwise (fun a b => key a < key b)) (hk : ∃ a ∈ l, key a = k)
    (hle : ∀ a ∈ l, k ≤ key a) : ∃ a tl, l = a :: tl ∧ key a = k := by
  obtain ⟨a, ha, hka⟩ := hk
  cases l with
  | nil => cases ha
  | cons b tl =>
    refine ⟨b, tl, rfl, ?_⟩
    rcases List.mem_cons.mp ha with rfl | ha
    · exact hka
    · have hlt := (List.pairwise_cons.mp hs).1 a ha
      rw [hka] at hlt
      exact absurd (hle b (by simp)) (not_le.mpr hlt)

/-- A scan that gets all that is left by its last visit. -/
theorem Scanned.finish (h : Scanned key cur visits) (hl : list.Pairwise (fun a b => key a < key b))
    (hall : toCome key cur list = got) :
    (gathered (visits ++ [⟨list, got⟩])).Pairwise (fun a b => key a < key b) ∧
      ∀ (p : α → Prop) (k : κ), (∀ visit ∈ visits ++ [⟨list, got⟩], ∃ a ∈ visit.list, key a = k ∧ p a) →
        ∃ a ∈ gathered (visits ++ [⟨list, got⟩]), key a = k ∧ p a := by
  obtain ⟨hs, hle⟩ := h.sorted
  rw [gathered_append]
  refine ⟨Scanned.append_sorted hs hle hl (hall.trans (List.append_nil _).symm), fun p k hp => ?_⟩
  rcases le_or_gt (k : WithBot κ) cur with hk | hk
  · obtain ⟨a, ha, hpa⟩ := h.meets hk fun visit hv => hp visit (List.mem_append_left _ hv)
    exact ⟨a, List.mem_append_left _ ha, hpa⟩
  · obtain ⟨a, ha, rfl, hpa⟩ := hp ⟨list, got⟩ (by simp)
    refine ⟨a, List.mem_append_right _ ?_, rfl, hpa⟩
    rw [← hall]
    exact mem_toCome.mpr ⟨ha, hk⟩

end SortedScan

end Prfs
