import Prfs.OrdCursor

namespace Prfs

variable {S V : Type} [LinearOrder S] {snap : V → S} {cur g : S} {vs : List V}

/-- The last version not after `g`, by a scan that stops at the first later one. -/
def effScan (snap : V → S) (g : S) : List V → Option V → Option V
  | [], best => best
  | v :: vs, best => if snap v ≤ g then effScan snap g vs (some v) else best

def effAt (snap : V → S) (g : S) (vs : List V) : Option V := effScan snap g vs none

/-- Rewrite the version at `cur`; when the newest one is older, `copy` makes it first. -/
def onNewest (snap : V → S) (cur : S) (copy : Option V → V) (f : V → V) (vs : List V) : List V :=
  match vs.getLast? with
  | some v => if snap v = cur then vs.dropLast ++ [f v] else vs ++ [f (copy (some v))]
  | none => [f (copy none)]

/-- The version that `onNewest` rewrites. -/
def newest (snap : V → S) (cur : S) (copy : Option V → V) (vs : List V) : V :=
  match vs.getLast? with
  | some v => if snap v = cur then v else copy (some v)
  | none => copy none

/-- Versions in order, none after the current one. -/
structure VersOk (snap : V → S) (cur : S) (vs : List V) : Prop where
  sorted : vs.Pairwise (fun a b => snap a < snap b)
  le : ∀ v ∈ vs, snap v ≤ cur

theorem effScan_eq (best : Option V) :
    effScan snap g vs best = (vs.takeWhile (fun v => snap v ≤ g)).getLast?.or best := by
  induction vs generalizing best with
  | nil => rfl
  | cons v vs ih =>
    by_cases hv : snap v ≤ g
    · simp only [effScan, hv, if_true, ih, List.takeWhile_cons, decide_true]
      cases h : (vs.takeWhile (fun v => snap v ≤ g)).getLast? with
      | none => simp [List.getLast?_cons, h]
      | some w => simp [List.getLast?_cons, h]
    · simp [effScan, hv]

theorem VersOk.effAt_eq (h : VersOk snap cur vs) (g : S) :
    effAt snap g vs = (vs.filter (fun v => snap v ≤ g)).getLast? := by
  rw [effAt, effScan_eq, Option.or_none, takeWhile_eq_filter]
  refine h.sorted.imp fun {a b} hab hb => ?_
  simp only [decide_eq_true_eq] at hb ⊢
  exact le_trans (le_of_lt hab) hb

theorem VersOk.effAt_live (h : VersOk snap cur vs) (hg : cur ≤ g) : effAt snap g vs = vs.getLast? := by
  rw [h.effAt_eq, List.filter_eq_self.mpr]
  exact fun v hv => decide_eq_true (le_trans (h.le v hv) hg)

/-- A version pushed at the current snapshot, all others being older. -/
theorem VersOk.push (h : VersOk snap cur vs) {v : V} (hv : snap v = cur) (hlt : ∀ w ∈ vs, snap w < cur) :
    VersOk snap cur (vs ++ [v]) := by
  refine ⟨List.pairwise_append.mpr ⟨h.sorted, List.pairwise_singleton .., fun a ha b hb => ?_⟩, fun w hw => ?_⟩
  · rw [List.mem_singleton.mp hb, hv]
    exact hlt a ha
  · rcases List.mem_append.mp hw with hw | hw
    · exact h.le w hw
    · rw [List.mem_singleton.mp hw, hv]

theorem VersOk.effAt_push (h : VersOk snap cur vs) {v : V} (hv : snap v = cur) (hlt : ∀ w ∈ vs, snap w < cur)
    (hg : g < cur) : effAt snap g (vs ++ [v]) = effAt snap g vs := by
  rw [(h.push hv hlt).effAt_eq, h.effAt_eq, List.filter_append]
  simp [hv, not_le.mpr hg]

/-- The versions before the current one, and what a rewrite puts after them. -/
theorem VersOk.onNewest_eq (h : VersOk snap cur vs) (copy : Option V → V) (f : V → V) :
    ∃ old, onNewest snap cur copy f vs = old ++ [f (newest snap cur copy vs)] ∧ VersOk snap cur old ∧
      (∀ w ∈ old, w ∈ vs ∧ snap w < cur) ∧ ∀ g < cur, effAt snap g old = effAt snap g vs := by
  unfold onNewest newest
  cases hl : vs.getLast? with
  | none =>
    obtain rfl := List.getLast?_eq_none_iff.mp hl
    exact ⟨[], rfl, h, by simp, fun _ _ => rfl⟩
  | some v =>
    obtain ⟨old, rfl⟩ := List.getLast?_eq_some_iff.mp hl
    obtain ⟨hold, -, hlt⟩ := List.pairwise_append.mp h.sorted
    have hok : VersOk snap cur old := ⟨hold, fun w hw => h.le w (List.mem_append_left _ hw)⟩
    dsimp only
    split_ifs with hv
    · rw [List.dropLast_concat]
      have hlt' : ∀ w ∈ old, snap w < cur := fun w hw => hv ▸ hlt w hw v (by simp)
      exact ⟨old, rfl, hok, fun w hw => ⟨List.mem_append_left _ hw, hlt' w hw⟩,
        fun g hg => (hok.effAt_push hv hlt' hg).symm⟩
    · have hvlt : snap v < cur := lt_of_le_of_ne (h.le v (by simp)) hv
      refine ⟨old ++ [v], rfl, h, fun w hw => ⟨hw, ?_⟩, fun _ _ => rfl⟩
      rcases List.mem_append.mp hw with hw | hw
      · exact lt_trans (hlt w hw v (by simp)) hvlt
      · rwa [List.mem_singleton.mp hw]

section Rewrite

variable {copy : Option V → V} {f : V → V}

theorem VersOk.onNewest_ok (h : VersOk snap cur vs) (hf : snap (f (newest snap cur copy vs)) = cur) :
    VersOk snap cur (onNewest snap cur copy f vs) := by
  obtain ⟨old, he, hok, hlt, -⟩ := h.onNewest_eq copy f
  rw [he]
  exact hok.push hf fun w hw => (hlt w hw).2

theorem VersOk.effAt_onNewest_old (h : VersOk snap cur vs) (hf : snap (f (newest snap cur copy vs)) = cur)
    (hg : g < cur) : effAt snap g (onNewest snap cur copy f vs) = effAt snap g vs := by
  obtain ⟨old, he, hok, hlt, heff⟩ := h.onNewest_eq copy f
  rw [he, hok.effAt_push hf (fun w hw => (hlt w hw).2) hg, heff g hg]

theorem VersOk.effAt_onNewest_live (h : VersOk snap cur vs) (hf : snap (f (newest snap cur copy vs)) = cur)
    (hg : cur ≤ g) : effAt snap g (onNewest snap cur copy f vs) = some (f (newest snap cur copy vs)) := by
  rw [(h.onNewest_ok hf).effAt_live hg]
  obtain ⟨old, he, -⟩ := h.onNewest_eq copy f
  simp [he]

theorem VersOk.mem_onNewest (h : VersOk snap cur vs) {v : V} (hv : v ∈ onNewest snap cur copy f vs) :
    v ∈ vs ∨ v = f (newest snap cur copy vs) := by
  obtain ⟨old, he, -, hlt, -⟩ := h.onNewest_eq copy f
  rw [he] at hv
  exact (List.mem_append.mp hv).imp (fun hw => (hlt v hw).1) List.mem_singleton.mp

end Rewrite

end Prfs
