import Prfs.StoreRuns
import Prfs.StoreDiff

namespace Prfs

/-- The namespace difference of two views: entries, as triples, in one and not in the
other. -/
def View.PathDiffs (v w : View) (p : PathDiff) : Prop :=
  (p.change = .ADDED ∧ w.entry p.parent p.name = some p.child ∧ v.entry p.parent p.name ≠ some p.child) ∨
  (p.change = .REMOVED ∧ v.entry p.parent p.name = some p.child ∧ w.entry p.parent p.name ≠ some p.child)

namespace PrfsStore

variable {s : PrfsStore}

/-- `diffPaths` compares names only, so it is the namespace difference exactly when no
name was re-bound to another child between the two views. -/
theorem diffPaths_exact_iff (hs : Run empty s) {a b : SnapId} (hab : a ≤ b) (hb : b ≤ s.cur) :
    (∀ p, p ∈ s.diffPaths a b ↔ (viewAt s.kv a).PathDiffs (viewAt s.kv b) p) ↔
      ∀ d n c c', (viewAt s.kv a).entry d n = some c → (viewAt s.kv b).entry d n = some c' → c = c' := by
  have hss := hs.sound
  have ha := hss.rr_of_le (le_trans hab hb)
  have hmem : ∀ p, p ∈ s.diffPaths a b ↔ _ := fun p =>
    mem_diffPaths hss.base hss.cur_lt hss.consistent (by rwa [ha, hss.rr_of_le hb]) p
  simp only [ha, hss.rr_of_le hb] at hmem
  simp only [hmem, View.PathDiffs]
  constructor
  · intro h d n c c' hc hc'
    by_contra hne
    have hadd := (h ⟨.ADDED, d, n, c'⟩).mpr (Or.inl ⟨rfl, hc', by simpa [hc] using hne⟩)
    rcases hadd with ⟨-, -, hnone⟩ | ⟨hk, -⟩
    · simp [hc] at hnone
    · simp at hk
  · rintro h ⟨k, d, n, c⟩
    refine or_congr (and_congr_right fun _ => and_congr_right fun he => ⟨fun hn => by simp [hn], fun hn => ?_⟩)
      (and_congr_right fun _ => and_congr_right fun he => ⟨fun hn => by simp [hn], fun hn => ?_⟩)
    · dsimp only at he hn ⊢
      cases ho : (viewAt s.kv a).entry d n with
      | none => rfl
      | some x => exact absurd (by rw [ho, h d n x c ho he]) hn
    · dsimp only at he hn ⊢
      cases ho : (viewAt s.kv b).entry d n with
      | none => rfl
      | some x => exact absurd (by rw [ho, h d n c x he ho]) hn

/-- A store in which the name `f` of a directory is re-bound between snapshots 1 and 2. -/
def rebound : PrfsStore :=
  empty.after [.mkfile [], .link ⟨1, LATEST⟩ [102] ⟨2, LATEST⟩, .snapshot [],
    .unlink ⟨1, LATEST⟩ [102], .mkfile [], .link ⟨1, LATEST⟩ [102] ⟨3, LATEST⟩, .snapshot []]

theorem rebound_run : Run empty rebound := run_after (by decide)

theorem diffPaths_misses_rebound : ¬ ∀ s : PrfsStore, Run empty s → ∀ a b, a ≤ b → b ≤ s.cur →
    ∀ p, p ∈ s.diffPaths a b ↔ (viewAt s.kv a).PathDiffs (viewAt s.kv b) p := by
  intro h
  have hp := (h rebound rebound_run 1 2 (by decide) (by decide) ⟨.ADDED, 1, [102], 3⟩).mpr
    (Or.inl ⟨rfl, by decide, by decide⟩)
  have hnil : rebound.diffPaths 1 2 = [] := by decide
  simp [hnil] at hp

theorem diffPaths_exact_at_rebound : ¬ ∀ p, p ∈ rebound.diffPaths 1 2 ↔
    (viewAt rebound.kv 1).PathDiffs (viewAt rebound.kv 2) p := by
  rw [diffPaths_exact_iff rebound_run (by decide) (by decide)]
  intro h
  exact absurd (h 1 [102] 2 3 (by decide) (by decide)) (by decide)

end PrfsStore

end Prfs
