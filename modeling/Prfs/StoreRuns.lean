import Prfs.StoreRefines
import Prfs.Runs

namespace Prfs

namespace PrfsStore

/-- A public operation whose new id, if it makes one, is in its id space. -/
def Fits (s : PrfsStore) (op : Op) : Prop := op.Fits s.next s.cur

/-- `t` is reached from `s` by public operations, their answers ignored. -/
def Run (s t : PrfsStore) : Prop := Reaches (fun s op => (s.exec op).2) Fits s t

instance Fits.decidable (s : PrfsStore) (op : Op) : Decidable (s.Fits op) := inferInstanceAs (Decidable (op.Fits s.next s.cur))

/-- The store after a list of operations. -/
def after (s : PrfsStore) (ops : List Op) : PrfsStore := ops.foldl (fun s op => (s.exec op).2) s

theorem run_after {s : PrfsStore} {ops : List Op} (h : Allowed (fun s op => (s.exec op).2) Fits s ops) :
    Run s (s.after ops) := Reaches.of_allowed h

/-- The store stands for some file system that meets the invariant. -/
def Sound (s : PrfsStore) : Prop := ∃ a, Refines s a ∧ a.Inv

variable {s t : PrfsStore}

theorem Sound.exec (h : s.Sound) {op : Op} (hf : s.Fits op) : (s.exec op).2.Sound := by
  obtain ⟨a, hr, hi⟩ := h
  refine ⟨_, (hr.exec hi _ hf).2, hi.exec ?_⟩
  rw [← hr.next, ← hr.cur]
  exact hf

theorem Sound.empty : PrfsStore.empty.Sound := ⟨_, .empty, .init⟩

theorem Sound.run (h : s.Sound) (hr : Run s t) : t.Sound :=
  Reaches.invariant (P := Sound) (fun _ _ hs hf => hs.exec hf) h hr

theorem Run.sound (h : Run empty s) : s.Sound := Sound.empty.run h

namespace Sound

theorem base (h : s.Sound) : Base s.cur s.kv := by
  obtain ⟨a, hr, -⟩ := h
  exact hr.base

theorem root (h : s.Sound) : s.root = 1 := by
  obtain ⟨a, hr, -⟩ := h
  exact hr.root

theorem cur_lt (h : s.Sound) : s.cur < LATEST := by
  obtain ⟨a, hr, hi⟩ := h
  rw [hr.cur]
  exact hi.cur_hi

theorem rr_of_le (h : s.Sound) {g : SnapId} (hg : g ≤ s.cur) : s.rr g = g := by
  have hne : g ≠ LATEST := ne_of_lt (lt_of_le_of_lt hg h.cur_lt)
  simp [rr, hne]

theorem consistent (h : s.Sound) (g : SnapId) : (viewAt s.kv g).Consistent := by
  obtain ⟨a, hr, hi⟩ := h
  rw [hr.viewAt_eq]
  exact hi.cons g

theorem acyclic (h : s.Sound) (g : SnapId) : (viewAt s.kv g).Acyclic := by
  obtain ⟨a, hr, hi⟩ := h
  rw [hr.viewAt_eq]
  exact hi.acyc g

/-- Node ids keep the top bit clear. -/
theorem not_isSnapDir (h : s.Sound) {g : SnapId} {id : UInt64} {r : NodeRec}
    (hr : (viewAt s.kv g).node id = some r) : isSnapDir id = false := by
  obtain ⟨a, ha, hi⟩ := h
  rw [ha.viewAt_eq] at hr
  exact isSnapDir_of_lt (lt_of_lt_of_le (hi.ids g id r hr).1.2 hi.next_hi)

end Sound

end PrfsStore

end Prfs
