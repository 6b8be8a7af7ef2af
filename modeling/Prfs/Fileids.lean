import Prfs.Content
import Prfs.Nfs3Reply
import Prfs.Nfs4State
import Prfs.WordMix

namespace Prfs

variable {snap : UInt64}

theorem Content.mix64_injective : Function.Injective Content.mix64 := by
  have h30 : Function.Injective (mixRound 30 0xbf58476d1ce4e5b9) :=
    @mixRound_injective 30 0xbf58476d1ce4e5b9 0x96de1b173f119089 (by decide) (by decide)
  have h27 : Function.Injective (mixRound 27 0x94d049bb133111eb) :=
    @mixRound_injective 27 0x94d049bb133111eb 0x319642b2d24d8ec3 (by decide) (by decide)
  exact (@xor_shift_injective 31 (by decide)).comp (h27.comp h30)

/-- The id of a node in a view of version 3, before its low bit is set. -/
def NfsV3.mixedId (snap id : UInt64) : UInt64 := Content.mix64 (id ^^^ (snap * 0x9E3779B97F4A7C15))

theorem NfsV3.viewFileid_snapshot (h : snap ≠ LATEST) (id : UInt64) : viewFileid id snap = mixedId snap id ||| 1 := by
  unfold viewFileid
  rw [if_neg h]
  rfl

theorem NfsV3.mixedId_injective (snap : UInt64) : Function.Injective (mixedId snap) := by
  intro id id' h
  exact (UInt64.xor_left_inj _).mp (Content.mix64_injective h)

/-- In a snapshot view of version 3 every node id shares its fileid with one other id. -/
theorem NfsV3.viewFileid_pairs (h : snap ≠ LATEST) (id : UInt64) :
    ∃ other, other ≠ id ∧ ∀ x, viewFileid x snap = viewFileid id snap ↔ x = id ∨ x = other := by
  obtain ⟨other, hother⟩ := word_surjective (mixedId_injective snap) (mixedId snap id ^^^ 1)
  refine ⟨other, ?_, fun x => ?_⟩
  · rintro rfl
    have hbit : (1 : UInt64) = 0 := by
      have hself := UInt64.xor_eq_zero_iff.mpr hother
      rwa [← UInt64.xor_assoc, UInt64.xor_self, UInt64.zero_xor] at hself
    exact absurd hbit (by decide)
  · rw [viewFileid_snapshot h, viewFileid_snapshot h, or_one_eq_iff, ← hother, (mixedId_injective snap).eq_iff,
      (mixedId_injective snap).eq_iff]

theorem viewFileid_injective (snap : UInt64) : Function.Injective (fun id => viewFileid id snap) := by
  intro id id' h
  dsimp only [viewFileid] at h
  split_ifs at h
  · exact h
  · have hmixed : id * 0x9E3779B97F4A7C15 + snap = id' * 0x9E3779B97F4A7C15 + snap := Content.mix64_injective h
    exact @mul_word_injective 0x9E3779B97F4A7C15 0xf1de83e19937733d (by decide) _ _ (UInt64.add_left_inj _ |>.mp hmixed)

/-- The two front-ends that number the nodes of a view. -/
inductive FrontEnd
  | nfsv3 | nfsv4
  deriving DecidableEq, Repr

def FrontEnd.viewFileid : FrontEnd → UInt64 → UInt64 → UInt64
  | .nfsv3 => NfsV3.viewFileid
  | .nfsv4 => Prfs.viewFileid

/-- Fileids are unique within a view exactly of version 4, or of the live tree. -/
theorem fileids_unique_iff (e : FrontEnd) (snap : UInt64) :
    Function.Injective (fun id => e.viewFileid id snap) ↔ e = .nfsv4 ∨ snap = LATEST := by
  cases e with
  | nfsv4 => exact iff_of_true (viewFileid_injective snap) (Or.inl rfl)
  | nfsv3 =>
    rw [or_iff_right (by decide)]
    constructor
    · intro h
      by_contra hsnap
      obtain ⟨other, hne, hpair⟩ := NfsV3.viewFileid_pairs hsnap 0
      exact hne (h ((hpair other).mpr (Or.inr rfl)))
    · rintro rfl id id' h
      exact h

/-- Two files of a store with some hundred millions of nodes, in the view of snapshot 995. -/
theorem fileids_collide : ¬ Function.Injective (fun id => FrontEnd.nfsv3.viewFileid id 995) := by
  intro h
  have hsame : NfsV3.viewFileid 58625271 995 = NfsV3.viewFileid 416405293 995 := by decide
  exact absurd (h hsame) (by decide)

end Prfs
