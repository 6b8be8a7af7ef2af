import Prfs.LockRanges
import Prfs.ShareReservations

namespace Prfs

namespace NfsV4

variable {v w : NfsV4} {pos : WalkOrder} {hash : Bytes → UInt64} {c f : UInt64}

/-- The client has the file open for WRITE. -/
def MayWrite (m : OrdMap UInt64 OpenState) (c f : UInt64) : Prop :=
  ∃ k o, m.get k = some o ∧ o.clientid = c ∧ o.fileId = f ∧ o.access &&& ACCESS_WRITE ≠ 0

/-- Each lock is on a file that its client has open for WRITE. -/
def LocksBacked (v : NfsV4) : Prop := ∀ k l, v.locks.get k = some l → MayWrite v.opens l.clientid l.fileId

section Kept

variable {m : OrdMap UInt64 OpenState} {k : UInt64} {o o' : OpenState}

/-- An open that keeps its holder and its WRITE access. -/
theorem MayWrite.rewrite (h : MayWrite m c f) (ho : m.get k = some o) (hsame : o'.holder = o.holder)
    (hacc : o.access &&& ACCESS_WRITE ≠ 0 → o'.access &&& ACCESS_WRITE ≠ 0) : MayWrite (m.put k o') c f := by
  obtain ⟨j, p, hp, hc, hf, hmay⟩ := h
  simp only [OpenState.holder, Prod.mk.injEq] at hsame
  by_cases hj : j = k
  · subst hj
    cases ho.symm.trans hp
    exact ⟨j, o', by rw [OrdMap.get_put, if_pos rfl], hsame.1.trans hc, hsame.2.2.trans hf, hacc hmay⟩
  · exact ⟨j, p, by rw [OrdMap.get_put, if_neg hj, hp], hc, hf, hmay⟩

/-- The locks that are left keep their holders, and those the WRITE access. -/
theorem LocksBacked.mono (hv : v.LocksBacked)
    (hlocks : ∀ k l, w.locks.get k = some l → ∃ l', v.locks.get k = some l' ∧ l'.holder = l.holder ∧
      (MayWrite v.opens l.clientid l.fileId → MayWrite w.opens l.clientid l.fileId)) : w.LocksBacked := by
  intro k l hl
  obtain ⟨l', hl', hsame, hmay⟩ := hlocks k l hl
  simp only [LockState.holder, Prod.mk.injEq] at hsame
  have hback := hv k l' hl'
  rw [hsame.1, hsame.2.2] at hback
  exact hmay hback

theorem LocksBacked.reopen (hv : v.LocksBacked) (hlocks : w.locks = v.locks) (hopens : w.opens = v.opens.put k o')
    (ho : v.opens.get k = some o) (hsame : o'.holder = o.holder)
    (hacc : o.access &&& ACCESS_WRITE ≠ 0 → o'.access &&& ACCESS_WRITE ≠ 0) : w.LocksBacked := by
  refine hv.mono fun k l hl => ⟨l, by rwa [← hlocks], rfl, fun hmay => ?_⟩
  rw [hopens]
  exact hmay.rewrite ho hsame hacc

end Kept

end NfsV4

end Prfs
