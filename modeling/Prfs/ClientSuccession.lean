import Prfs.ClientRegistry

namespace Prfs

namespace NfsV4

variable {v : NfsV4} {pos : WalkOrder} {c c' confirm : UInt64}

/-- The record of a client and what it holds are still there. -/
def KeepsClient (c : UInt64) (v w : NfsV4) : Prop :=
  (v.clients.get c ≠ none → w.clients.get c ≠ none) ∧
  (∀ k o, v.opens.get k = some o → o.clientid = c → w.opens.get k = some o) ∧
  ∀ k l, v.locks.get k = some l → l.clientid = c → w.locks.get k = some l

theorem KeepsClient.refl : KeepsClient c v v := ⟨id, fun _ _ ho _ => ho, fun _ _ hl _ => hl⟩

/-- `c` still waits to be confirmed by this verifier, and `c'` is a confirmed lease of the same client. -/
def Lingers (v : NfsV4) (c confirm c' : UInt64) : Prop :=
  ∃ r r', v.clients.get c = some r ∧ r.confirmed = false ∧ r.confirmVerf = confirm ∧
    v.clients.get c' = some r' ∧ r'.confirmed = true ∧ r'.id = r.id

/-- Confirming a lease takes away what is stale, and nothing else. -/
theorem confirmLease_keeps_iff {r : ClientRec} :
    KeepsClient c' v (v.confirmLease pos c r) ↔ c' ∉ staleLeases pos v c r := by
  constructor
  · rintro ⟨hkeep, -, -⟩ hstale
    obtain ⟨hne, r', hr', -⟩ := mem_staleLeases.mp hstale
    refine hkeep (by simp [hr']) ?_
    rw [confirmLease_clients, if_neg hne, if_pos hstale]
  · intro hstale
    refine ⟨fun hsome => ?_, fun k o ho hoc => ?_, fun k l hl hlc => ?_⟩
    · rw [confirmLease_clients]
      split_ifs
      · simp
      · exact hsome
    · exact dropLeases_opens_iff.mpr ⟨ho, by rwa [hoc]⟩
    · exact dropLeases_locks_iff.mpr ⟨hl, by rwa [hlc]⟩

theorem setClientidConfirm_keeps_iff :
    KeepsClient c' v (v.opSetClientidConfirm pos c confirm).2 ↔ ¬ v.Lingers c confirm c' := by
  unfold opSetClientidConfirm
  split
  · next hnone =>
    refine iff_of_true .refl ?_
    rintro ⟨r, -, hr, -⟩
    rw [hnone] at hr
    cases hr
  · next r hr =>
    have hlin : v.Lingers c confirm c' ↔ r.confirmed = false ∧ r.confirmVerf = confirm ∧
        ∃ r', v.clients.get c' = some r' ∧ r'.confirmed = true ∧ r'.id = r.id := by
      simp only [Lingers, hr, Option.some.injEq, exists_and_left, exists_eq_left']
    rw [hlin]
    split_ifs with hverf hconf
    · exact iff_of_true .refl fun h => hverf h.2.1
    · refine iff_of_true .refl fun h => ?_
      rw [h.1] at hconf
      cases hconf
    · refine confirmLease_keeps_iff.trans (not_congr ?_)
      rw [mem_staleLeases]
      constructor
      · rintro ⟨-, hr'⟩
        exact ⟨by simpa using hconf, not_not.mp hverf, hr'⟩
      · rintro ⟨hc, -, r', hr', hconf', hid⟩
        refine ⟨?_, r', hr', hconf', hid⟩
        rintro rfl
        cases hr.symm.trans hr'
        rw [hc] at hconf'
        cases hconf'

/-- A run in which an instance of a client is given `c`, a later one `c'`, and `c'` is confirmed; what comes before,
between and after is arbitrary. -/
def Supersedes (hash : Bytes → UInt64) (is : List (WalkOrder × Req)) (c c' : UInt64) : Prop :=
  ∃ before between pending after id verifier verifier' confirm confirm',
  ∃ first second third : WalkOrder × Req,
    is = before ++ first :: between ++ second :: pending ++ third :: after ∧ verifier ≠ verifier' ∧
    first.2.client = some (id, verifier) ∧ second.2.client = some (id, verifier') ∧
    third.2 = .setClientidConfirm c' confirm' ∧
    ((before.foldl (step hash) {}).exec hash first.1 first.2).1 = ⟨.ok, .clientid c confirm⟩ ∧
    (((before ++ first :: between).foldl (step hash) {}).exec hash second.1 second.2).1 = ⟨.ok, .clientid c' confirm'⟩ ∧
    (((before ++ first :: between ++ second :: pending).foldl (step hash) {}).exec hash third.1 third.2).1.status = .ok

/-- No SETCLIENTID_CONFIRM of the run for a superseded id takes the successor or its state away. -/
def SuccessorsKept (hash : Bytes → UInt64) (is : List (WalkOrder × Req)) : Prop :=
  ∀ pre i c c' confirm, pre ++ [i] <+: is → Supersedes hash pre c c' → i.2 = .setClientidConfirm c confirm →
    KeepsClient c' (pre.foldl (step hash) {}) ((pre ++ [i]).foldl (step hash) {})

/-- Over any run the successors are kept exactly when no late confirmation finds its id still waiting for it beside
a confirmed successor. -/
theorem successors_kept_iff (hash : Bytes → UInt64) (is : List (WalkOrder × Req)) :
    SuccessorsKept hash is ↔ ∀ pre i c c' confirm, pre ++ [i] <+: is → Supersedes hash pre c c' →
      i.2 = .setClientidConfirm c confirm → ¬ (pre.foldl (step hash) {}).Lingers c confirm c' := by
  have hstep : ∀ (pre : List (WalkOrder × Req)) i c c' confirm, i.2 = .setClientidConfirm c confirm →
      (KeepsClient c' (pre.foldl (step hash) {}) ((pre ++ [i]).foldl (step hash) {}) ↔
        ¬ (pre.foldl (step hash) {}).Lingers c confirm c') := by
    rintro pre ⟨pos, q⟩ c c' confirm rfl
    rw [List.foldl_append]
    exact setClientidConfirm_keeps_iff
  constructor
  · intro h pre i c c' confirm hpre hs hi
    exact (hstep pre i c c' confirm hi).mp (h pre i c c' confirm hpre hs hi)
  · intro h pre i c c' confirm hpre hs hi
    exact (hstep pre i c c' confirm hi).mpr (h pre i c c' confirm hpre hs hi)

/-- A client registers, comes back before it is confirmed, is confirmed and opens a file under its new id. -/
def superseded : List (WalkOrder × Req) :=
  [.setClientid 7 [99] 0 [] [] 0, .setClientid 8 [99] 0 [] [] 0, .setClientidConfirm 2 (viewFileid (2 ^^^ 8) 0),
    .openFile ACCESS_READ 0 2 [65] (.ok 2)].map (fun r => (fun _ => 0, r))

/-- Then the confirmation of the first id arrives. -/
def lateConfirm : WalkOrder × Req := (fun _ => 0, .setClientidConfirm 1 (viewFileid (1 ^^^ 7) 0))

theorem superseded_supersedes : Supersedes (fun _ => 0) superseded 1 2 :=
  ⟨[], [], [], [(fun _ => 0, .openFile ACCESS_READ 0 2 [65] (.ok 2))], [99], 7, 8, viewFileid (1 ^^^ 7) 0,
    viewFileid (2 ^^^ 8) 0, (fun _ => 0, .setClientid 7 [99] 0 [] [] 0), (fun _ => 0, .setClientid 8 [99] 0 [] [] 0),
    (fun _ => 0, .setClientidConfirm 2 (viewFileid (2 ^^^ 8) 0)), rfl, by decide, rfl, rfl, rfl, by decide,
    by decide, by decide⟩

/-- The confirmed lease and its open are gone. -/
theorem late_confirm_removes_successor : ¬ SuccessorsKept (fun _ => 0) (superseded ++ [lateConfirm]) := by
  intro h
  have hkeep := h superseded lateConfirm 1 2 _ (List.prefix_refl _) superseded_supersedes rfl
  have hgone : ((superseded ++ [lateConfirm]).foldl (step (fun _ => 0)) {}).clients.get 2 = none := by decide
  exact hkeep.1 (by decide) hgone

end NfsV4

end Prfs
